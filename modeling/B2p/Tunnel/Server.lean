import B2p.Tunnel.Send

/-!
# The tunnel's receiver (`server.rs`)

The four request handlers, as programs over the disk, the mutex around the active transfer, the accept
prompt and the event channel. `App.serve` checks the token and the length of the body, and runs one
request to its end before the next; the handlers themselves can be interleaved.
-/

namespace B2p

open Interaction Prog

namespace Server

def MAX_AUTH_FAILURES : Nat := 10

/-- What `DefaultBodyLimit::max` is given. -/
def BODY_LIMIT : Nat := CHUNK_SIZE + 4096

/-- The body is more than the handler's `Bytes` takes. `handle_status` reads none. -/
def TooLarge (req : Request) : Prop := req.endpoint ≠ .status ∧ BODY_LIMIT < req.body.length

instance (req : Request) : Decidable (TooLarge req) :=
  inferInstanceAs (Decidable (req.endpoint ≠ .status ∧ BODY_LIMIT < req.body.length))

/-- `ServerCfg`, without the secret and with the output directory as it is printed. -/
structure ServerCfg where
  outDir : String
  autoAccept : Bool
  overwrite : Bool

structure ActiveTransfer where
  manifest : Manifest
  store : Store
  deriving DecidableEq

inductive Event where
  | accepted (name : String) (totalSize : Nat)
  | progress (bytes : Nat)
  | text (content : String)
  | done (desc : String)
  | failed (error : String)
  deriving DecidableEq

/-! ## Operations -/

inductive ServerOp where
  | fs (o : FsOp)
  /-- `app.transfer.lock().await`: what is in the slot. -/
  | lock
  /-- Put this into the slot and release the lock. -/
  | unlock (t : Option ActiveTransfer)
  /-- Ask for acceptance; `none` if nobody listens any more. -/
  | accept (summary : String)
  | event (e : Event)
  /-- Cancel the server, 200 ms later. -/
  | shutdown
  deriving DecidableEq

@[reducible] def ServerOp.Res : ServerOp → Type
  | .fs o => o.Res
  | .lock => Option ActiveTransfer
  | .unlock _ => Unit
  | .accept _ => Option Bool
  | .event _ => Unit
  | .shutdown => Unit

abbrev serverEffects : Effects := ⟨ServerOp, ServerOp.Res⟩

abbrev ServerProg := Prog serverEffects Anyhow

abbrev op (o : ServerOp) : ServerProg o.Res := .step o .ret

/-- A program that only touches the disk. -/
def onDisk {α : Type} (p : FsProg α) : ServerProg α := p.interp fun o => op (.fs o)

/-! ## Handlers -/

/-- `safe_name`, the same text as in `stream.rs`. -/
def safeName (name : String) : String := Stream.safeName name

/-- `StatusCode::into_response`. -/
def status (code : Nat) : Response := ⟨code, []⟩

section

variable (X : Externals) (cfg : ServerCfg) (key : Key)

/-- `open_json`. -/
def openJson {T : Type} (c : Codec T) (domain : Domain) (aad body : Bytes) : Option T :=
  (X.cipher.open_ key domain 0 aad body).bind c.fromSlice

/-- A refusal. -/
def declined : Response := ⟨200, X.manifestAckJson.toVec ⟨false, false, []⟩⟩

/-- What the user is shown. -/
def summary (manifest : Manifest) (destExists : Bool) : String :=
  let base := match manifest.kind with
    | .text => "Incoming text snippet"
    | _ =>
        let listing := (manifest.entries.take 10).map fun e => s!"  {e.path} ({e.size} bytes)"
        s!"Incoming: {manifest.entries.length} file(s), {manifest.totalSize} bytes total\n" ++
          "\n".intercalate listing
  if destExists && manifest.kind == .file then
    base ++ "\n  WARNING: destination file exists and will be overwritten"
  else base

/-- Accepted or not; `none` if there was nobody to ask. -/
def decide_ (manifest : Manifest) (destExists : Bool) : ServerProg (Option Bool) :=
  if cfg.autoAccept then
    return some (!(destExists && manifest.kind == .file && !cfg.overwrite))
  else op (.accept (summary manifest destExists))

/-- `handle_manifest` once the transfer is accepted. -/
def acceptManifest (manifest : Manifest) (name : String) : ServerProg Response :=
  if manifest.kind = .text then do
    op (.event (.text (manifest.text.getD "")))
    op (.event (.done "text received"))
    op .shutdown
    return ⟨200, X.manifestAckJson.toVec ⟨true, true, []⟩⟩
  else do
    match ← (onDisk (Store.openOrCreate X name manifest.transferId manifest.totalSize
        manifest.chunkSize)).attempt with
    | .error e =>
        op (.event (.failed ("cannot open store: " ++ e.toString)))
        return status 500
    | .ok store =>
        op (.event (.accepted name manifest.totalSize))
        let _ ← op .lock
        op (.unlock (some ⟨manifest, store⟩))
        return ⟨200, X.manifestAckJson.toVec ⟨true, false, store.haves⟩⟩

/-- `handle_manifest`. -/
def handleManifest (body : Bytes) : ServerProg Response :=
  match openJson X key X.manifestJson .manifest [] body with
  | none => return status 400
  | some manifest =>
      if manifest.version ≠ PROTOCOL_VERSION then return declined X
      else do
        let name := safeName manifest.name
        let destExists ← op (.fs (.pathExists (.out name)))
        match ← decide_ cfg manifest destExists with
        | none => return status 503
        | some false => return declined X
        | some true => acceptManifest X manifest name

/-- `handle_chunk`. -/
def handleChunk (index : Nat) (body : Bytes) : ServerProg Response := do
  match ← op .lock with
  | none =>
      op (.unlock none)
      return status 409
  | some active =>
      match X.cipher.open_ key .data index (asBytes active.manifest.transferId) body with
      | none =>
          op (.unlock (some active))
          return status 400
      | some plaintext => do
          let (r, store) ← onDisk (active.store.writeChunk X index plaintext)
          match r with
          | .ok () =>
              op (.event (.progress plaintext.length))
              op (.unlock (some { active with store := store }))
              return status 200
          | .error e =>
              op (.unlock (some { active with store := store }))
              return ⟨400, asBytes e.toString⟩

/-- `handle_status`. Its body is JSON that no function of the repository reads. -/
def handleStatus : ServerProg Response := do
  let slot ← op .lock
  op (.unlock slot)
  match slot with
  | some _ => return status 200
  | none => return status 409

/-- `finalize`. -/
def finalize (active : ActiveTransfer) (commit : Commit) : FsProg String :=
  if active.store.isComplete = false then
    .fail (.msg (s!"transfer incomplete: {active.store.haves.length}/" ++
      s!"{active.store.totalChunks} chunks"))
  else do
    let actual ← active.store.fileHash X
    if actual ≠ commit.blake3Hex then .fail (.msg "integrity check failed: hash mismatch")
    else match active.manifest.kind with
      | .file => do
          active.store.finalizeFile cfg.outDir (safeName active.manifest.name)
          return "saved " ++ joinPath cfg.outDir (safeName active.manifest.name)
      | .tar => do
          Stream.unpackTar active.store.dataPath
          active.store.cleanup
          return "unpacked archive into " ++ cfg.outDir
      | .text =>
          .fail (.msg "internal error: entered unreachable code: text transfers complete at manifest time")

/-- The reply to a commit. -/
def commitReply : Except Anyhow String → CommitAck
  | .ok _ => ⟨true, none⟩
  | .error e => ⟨false, some e.toString⟩

/-- `handle_commit`. -/
def handleCommit (body : Bytes) : ServerProg Response := do
  match ← op .lock with
  | none =>
      op (.unlock none)
      return status 409
  | some active =>
      match openJson X key X.commitJson .commit (asBytes active.manifest.transferId) body with
      | none =>
          op (.unlock (some active))
          return status 400
      | some commit => do
          let result ← (onDisk (finalize X cfg active commit)).attempt
          match result with
          | .ok desc =>
              op (.event (.done desc))
              op .shutdown
          | .error e => op (.event (.failed e.toString))
          op (.unlock none)
          return ⟨200, X.commitAckJson.toVec (commitReply result)⟩

/-- The router. -/
def handler (req : Request) : ServerProg Response :=
  match req.endpoint with
  | .manifest => handleManifest X cfg key req.body
  | .chunk index => handleChunk X key index req.body
  | .status => handleStatus
  | .commit => handleCommit X cfg key req.body

end

/-! ## One request after the other -/

/-- The running server: the slot, the disk, and whether it is about to stop. -/
structure App where
  transfer : Option ActiveTransfer
  disk : Fs
  authFailures : Nat
  stopping : Bool
  events : List Event

/-- Handlers run one at a time, the user says `answer` when asked. -/
def App.handle (X : Externals) (answer : Option Bool) : Handler serverEffects App
  | .fs o, app => ((X.handle o app.disk).1, { app with disk := (X.handle o app.disk).2 })
  | .lock, app => (app.transfer, app)
  | .unlock t, app => ((), { app with transfer := t })
  | .accept _, app => (answer, app)
  | .event e, app => ((), { app with events := app.events ++ [e] })
  | .shutdown, app => ((), { app with stopping := true })

/-- How axum refuses a body that is too large. -/
def payloadTooLarge : Response := ⟨413, asBytes "Failed to buffer the request body: length limit exceeded"⟩

/-- `auth_mw` around the router. The tokens are compared by their hashes. -/
def App.serve (X : Externals) (cfg : ServerCfg) (key : Key) (token : String) (answer : Option Bool)
    (req : Request) (app : App) : Response × App :=
  if X.blake3 (asBytes req.token) ≠ X.blake3 (asBytes token) then
    let fails := app.authFailures + 1
    if fails ≥ MAX_AUTH_FAILURES then
      (status 401, { app with
        authFailures := fails
        stopping := true
        events := app.events ++ [.failed "too many bad auth attempts — shutting down"] })
    else (status 401, { app with authFailures := fails })
  else if TooLarge req then (payloadTooLarge, app)
  else
    match (handler X cfg key req).eval (App.handle X answer) app with
    | (.ok r, app) => (r, app)
    | (.error _, app) => (status 500, app)

end Server
end B2p
