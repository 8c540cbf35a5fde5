import B2p.Tunnel.Session

/-!
# Panics of the tunnel's receiver

The handlers once more, with the arithmetic of `u64` checked: a division by zero, an overflow, or the
`unreachable!` of `finalize` unwinds out of the handler, which drops its lock on the way. The connection
is closed without an answer, and the server goes on.

* `Fault` — an error, which the handler catches, or a panic, which it does not.
* `Checked.handler`, `Checked.serve` — the handlers, and one request.
* `Checked.serve_eq` — without a panic they do what `handler` and `App.serve` do.
* `Checked.unharmed_iff` — requests for the active transfer never panic if and only if its chunk size is
  not zero.
* `Checked.accepted_unharmed_iff` — the same of an accepted manifest; `Checked.zero_chunk_panics` is one
  that does panic.
-/

namespace B2p

open Interaction Prog

/-- How a computation ends that does not return. -/
inductive Fault where
  | err (e : Anyhow)
  | panic (msg : String)

/-- `?` and `match` see an error, not a panic. -/
def catchErr {E : Effects} {α : Type} : Prog E Fault α → Prog E Fault (Except Anyhow α)
  | .ret a => .ret (.ok a)
  | .fail (.err e) => .ret (.error e)
  | .fail (.panic msg) => .fail (.panic msg)
  | .step o k => .step o fun r => catchErr (k r)

namespace Server

/-- A panic drops the guard of the lock, with `t` in the slot. -/
def unwinding {α : Type} (t : Option ActiveTransfer) :
    Prog serverEffects Fault α → Prog serverEffects Fault α
  | .ret a => .ret a
  | .fail (.err e) => .fail (.err e)
  | .fail (.panic msg) => .step (.unlock t) fun _ => .fail (.panic msg)
  | .step o k => .step o fun r => unwinding t (k r)

namespace Checked

/-! ## Arithmetic of `u64` -/

def subOrPanic (a b : Nat) : Except Fault Nat :=
  if b ≤ a then .ok (a - b) else .error (.panic "attempt to subtract with overflow")

def mulOrPanic (a b : Nat) : Except Fault Nat :=
  if a * b < 2 ^ 64 then .ok (a * b) else .error (.panic "attempt to multiply with overflow")

/-- `u64::div_ceil`. -/
def divCeilOrPanic (a b : Nat) : Except Fault Nat :=
  if b = 0 then .error (.panic "attempt to divide by zero") else .ok (divCeil a b)

/-! ## The store -/

abbrev syscall (o : FsOp) : Prog fsEffects Fault o.Res := .step o .ret

/-- `Store::total_chunks`. -/
def totalChunks (s : Store) : Except Fault Nat := divCeilOrPanic s.state.totalSize s.state.chunkSize

/-- `Store::expected_len`. -/
def expectedLen (s : Store) (index : Nat) : Except Fault Nat := do
  let last ← subOrPanic (← totalChunks s) 1
  if index < last then return s.state.chunkSize
  else subOrPanic s.state.totalSize (← mulOrPanic last s.state.chunkSize)

/-- `Store::is_complete`. -/
def isComplete (s : Store) : Except Fault Bool := do
  return s.state.haves.card == (← totalChunks s)

section

variable (X : Externals)

/-- `Store::write_chunk`. -/
def writeChunk (s : Store) (index : Nat) (plaintext : Bytes) :
    Prog fsEffects Fault (Except Anyhow Unit × Store) := do
  let total ← ofExcept (totalChunks s)
  if index ≥ total then return (.error (.msg s!"chunk index {index} out of range"), s)
  else do
    let expected ← ofExcept (expectedLen s index)
    if plaintext.length ≠ expected then
      return (.error (.msg (s!"chunk {index} has wrong length {plaintext.length} " ++
        s!"(expected {expected})")), s)
    else do
      let off ← ofExcept (mulOrPanic index s.state.chunkSize)
      match ← syscall (.writeAt s.file off plaintext) with
      | .error e => return (.error (.io e), s)
      | .ok () =>
          let persisted ← ((Store.persistState X (s.record index)).attempt).mapError .err
          return (persisted, s.record index)

/-! ## The handlers -/

variable (cfg : ServerCfg) (key : Key)

/-- `finalize`. -/
def finalize (active : ActiveTransfer) (commit : Commit) : Prog fsEffects Fault String := do
  let complete ← ofExcept (isComplete active.store)
  if complete = false then do
    let total ← ofExcept (totalChunks active.store)
    .fail (.err (.msg (s!"transfer incomplete: {active.store.haves.length}/" ++ s!"{total} chunks")))
  else do
    let actual ← (active.store.fileHash X).mapError .err
    if actual ≠ commit.blake3Hex then .fail (.err (.msg "integrity check failed: hash mismatch"))
    else match active.manifest.kind with
      | .file => do
          (active.store.finalizeFile cfg.outDir (safeName active.manifest.name)).mapError .err
          return "saved " ++ joinPath cfg.outDir (safeName active.manifest.name)
      | .tar => do
          (Stream.unpackTar active.store.dataPath).mapError .err
          active.store.cleanup.mapError .err
          return "unpacked archive into " ++ cfg.outDir
      | .text =>
          .fail (.panic
            "internal error: entered unreachable code: text transfers complete at manifest time")

abbrev op (o : ServerOp) : Prog serverEffects Fault o.Res := .step o .ret

/-- A program that only touches the disk. -/
def onDisk {α : Type} (p : Prog fsEffects Fault α) : Prog serverEffects Fault α :=
  p.interp fun o => op (.fs o)

/-- `handle_chunk`. -/
def handleChunk (index : Nat) (body : Bytes) : Prog serverEffects Fault Response := do
  match ← op .lock with
  | none =>
      op (.unlock none)
      return status 409
  | some active =>
      match X.cipher.open_ key .data index (asBytes active.manifest.transferId) body with
      | none =>
          op (.unlock (some active))
          return status 400
      | some plaintext => do
          let (r, store) ← unwinding (some active) (onDisk (writeChunk X active.store index plaintext))
          match r with
          | .ok () =>
              op (.event (.progress plaintext.length))
              op (.unlock (some { active with store := store }))
              return status 200
          | .error e =>
              op (.unlock (some { active with store := store }))
              return ⟨400, asBytes e.toString⟩

/-- `handle_commit`. The transfer has been taken out of the slot when `finalize` is called. -/
def handleCommit (body : Bytes) : Prog serverEffects Fault Response := do
  match ← op .lock with
  | none =>
      op (.unlock none)
      return status 409
  | some active =>
      match openJson X key X.commitJson .commit (asBytes active.manifest.transferId) body with
      | none =>
          op (.unlock (some active))
          return status 400
      | some commit => do
          let result ← unwinding none (onDisk (catchErr (finalize X cfg active commit)))
          match result with
          | .ok desc =>
              op (.event (.done desc))
              op .shutdown
          | .error e => op (.event (.failed e.toString))
          op (.unlock none)
          return ⟨200, X.commitAckJson.toVec (commitReply result)⟩

/-- The router. `handle_manifest` and `handle_status` do no arithmetic. -/
def handler (req : Request) : Prog serverEffects Fault Response :=
  match req.endpoint with
  | .manifest => (handleManifest X cfg key req.body).mapError .err
  | .chunk index => handleChunk X key index req.body
  | .status => handleStatus.mapError .err
  | .commit => handleCommit X cfg key req.body

/-- `auth_mw` and the limit of the body around the router; no answer where the handler panics. -/
def serve (token : String) (answer : Option Bool) (req : Request) (app : App) :
    Option Response × App :=
  if X.blake3 (asBytes req.token) ≠ X.blake3 (asBytes token) ∨ TooLarge req then
    (some (App.serve X cfg key token answer req app).1, (App.serve X cfg key token answer req app).2)
  else
    match (handler X cfg key req).eval (App.handle X answer) app with
    | (.ok r, app) => (some r, app)
    | (.error (.err _), app) => (some (status 500), app)
    | (.error (.panic _), app) => (none, app)

end

/-! ## Without a panic -/

/-- What a transfer needs for the arithmetic on it to go through. -/
structure Sound (active : ActiveTransfer) : Prop where
  kind : active.manifest.kind ≠ .text
  chunkSize : active.store.state.chunkSize ≠ 0
  totalSize : active.store.state.totalSize < 2 ^ 64

section refinement

variable {X : Externals} {cfg : ServerCfg} {key : Key} {s : Store}

theorem totalChunks_eq (h : s.state.chunkSize ≠ 0) : totalChunks s = .ok s.totalChunks := by
  rw [totalChunks, divCeilOrPanic, if_neg h]
  rfl

theorem isComplete_eq (h : s.state.chunkSize ≠ 0) : isComplete s = .ok s.isComplete := by
  rw [isComplete, totalChunks_eq h]
  rfl

/-- Every chunk starts within the file. -/
theorem mulOrPanic_eq (h : s.state.chunkSize ≠ 0) (htotal : s.state.totalSize < 2 ^ 64) {index : Nat}
    (hi : index < s.totalChunks) :
    index * s.state.chunkSize < s.state.totalSize ∧
      mulOrPanic index s.state.chunkSize = .ok (index * s.state.chunkSize) := by
  have hstart := (lt_divCeil_iff (Nat.pos_of_ne_zero h)).mp hi
  refine ⟨hstart, ?_⟩
  rw [mulOrPanic, if_pos (by omega)]

theorem expectedLen_eq (h : s.state.chunkSize ≠ 0) (htotal : s.state.totalSize < 2 ^ 64) {index : Nat}
    (hi : index < s.totalChunks) : expectedLen s index = .ok (s.expectedLen index) := by
  obtain ⟨hlast, hmul⟩ := mulOrPanic_eq h htotal (show s.totalChunks - 1 < s.totalChunks by omega)
  have hsub : subOrPanic s.totalChunks 1 = .ok (s.totalChunks - 1) := if_pos (by omega)
  have hrest : subOrPanic s.state.totalSize ((s.totalChunks - 1) * s.state.chunkSize)
      = .ok (s.state.totalSize - (s.totalChunks - 1) * s.state.chunkSize) := if_pos hlast.le
  rw [expectedLen, totalChunks_eq h, Store.expectedLen]
  show (subOrPanic s.totalChunks 1 >>= _) = _
  rw [hsub]
  show (if index < s.totalChunks - 1 then _ else mulOrPanic _ _ >>= _) = _
  split
  · rfl
  · rw [hmul]
    exact hrest

/-- **`write_chunk` does not panic.** -/
theorem writeChunk_eq (h : s.state.chunkSize ≠ 0) (htotal : s.state.totalSize < 2 ^ 64) (index : Nat)
    (plaintext : Bytes) :
    writeChunk X s index plaintext = (s.writeChunk X index plaintext).mapError .err := by
  rw [writeChunk, totalChunks_eq h, ofExcept_ok, ret_bind, Store.writeChunk]
  split
  · rfl
  · next hi =>
      have hlt := Nat.lt_of_not_le hi
      rw [expectedLen_eq h htotal hlt, ofExcept_ok, ret_bind]
      split
      · rfl
      · rw [(mulOrPanic_eq h htotal hlt).2, ofExcept_ok, ret_bind]
        -- none of the additions and products overflows; what is left are the calls
        refine congrArg (Prog.step _) (funext fun r => ?_)
        cases r with
        | error e => rfl
        | ok u =>
            show _ = mapError Fault.err ((Store.persistState X (s.record index)).attempt >>=
              fun persisted => ret (persisted, s.record index))
            rw [mapError_bind]
            rfl

theorem onDisk_mapError {α : Type} (p : FsProg α) :
    onDisk (p.mapError .err) = (Server.onDisk p).mapError .err := by
  induction p with
  | ret a => rfl
  | fail e => rfl
  | step o k ih => exact congrArg (Prog.step _) (funext ih)

theorem unwinding_mapError {α : Type} (t : Option ActiveTransfer) (p : ServerProg α) :
    unwinding t (p.mapError .err) = p.mapError .err := by
  induction p with
  | ret a => rfl
  | fail e => rfl
  | step o k ih => exact congrArg (Prog.step o) (funext ih)

theorem catchErr_mapError {α : Type} (p : FsProg α) :
    catchErr (p.mapError .err) = p.attempt.mapError .err := by
  induction p with
  | ret a => rfl
  | fail e => rfl
  | step o k ih => exact congrArg (Prog.step o) (funext ih)

theorem onDisk_attempt {α : Type} (p : FsProg α) : Server.onDisk p.attempt = (Server.onDisk p).attempt := by
  induction p with
  | ret a => rfl
  | fail e => rfl
  | step o k ih => exact congrArg (Prog.step _) (funext ih)

/-- **Nor does `finalize`.** -/
theorem finalize_eq {active : ActiveTransfer} (h : Sound active) (commit : Commit) :
    finalize X cfg active commit = (Server.finalize X cfg active commit).mapError .err := by
  rw [finalize, isComplete_eq h.chunkSize, totalChunks_eq h.chunkSize, ofExcept_ok, ret_bind,
    Server.finalize]
  split
  · rfl
  · rw [mapError_bind]
    refine congrArg _ (funext fun actual => ?_)
    split
    · rfl
    -- `text` is the branch `unreachable!` stands in
    · cases hkind : active.manifest.kind with
      | file =>
          dsimp only
          rw [mapError_bind]
          rfl
      | tar =>
          dsimp only
          rw [mapError_bind]
          refine congrArg _ (funext fun _ => ?_)
          rw [mapError_bind]
          rfl
      | text => exact absurd hkind h.kind

variable {answer : Option Bool} {app : App}

/-- What follows taking the lock is what follows it without the checks. -/
theorem handleChunk_sound (index : Nat) (body : Bytes) {active : ActiveTransfer} (h : Sound active)
    (hactive : app.transfer = some active) :
    (handleChunk X key index body).eval (App.handle X answer) app
      = ((Server.handleChunk X key index body).mapError .err).eval (App.handle X answer) app := by
  have hlock : App.handle X answer .lock app = (some active, app) := by rw [← hactive]; rfl
  refine (eval_step_eq _ hlock).trans (Eq.trans ?_ (eval_step_eq _ hlock).symm)
  dsimp only [Prog.bind]
  cases X.cipher.open_ key .data index (asBytes active.manifest.transferId) body with
  | none => rfl
  | some plaintext =>
      dsimp only
      rw [writeChunk_eq h.chunkSize h.totalSize, onDisk_mapError, unwinding_mapError, mapError_bind]
      refine congrArg (fun p => Prog.eval _ (_ >>= p) app) (funext fun r => ?_)
      obtain ⟨r, store⟩ := r
      cases r with
      | ok u => rfl
      | error e => rfl

theorem handleCommit_sound (body : Bytes) {active : ActiveTransfer} (h : Sound active)
    (hactive : app.transfer = some active) :
    (handleCommit X cfg key body).eval (App.handle X answer) app
      = ((Server.handleCommit X cfg key body).mapError .err).eval (App.handle X answer) app := by
  have hlock : App.handle X answer .lock app = (some active, app) := by rw [← hactive]; rfl
  refine (eval_step_eq _ hlock).trans (Eq.trans ?_ (eval_step_eq _ hlock).symm)
  dsimp only [Prog.bind]
  cases openJson X key X.commitJson .commit (asBytes active.manifest.transferId) body with
  | none => rfl
  | some commit =>
      dsimp only
      rw [finalize_eq h, catchErr_mapError, onDisk_mapError, unwinding_mapError, onDisk_attempt,
        mapError_bind]
      refine congrArg (fun p => Prog.eval _ (_ >>= p) app) (funext fun r => ?_)
      cases r with
      | ok desc => rfl
      | error e => rfl

/-- **No handler panics on a sound transfer**, and each does what it does without the checks. -/
theorem eval_handler (h : ∀ active, app.transfer = some active → Sound active) (req : Request) :
    (handler X cfg key req).eval (App.handle X answer) app
      = ((Server.handler X cfg key req).mapError .err).eval (App.handle X answer) app := by
  have hlock : App.handle X answer .lock app = (app.transfer, app) := rfl
  unfold handler Server.handler
  cases req.endpoint with
  | manifest => rfl
  | chunk index =>
      -- only what lies in the slot can panic
      cases htransfer : app.transfer with
      | some active => exact handleChunk_sound _ _ (h active htransfer) htransfer
      | none =>
          rw [htransfer] at hlock
          refine (eval_step_eq _ hlock).trans (Eq.trans ?_ (eval_step_eq _ hlock).symm)
          rfl
  | status => rfl
  | commit =>
      cases htransfer : app.transfer with
      | some active => exact handleCommit_sound _ (h active htransfer) htransfer
      | none =>
          rw [htransfer] at hlock
          refine (eval_step_eq _ hlock).trans (Eq.trans ?_ (eval_step_eq _ hlock).symm)
          rfl

/-- **Nor does any request**: it is served as it is without the checks. -/
theorem serve_eq (h : ∀ active, app.transfer = some active → Sound active) (token : String)
    (req : Request) :
    serve X cfg key token answer req app = (some (App.serve X cfg key token answer req app).1,
      (App.serve X cfg key token answer req app).2) := by
  unfold serve
  split
  · rfl
  · next hpasses =>
      rw [not_or] at hpasses
      rw [eval_handler h, eval_mapError, App.serve, if_neg hpasses.1, if_neg hpasses.2]
      cases hres : (Server.handler X cfg key req).eval (App.handle X answer) app with
      | mk r app' =>
          cases r with
          | ok r => rfl
          | error e => rfl

end refinement

/-! ## What is in the slot -/

/-- The transfer in the slot, when the lock is taken, is one of `K`. -/
def Granted (K : ActiveTransfer → Prop) : (o : ServerOp) → o.Res → Prop
  | .lock, slot => ∀ active, slot = some active → K active
  | _, _ => True

/-- A transfer put into the slot is one of `K`. -/
def Returns (K : ActiveTransfer → Prop) : ServerOp → Prop
  | .unlock t => ∀ active, t = some active → K active
  | _ => True

/-- The store is one for a file of this size in chunks of this size. -/
def Sized (totalSize chunkSize : Nat) (s : Store) : Prop :=
  s.state.totalSize = totalSize ∧ s.state.chunkSize = chunkSize

section slot

variable {X : Externals} {cfg : ServerCfg} {key : Key} {K : ActiveTransfer → Prop} {α : Type}

theorem given_onDisk {Q : α → Prop} {p : Prog fsEffects Fault α}
    (h : Given (fun _ _ => True) (fun _ => True) Q p) : Given (Granted K) (Returns K) Q (onDisk p) := by
  induction p with
  | ret a => exact h
  | fail e => trivial
  | step o k ih => exact ⟨trivial, fun r _ => ih r (h.2 r trivial)⟩

theorem given_serverOnDisk {Q : α → Prop} {p : FsProg α}
    (h : Given (fun _ _ => True) (fun _ => True) Q p) :
    Given (Granted K) (Returns K) Q (Server.onDisk p) := by
  induction p with
  | ret a => exact h
  | fail e => trivial
  | step o k ih => exact ⟨trivial, fun r _ => ih r (h.2 r trivial)⟩

theorem given_unwinding {Q : α → Prop} {t : Option ActiveTransfer} {p : Prog serverEffects Fault α}
    (ht : ∀ active, t = some active → K active) (h : Given (Granted K) (Returns K) Q p) :
    Given (Granted K) (Returns K) Q (unwinding t p) := by
  induction p with
  | ret a => exact h
  | fail e =>
      cases e with
      | err e => trivial
      | panic msg => exact ⟨ht, fun _ _ => trivial⟩
  | step o k ih => exact ⟨h.1, fun r hr => ih r (h.2 r hr)⟩

theorem given_openOrCreate (name transferId : String) (totalSize chunkSize : Nat) :
    Given (fun _ _ => True) (fun _ => True) (Sized totalSize chunkSize)
      (Store.openOrCreate X name transferId totalSize chunkSize) := by
  have hload : ∀ bytes, (Store.loadState X bytes transferId totalSize chunkSize).totalSize = totalSize ∧
      (Store.loadState X bytes transferId totalSize chunkSize).chunkSize = chunkSize := by
    intro bytes
    unfold Store.loadState
    split
    · split
      · split
        · next hs => exact hs.2
        · exact ⟨rfl, rfl⟩
      · exact ⟨rfl, rfl⟩
    · exact ⟨rfl, rfl⟩
  refine .op trivial fun _ _ => .ofExcept fun _ _ => .op trivial fun bytes _ => .op trivial
    fun _ _ => .ofExcept fun _ _ => .op trivial fun _ _ => .ofExcept fun _ _ => ?_
  apply (given_true _).bind
  intro _ _
  exact hload bytes

theorem given_writeChunk (s : Store) (index : Nat) (plaintext : Bytes) :
    Given (fun _ _ => True) (fun _ => True) (fun r => Sized s.state.totalSize s.state.chunkSize r.2)
      (writeChunk X s index plaintext) := by
  unfold writeChunk
  refine .ofExcept fun total _ => ?_
  split
  · exact ⟨rfl, rfl⟩
  refine .ofExcept fun expected _ => ?_
  split
  · exact ⟨rfl, rfl⟩
  refine .ofExcept fun off _ => .op trivial fun r _ => ?_
  cases r with
  | error e => exact ⟨rfl, rfl⟩
  | ok u =>
      apply (given_true _).bind
      intro _ _
      exact ⟨rfl, rfl⟩

theorem given_decide (m : Manifest) (destExists : Bool) :
    Given (Granted K) (Returns K) (fun _ => True) (decide_ cfg m destExists) := by
  unfold decide_
  split
  · trivial
  · exact .op trivial fun _ _ => trivial

theorem given_handleManifest {body : Bytes} (hopened : ∀ m, openJson X key X.manifestJson .manifest [] body
      = some m → m.kind ≠ .text → ∀ store, Sized m.totalSize m.chunkSize store → K ⟨m, store⟩) :
    Given (Granted K) (Returns K) (fun _ => True) (handleManifest X cfg key body) := by
  unfold handleManifest
  split
  · trivial
  next manifest hopen =>
  split
  · trivial
  -- a store that is opened has the sizes of the manifest
  have haccept : Given (Granted K) (Returns K) (fun _ => True)
      (acceptManifest X manifest (safeName manifest.name)) := by
    unfold acceptManifest
    split
    · exact ⟨trivial, fun _ _ => ⟨trivial, fun _ _ => ⟨trivial, fun _ _ => trivial⟩⟩⟩
    · next hkind =>
        apply (given_serverOnDisk (given_openOrCreate _ _ _ _)).attempt.bind
        intro r hr
        cases r with
        | error e => exact ⟨trivial, fun _ _ => trivial⟩
        | ok store =>
            refine ⟨trivial, fun _ _ => ⟨trivial, fun _ _ => ⟨?_, fun _ _ => trivial⟩⟩⟩
            rintro _ ⟨⟩
            exact hopened manifest hopen hkind store (hr store rfl)
  refine .op trivial fun destExists _ => ?_
  apply (given_decide manifest destExists).bind
  intro r _
  rcases r with _ | _ | _
  · trivial
  · trivial
  · exact haccept

/-- **Every handler leaves a transfer of `K` in the slot**, or none. -/
theorem given_handler (hK : ∀ active store, K active →
      Sized active.store.state.totalSize active.store.state.chunkSize store → K { active with store })
    (req : Request) (hopened : req.endpoint = .manifest → ∀ m,
      openJson X key X.manifestJson .manifest [] req.body = some m → m.kind ≠ .text →
      ∀ store, Sized m.totalSize m.chunkSize store → K ⟨m, store⟩) :
    Given (Granted K) (Returns K) (fun _ => True) (handler X cfg key req) := by
  unfold handler
  split
  -- a commit that is run leaves nothing in the slot
  · next hreq => exact (given_handleManifest (hopened hreq)).mapError
  -- a chunk puts back what it took out, with its store
  · next index hreq =>
      refine .op trivial fun slot hslot => ?_
      cases slot with
      | none => exact ⟨nofun, fun _ _ => trivial⟩
      | some active =>
          have hactive := hslot active rfl
          dsimp only
          split
          · exact ⟨hslot, fun _ _ => trivial⟩
          · apply (given_unwinding hslot (given_onDisk (given_writeChunk _ _ _))).bind
            rintro ⟨r, store⟩ hr
            have hnew : ∀ active', some { active with store } = some active' → K active' := by
              rintro _ ⟨⟩
              exact hK active store hactive hr
            cases r with
            | ok u => exact ⟨trivial, fun _ _ => ⟨hnew, fun _ _ => trivial⟩⟩
            | error e => exact ⟨hnew, fun _ _ => trivial⟩
  · refine ⟨trivial, fun slot hslot => ⟨hslot, fun _ _ => ?_⟩⟩
    cases slot with
    | none => trivial
    | some active => trivial
  · next hreq =>
      refine .op trivial fun slot hslot => ?_
      cases slot with
      | none => exact ⟨nofun, fun _ _ => trivial⟩
      | some active =>
          dsimp only
          split
          · exact ⟨hslot, fun _ _ => trivial⟩
          · apply (given_unwinding nofun (given_onDisk (given_true _))).bind
            intro r _
            cases r with
            | ok desc =>
                exact ⟨trivial, fun _ _ => ⟨trivial, fun _ _ => ⟨nofun, fun _ _ => trivial⟩⟩⟩
            | error e => exact ⟨trivial, fun _ _ => ⟨nofun, fun _ _ => trivial⟩⟩

end slot

/-! ## Runs -/

/-- A request, and what the user says if asked. -/
structure Call where
  req : Request
  answer : Option Bool

section runs

variable (X : Externals) (cfg : ServerCfg) (key : Key) (token : String)

/-- The numbers of a request are of type `u64`. -/
def Typed (c : Call) : Prop :=
  (∀ index, c.req.endpoint = .chunk index → index < 2 ^ 64) ∧
  (c.req.endpoint = .manifest → ∀ m, openJson X key X.manifestJson .manifest [] c.req.body = some m →
    m.totalSize < 2 ^ 64 ∧ m.chunkSize < 2 ^ 64)

/-- A request for the active transfer: a chunk, the status or the commit. -/
def Later (c : Call) : Prop := Typed X key c ∧ c.req.endpoint ≠ .manifest

/-- The server after some requests, of which some may have panicked. -/
inductive Reachable : App → Prop where
  | start (disk : Fs) : Reachable ⟨none, disk, 0, false, []⟩
  | serve {app : App} (h : Reachable app) (c : Call) (hc : Typed X key c) :
      Reachable (serve X cfg key token c.answer c.req app).2

/-- No request of `cs` panics. So none divides by zero, leaves the range of `u64` or reaches
`unreachable!`, and none leaves the slot emptied by a panic. -/
def Unharmed (app : App) : List Call → Prop
  | [] => True
  | c :: cs => (serve X cfg key token c.answer c.req app).1.isSome ∧
      Unharmed (serve X cfg key token c.answer c.req app).2 cs

/-- The response of `handle_manifest` that takes the transfer. -/
def Accepted (r : Option Response) : Prop :=
  ∃ complete haves, r = some ⟨200, X.manifestAckJson.toVec ⟨true, complete, haves⟩⟩

/-- What holds of a transfer in the slot at any time. -/
structure Kept (active : ActiveTransfer) : Prop where
  kind : active.manifest.kind ≠ .text
  totalSize : active.store.state.totalSize < 2 ^ 64
  chunkSize : active.store.state.chunkSize = active.manifest.chunkSize

end runs

section results

variable {X : Externals} {cfg : ServerCfg} {key : Key} {token : String} {app : App}
  {K : ActiveTransfer → Prop}

/-- The slot holds a transfer of `K`, or none. -/
def Holds (K : ActiveTransfer → Prop) (app : App) : Prop := ∀ active, app.transfer = some active → K active

theorem Holds.eval {α ε : Type} (h : Holds K app) (answer : Option Bool) {p : Prog serverEffects ε α}
    {Q : α → Prop} (hp : Given (Granted K) (Returns K) Q p) :
    Holds K (p.eval (App.handle X answer) app).2 := by
  refine (hp.eval (I := Holds K) ?_ ?_ h).1
  · intro o app happ
    cases o with
    | lock => exact happ
    | _ => trivial
  · intro o app happ ho
    cases o with
    | unlock t => exact ho
    | _ => exact happ

theorem Holds.serve (h : Holds K app) (hK : ∀ active store, K active →
      Sized active.store.state.totalSize active.store.state.chunkSize store → K { active with store })
    (c : Call) (hopened : c.req.endpoint = .manifest → ∀ m,
      openJson X key X.manifestJson .manifest [] c.req.body = some m → m.kind ≠ .text →
      ∀ store, Sized m.totalSize m.chunkSize store → K ⟨m, store⟩) :
    Holds K (serve X cfg key token c.answer c.req app).2 := by
  have heval := h.eval (X := X) c.answer (given_handler hK c.req hopened : Given _ _ _
    (handler X cfg key c.req))
  unfold Checked.serve
  split
  -- without the token, or too long: the slot is not touched
  · next hrefused =>
      rw [App.serve]
      split
      · dsimp only
        split
        · exact h
        · exact h
      · next htoken =>
          rw [if_pos (hrefused.resolve_left htoken)]
          exact h
  · generalize (handler X cfg key c.req).eval (App.handle X c.answer) app = res at heval ⊢
    obtain ⟨r | r, app'⟩ := res
    · cases r with
      | err e => exact heval
      | panic msg => exact heval
    · exact heval

theorem Kept.resized {active : ActiveTransfer} (h : Kept active) {store : Store}
    (hs : Sized active.store.state.totalSize active.store.state.chunkSize store) :
    Kept { active with store } where
  kind := h.kind
  totalSize := hs.1 ▸ h.totalSize
  chunkSize := hs.2.trans h.chunkSize

theorem Sound.resized {active : ActiveTransfer} (h : Sound active) {store : Store}
    (hs : Sized active.store.state.totalSize active.store.state.chunkSize store) :
    Sound { active with store } where
  kind := h.kind
  totalSize := hs.1 ▸ h.totalSize
  chunkSize := hs.2 ▸ h.chunkSize

theorem Reachable.kept (h : Reachable X cfg key token app) : Holds Kept app := by
  induction h with
  | start disk => exact nofun
  | serve _ c hc ih =>
      refine ih.serve (fun _ _ hk hs => hk.resized hs) c ?_
      intro hreq m hopen hkind store hs
      exact ⟨hkind, hs.1 ▸ (hc.2 hreq m hopen).1, hs.2⟩

/-- The first chunk of a transfer, with nothing in it. -/
def firstChunk (X : Externals) (key : Key) (token : String) (active : ActiveTransfer) : Call where
  req := ⟨.chunk 0, token, X.cipher.seal_ key .data 0 (asBytes active.manifest.transferId) []⟩
  answer := none

/-- A commit of the transfer. -/
def someCommit (X : Externals) (key : Key) (token : String) (active : ActiveTransfer) : Call where
  req := ⟨.commit, token,
    X.cipher.seal_ key .commit 0 (asBytes active.manifest.transferId) (X.commitJson.toVec ⟨""⟩)⟩
  answer := none

/-- With a chunk size of zero `write_chunk` divides by zero. -/
theorem serve_firstChunk {active : ActiveTransfer} (hactive : app.transfer = some active)
    (hzero : active.store.state.chunkSize = 0) :
    serve X cfg key token none (firstChunk X key token active).req app = (none, app) := by
  have hlock : App.handle X none .lock app = (some active, app) := by rw [← hactive]; rfl
  have hpanic : writeChunk X active.store 0 [] = .fail (.panic "attempt to divide by zero") := by
    rw [writeChunk, totalChunks, divCeilOrPanic, if_pos hzero]
    rfl
  have heval : (handler X cfg key (firstChunk X key token active).req).eval (App.handle X none) app
      = (.error (.panic "attempt to divide by zero"), { app with transfer := some active }) := by
    refine (eval_step_eq _ hlock).trans ?_
    dsimp only [Prog.bind]
    rw [firstChunk, Cipher.open_seal_]
    dsimp only
    rw [hpanic]
    rfl
  have hpasses : ¬ (X.blake3 (asBytes (firstChunk X key token active).req.token) ≠ X.blake3 (asBytes token) ∨
      TooLarge (firstChunk X key token active).req) :=
    not_or.mpr ⟨not_not.mpr rfl, Tunnel.not_tooLarge_chunk (Nat.zero_le _)⟩
  rw [serve, if_neg hpasses, heval, ← hactive]

/-- So does `is_complete`, when the transfer has been taken out of the slot. -/
theorem serve_someCommit {active : ActiveTransfer} (hactive : app.transfer = some active)
    (hzero : active.store.state.chunkSize = 0) (hfits : ¬ TooLarge (someCommit X key token active).req) :
    serve X cfg key token none (someCommit X key token active).req app
      = (none, { app with transfer := none }) := by
  have hlock : App.handle X none .lock app = (some active, app) := by rw [← hactive]; rfl
  have hpanic : ∀ commit, finalize X cfg active commit = .fail (.panic "attempt to divide by zero") := by
    intro commit
    rw [finalize, isComplete, totalChunks, divCeilOrPanic, if_pos hzero]
    rfl
  have heval : (handler X cfg key (someCommit X key token active).req).eval (App.handle X none) app
      = (.error (.panic "attempt to divide by zero"), { app with transfer := none }) := by
    refine (eval_step_eq _ hlock).trans ?_
    dsimp only [Prog.bind]
    rw [someCommit, openJson, Cipher.open_seal_, Option.bind_some, Codec.fromSlice_toVec]
    dsimp only
    rw [hpanic]
    rfl
  have hpasses : ¬ (X.blake3 (asBytes (someCommit X key token active).req.token) ≠ X.blake3 (asBytes token) ∨
      TooLarge (someCommit X key token active).req) :=
    not_or.mpr ⟨not_not.mpr rfl, hfits⟩
  rw [serve, if_neg hpasses, heval]

theorem later_firstChunk (active : ActiveTransfer) : Later X key (firstChunk X key token active) := by
  refine ⟨⟨?_, nofun⟩, nofun⟩
  rintro _ ⟨⟩
  decide

/-- On a sound transfer no later request panics. -/
theorem unharmed_of_sound (h : Holds Sound app) {cs : List Call} (hcs : ∀ c ∈ cs, Later X key c) :
    Unharmed X cfg key token app cs := by
  induction cs generalizing app with
  | nil => trivial
  | cons c cs ih =>
      refine ⟨?_, ih ?_ fun c hc => hcs c (List.mem_cons_of_mem _ hc)⟩
      · rw [serve_eq h]
        rfl
      · apply h.serve
        · exact fun _ _ hk hs => hk.resized hs
        · intro hreq
          exact absurd hreq (hcs c List.mem_cons_self).2

/-- **Requests for the active transfer never panic if and only if its chunk size is not zero.** -/
theorem unharmed_iff (h : Holds Kept app) :
    (∀ cs, (∀ c ∈ cs, Later X key c) → Unharmed X cfg key token app cs) ↔
      ∀ active, app.transfer = some active → active.manifest.chunkSize ≠ 0 := by
  constructor
  · intro hall active hactive hzero
    have hkept := h active hactive
    have hpanic : serve X cfg key token none (firstChunk X key token active).req app = (none, app) :=
      serve_firstChunk hactive (hkept.chunkSize.trans hzero)
    have hone := (hall [firstChunk X key token active] ?_).1
    · rw [show (firstChunk X key token active).answer = none from rfl, hpanic] at hone
      cases hone
    · intro c hc
      rw [List.mem_singleton.mp hc]
      exact later_firstChunk active
  · intro hne cs hcs
    apply unharmed_of_sound ?_ hcs
    intro active hactive
    have hkept := h active hactive
    exact ⟨hkept.kind, hkept.chunkSize ▸ hne active hactive, hkept.totalSize⟩

/-! ## An accepted manifest -/

theorem eval_decide (answer : Option Bool) (app : App) (m : Manifest) (destExists : Bool) :
    ∃ d, (decide_ cfg m destExists).eval (App.handle X answer) app = (.ok d, app) := by
  rw [decide_]
  split
  · exact ⟨_, rfl⟩
  · exact ⟨_, rfl⟩

theorem manifestAck_ne {ack ack' : ManifestAck} (h : ack.accepted ≠ ack'.accepted) :
    (⟨200, X.manifestAckJson.toVec ack⟩ : Response) ≠ ⟨200, X.manifestAckJson.toVec ack'⟩ := by
  intro heq
  exact h (congrArg ManifestAck.accepted (X.manifestAckJson.toVec_injective (congrArg Response.body heq)))

/-- What is in the slot once a manifest is accepted: the transfer it offers, unless that is a text. -/
theorem eval_accepted {answer : Option Bool} {m : Manifest} {body : Bytes}
    (hopen : openJson X key X.manifestJson .manifest [] body = some m) {r : Response} {app' : App}
    (heval : (handleManifest X cfg key body).eval (App.handle X answer) app = (.ok r, app'))
    {complete : Bool} {haves : List Nat} (hr : r = ⟨200, X.manifestAckJson.toVec ⟨true, complete, haves⟩⟩) :
    if m.kind = .text then app'.transfer = app.transfer
    else ∃ store, app'.transfer = some ⟨m, store⟩ := by
  rw [handleManifest, hopen] at heval
  dsimp only at heval
  split at heval
  · cases heval
    exact absurd hr (manifestAck_ne (by simp))
  obtain ⟨d, hd⟩ := eval_decide (X := X) answer app m
    (App.handle X answer (.fs (.pathExists (.out (safeName m.name)))) app).1
  replace heval : ((decide_ cfg m _ >>= _).eval (App.handle X answer) app) = _ := heval
  rw [eval_bind_ok _ hd] at heval
  -- refused with a status, declined, or accepted
  rcases d with _ | _ | _
  · cases heval
    cases hr
  · cases heval
    exact absurd hr (manifestAck_ne (by simp))
  · dsimp only at heval
    rw [acceptManifest] at heval
    split at heval
    · next hkind =>
        cases heval
        rw [if_pos hkind]
        rfl
    · next hkind =>
        rw [if_neg hkind]
        rw [eval_bind, eval_attempt] at heval
        dsimp only at heval
        split at heval
        · cases heval
          cases hr
        · next store _ =>
            cases heval
            exact ⟨store, rfl⟩

/-- What does not get past the token and the limit is answered 401 or 413. -/
theorem status_of_refused {answer : Option Bool} {req : Request}
    (h : X.blake3 (asBytes req.token) ≠ X.blake3 (asBytes token) ∨ TooLarge req) :
    (App.serve X cfg key token answer req app).1.status ≠ 200 := by
  have h401 : (401 : Nat) ≠ 200 := by decide
  have h413 : (413 : Nat) ≠ 200 := by decide
  rw [App.serve]
  split
  · dsimp only
    split
    · exact h401
    · exact h401
  · next htoken =>
      rw [if_pos (h.resolve_left htoken)]
      exact h413

/-- **An accepted manifest never makes a later request panic if and only if** it offers something in
chunks of more than zero bytes, or a text while no transfer in chunks of zero bytes is active. -/
theorem accepted_unharmed_iff (hr : Reachable X cfg key token app) {c : Call} (hc : Typed X key c)
    (hreq : c.req.endpoint = .manifest) {m : Manifest}
    (hopen : openJson X key X.manifestJson .manifest [] c.req.body = some m)
    (hacc : Accepted X (serve X cfg key token c.answer c.req app).1) :
    (∀ cs, (∀ c' ∈ cs, Later X key c') →
      Unharmed X cfg key token (serve X cfg key token c.answer c.req app).2 cs) ↔
    if m.kind = .text then ∀ active, app.transfer = some active → active.manifest.chunkSize ≠ 0
    else m.chunkSize ≠ 0 := by
  rw [unharmed_iff (hr.serve c hc).kept]
  obtain ⟨complete, haves, hresp⟩ := hacc
  unfold serve at hresp ⊢
  split at hresp
  · next hrefused =>
      exact absurd (congrArg Response.status (Option.some.inj hresp)) (status_of_refused hrefused)
  next hpasses =>
  rw [if_neg hpasses]
  have hhandler : handler X cfg key c.req = (handleManifest X cfg key c.req.body).mapError .err := by
    rw [handler, hreq]
  rw [hhandler, eval_mapError] at hresp ⊢
  generalize heval : (handleManifest X cfg key c.req.body).eval (App.handle X c.answer) app = res
    at hresp ⊢
  obtain ⟨r | r, app'⟩ := res
  · cases hresp
  -- what the offer leaves in the slot
  · have hslot := eval_accepted hopen heval (Option.some.inj hresp)
    show (∀ active, app'.transfer = some active → _) ↔ _
    split
    · next hkind =>
        rw [if_pos hkind] at hslot
        rw [hslot]
    · next hkind =>
        rw [if_neg hkind] at hslot
        obtain ⟨store, hslot⟩ := hslot
        rw [hslot]
        constructor
        · exact fun hall => hall _ rfl
        · rintro hne _ ⟨⟩
          exact hne

end results

/-! ## A chunk size of zero -/

/-- A server that takes everything. -/
def willing : ServerCfg := ⟨"out", true, true⟩

/-- One byte in chunks of `chunkSize`. -/
def oneByte (chunkSize : Nat) : Manifest := ⟨PROTOCOL_VERSION, "t", .file, "a", [], 1, chunkSize, none⟩

/-- Libraries that write two such manifests, and a commit, in a few bytes. -/
def someWorld : Externals :=
  { Externals.ideal fun _ => "" with
    manifestJson := .brief (oneByte 0) (.brief (oneByte 1) (.unary _))
    commitJson := .brief ⟨""⟩ (.unary _) }

def offer (m : Manifest) : Call :=
  ⟨⟨.manifest, "token", someWorld.cipher.seal_ [] .manifest 0 [] (someWorld.manifestJson.toVec m)⟩, none⟩

def fresh : App := ⟨none, .blank, 0, false, []⟩

/-- The server after the offer. -/
def offered (chunkSize : Nat) : Option Response × App :=
  serve someWorld willing [] "token" none (offer (oneByte chunkSize)).req fresh

theorem openJson_offer (m : Manifest) :
    openJson someWorld [] someWorld.manifestJson .manifest [] (offer m).req.body = some m := by
  rw [offer, openJson, Cipher.open_seal_, Option.bind_some, Codec.fromSlice_toVec]

theorem typed_offer {chunkSize : Nat} (h : chunkSize < 2 ^ 64) :
    Typed someWorld [] (offer (oneByte chunkSize)) := by
  refine ⟨nofun, fun _ m hm => ?_⟩
  rw [openJson_offer] at hm
  cases hm
  exact ⟨show 1 < 2 ^ 64 by decide, h⟩

theorem not_tooLarge_offer {chunkSize : Nat} (h : chunkSize ≤ 1) :
    ¬ TooLarge (offer (oneByte chunkSize)).req := by
  refine Tunnel.not_tooLarge_sealed ?_
  rcases Nat.le_one_iff_eq_zero_or_eq_one.mp h with rfl | rfl
  · decide
  · decide

theorem accepted_offer {chunkSize : Nat} (h : chunkSize ≤ 1) : Accepted someWorld (offered chunkSize).1 ∧
    ∃ store, (offered chunkSize).2.transfer = some ⟨oneByte chunkSize, store⟩ := by
  have hwf : fresh.disk.Wf := Fs.blank_wf
  have haccepting : (⟨⟨"", "token"⟩, [], willing, none⟩ : Tunnel.Link).Accepting := rfl
  obtain ⟨_, fs', heval, -⟩ := Store.eval_openOrCreate someWorld hwf
    (Fs.blank_clear (Stream.safeName "a")).makes "t" 1 chunkSize
  obtain ⟨app', hserve, htransfer, -⟩ := Tunnel.serve_manifest someWorld haccepting (m := oneByte chunkSize)
    rfl nofun heval (not_tooLarge_offer h)
  replace hserve : App.serve someWorld willing [] "token" none (offer (oneByte chunkSize)).req fresh = _ :=
    hserve
  have hempty : ∀ active, fresh.transfer = some active → Sound active := by
    rintro _ ⟨⟩
  have hoffered : offered chunkSize = _ := serve_eq hempty "token" (offer (oneByte chunkSize)).req
  rw [hoffered, hserve]
  exact ⟨⟨_, _, rfl⟩, _, htransfer⟩

/-- In chunks of one byte nothing panics. -/
theorem accepted_unharmed_iff_oneByte :
    (∀ cs, (∀ c ∈ cs, Later someWorld [] c) → Unharmed someWorld willing [] "token" (offered 1).2 cs) ↔
      (oneByte 1).chunkSize ≠ 0 :=
  accepted_unharmed_iff (.start .blank) (typed_offer (by decide)) rfl (openJson_offer _)
    (accepted_offer (by decide)).1

/-- **An accepted manifest with a chunk size of zero**: the first chunk panics, and so does a commit,
which leaves the slot empty. -/
theorem zero_chunk_panics : Accepted someWorld (offered 0).1 ∧ ∃ active,
    (offered 0).2.transfer = some active ∧
    (serve someWorld willing [] "token" none (firstChunk someWorld [] "token" active).req
      (offered 0).2).1 = none ∧
    (serve someWorld willing [] "token" none (someCommit someWorld [] "token" active).req
      (offered 0).2) = (none, { (offered 0).2 with transfer := none }) := by
  obtain ⟨hacc, store, htransfer⟩ := accepted_offer (Nat.zero_le 1)
  have hr : Reachable someWorld willing [] "token" (offered 0).2 :=
    .serve (.start .blank) (offer (oneByte 0)) (typed_offer (by decide))
  have hkept := hr.kept _ htransfer
  refine ⟨hacc, _, htransfer, ?_, ?_⟩
  · rw [serve_firstChunk htransfer hkept.chunkSize]
  · exact serve_someCommit htransfer hkept.chunkSize (Tunnel.not_tooLarge_sealed (by decide))

end Checked

end Server
end B2p
