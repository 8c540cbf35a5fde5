import B2p.Stream

/-!
# The tunnel's sender (`send.rs`)

One call of `send`: the manifest, the missing chunks, four at a time, and the commit, each an HTTP
request. The uploads are futures of their own, so a call is a family of threads: `main`, and one
thread per chunk. `Scheduled` says how `try_for_each_concurrent` lets them run. Progress bars, time and
the diagnostics printed after a failed first request are left out.
-/

namespace B2p

open Interaction Prog

/-! ## Requests -/

inductive Endpoint where
  | manifest
  | chunk (index : Nat)
  | status
  | commit
  deriving DecidableEq

structure Request where
  endpoint : Endpoint
  /-- The bearer token. -/
  token : String
  body : Bytes
  deriving DecidableEq

structure Response where
  status : Nat
  body : Bytes
  deriving DecidableEq

/-- `StatusCode::is_success`. -/
def Response.isSuccess (r : Response) : Bool := decide (200 ≤ r.status ∧ r.status < 300)

/-! ## Operations -/

/-- What a thread of `send` does. -/
inductive SendOp where
  /-- `build_client`. -/
  | buildClient
  /-- `crypto::seal` under the data key. -/
  | seal_ (domain : Domain) (index : Nat) (aad plaintext : Bytes)
  /-- Seek in the source file and read exactly so many bytes. -/
  | readAt (off len : Nat)
  /-- Read the source file to its end. -/
  | readAll
  /-- A request, answered by a response or by the rendered error chain. -/
  | http (req : Request)
  /-- Upload these chunks, `PARALLEL_UPLOADS` at a time, until all are there or one has failed. -/
  | uploads (chunks : List Nat)
  deriving DecidableEq

@[reducible] def SendOp.Res : SendOp → Type
  | .buildClient => Except Anyhow Unit
  | .seal_ _ _ _ _ => Bytes
  | .readAt _ _ => Except IoError Bytes
  | .readAll => Except IoError Bytes
  | .http _ => Except String Response
  | .uploads _ => Except Anyhow Unit

abbrev sendEffects : Effects := ⟨SendOp, SendOp.Res⟩

abbrev SendProg := Prog sendEffects Anyhow

abbrev SendAction := Action sendEffects

namespace Tunnel

abbrev op (o : SendOp) : SendProg o.Res := .step o .ret

def PARALLEL_UPLOADS : Nat := 4

def CHUNK_ATTEMPTS : Nat := 5

/-- `build_manifest`. -/
def buildManifest : Source → Manifest
  | .blob kind _ name entries totalSize transferId =>
      { version := PROTOCOL_VERSION
        transferId := transferId
        kind := kind
        name := name
        entries := entries
        totalSize := totalSize
        chunkSize := CHUNK_SIZE
        text := none }
  | .text content transferId =>
      { version := PROTOCOL_VERSION
        transferId := transferId
        kind := .text
        name := ""
        entries := []
        totalSize := content.utf8ByteSize
        chunkSize := CHUNK_SIZE
        text := some content }

/-! ## Failures of the first request -/

inductive FailLayer where
  | dns
  | tls
  | connect
  | other
  deriving DecidableEq, Repr

/-- `str::contains`. -/
def containsStr (t pat : String) : Bool := decide (pat.toList <:+: t.toList)

/-- `classify_error_text`. -/
def classifyErrorText (chain : String) : FailLayer :=
  let t := chain.toLower
  if ["dns error", "failed to lookup address", "name or service not known", "nodename nor servname",
      "no such host"].any (containsStr t) then .dns
  else if ["certificate", "unknownissuer", "handshake", "tls"].any (containsStr t) then .tls
  else if ["connect", "timed out", "timeout", "reset", "refused"].any (containsStr t) then .connect
  else .other

def FailLayer.name : FailLayer → String
  | .dns => "DNS"
  | .tls => "TLS"
  | .connect => "transport"
  | .other => "transport"

/-- `failure_summary`. -/
def failureSummary (name host : String) (ranDoctor : Bool) : String :=
  if ranDoctor then name ++ " failure reaching " ++ host ++ " — see diagnostics above"
  else name ++ " failure reaching " ++ host

/-- `connect_failure`. -/
def connectFailure (host chain : String) : Anyhow :=
  let layer := classifyErrorText chain
  .msg (failureSummary layer.name host (decide (layer ≠ .other)))

/-! ## The threads -/

/-- A code as `send` uses it: the host and the token its secret gives. -/
structure Target where
  host : String
  token : String

section

variable (X : Externals) (target : Target)

/-- `read_chunk`. -/
def readChunk (index chunkSize totalSize : Nat) : SendProg Bytes := do
  let r ← op (.readAt (index * chunkSize) (min chunkSize (totalSize - index * chunkSize)))
  ofExcept (r.mapError Anyhow.io)

/-- `blake3_file`. -/
def blake3File : SendProg String := do
  let r ← op .readAll
  let bytes ← (ofExcept (r.mapError Anyhow.io) : SendProg Bytes)
  return X.blake3 bytes

/-- `upload_with_retry`, with the number of attempts left. -/
def uploadWithRetry (index : Nat) (body : Bytes) : Nat → SendProg Unit
  | 0 => .fail (.msg "internal error: entered unreachable code")
  | left + 1 => do
      match ← op (.http ⟨.chunk index, target.token, body⟩) with
      | .ok r =>
          if r.isSuccess then return ()
          else if r.status = 401 then .fail (.msg "auth rejected (HTTP 401) mid-transfer")
          else if left = 0 then
            .fail (.msg (s!"chunk {index}: HTTP " ++ X.statusText r.status ++
              s!" after {CHUNK_ATTEMPTS} attempts"))
          else uploadWithRetry index body left
      | .error e =>
          if left = 0 then
            .fail (.context s!"chunk {index} failed after {CHUNK_ATTEMPTS} attempts" (.msg e))
          else uploadWithRetry index body left

/-- The body of the upload loop. -/
def uploadChunk (totalSize : Nat) (tid : String) (index : Nat) : SendProg Unit := do
  let plain ← readChunk index CHUNK_SIZE totalSize
  let ct ← op (.seal_ .data index (asBytes tid) plain)
  uploadWithRetry X target index ct CHUNK_ATTEMPTS

/-- `resp.json()`. -/
def json {T : Type} (c : Codec T) (r : Response) : Except Anyhow T :=
  match c.fromSlice r.body with
  | some v => .ok v
  | none => .error (.msg "error decoding response body")

/-- The chunks of a manifest that are not in a list. -/
def missing (manifest : Manifest) (haves : List Nat) : List Nat :=
  (List.range manifest.totalChunks).filter fun i => decide (i ∉ haves)

/-- `send` from the upload loop on. -/
def sendBlob (manifest : Manifest) (haves : List Nat) (tid : String) : SendProg String := do
  let r ← op (.uploads (missing manifest haves))
  (ofExcept (r.mapError (.context ("upload failed after retries — re-run the same command to " ++
    "resume, or run `b2p doctor` if it keeps failing"))) : SendProg Unit)
  let hash ← blake3File X
  let body ← op (.seal_ .commit 0 (asBytes tid) (X.commitJson.toVec ⟨hash⟩))
  let resp ← op (.http ⟨.commit, target.token, body⟩)
  let resp ← (ofExcept (resp.mapError Anyhow.msg) : SendProg Response)
  let ack ← (ofExcept (json X.commitAckJson resp) : SendProg CommitAck)
  if ack.ok = false then .fail (.msg ("receiver failed to finalize: " ++ ack.error.getD ""))
  else return "transfer complete"

/-- The reply to the manifest, as far as `send` goes on. -/
def readAck (resp : Except String Response) : Except Anyhow ManifestAck :=
  match resp with
  | .error chain => .error (connectFailure target.host chain)
  | .ok resp =>
      if resp.status = 401 then
        .error (.msg "auth rejected (HTTP 401) — the code is wrong or expired")
      else if resp.isSuccess = false then
        .error (.msg ("manifest rejected: HTTP " ++ X.statusText resp.status))
      else (json X.manifestAckJson resp).mapError (.context "invalid manifest response")

/-- `send`, its main thread. -/
def send (source : Source) : SendProg String := do
  let client ← op .buildClient
  ofExcept client
  let manifest := buildManifest source
  let body ← op (.seal_ .manifest 0 [] (X.manifestJson.toVec manifest))
  let resp ← op (.http ⟨.manifest, target.token, body⟩)
  let ack ← (ofExcept (readAck X target resp) : SendProg ManifestAck)
  if ack.accepted = false then
    .fail (.msg "receiver declined the transfer (or protocol version mismatch)")
  else if ack.complete then return "text delivered"
  else match source with
    | .blob _ _ _ _ _ transferId => sendBlob X target manifest ack.haves transferId
    | .text _ _ =>
        .fail (.msg "internal error: entered unreachable code: text completes at manifest time")

/-! ## Concurrency -/

inductive Thread where
  | main
  | upload (index : Nat)
  deriving DecidableEq

@[reducible] def Thread.Out : Thread → Type
  | .main => String
  | .upload _ => Unit

/-- The chunk threads of a source; a text has none. -/
def uploadOf (source : Source) (index : Nat) : SendProg Unit :=
  match source with
  | .blob _ _ _ _ totalSize transferId => uploadChunk X target totalSize transferId index
  | .text _ _ => .fail (.msg "internal error: entered unreachable code")

/-- All threads of one call. -/
def threads (source : Source) : (t : Thread) → SendProg t.Out
  | .main => send X target source
  | .upload i => uploadOf X target source i

/-- `main` is waiting for the uploads of `chunks`. -/
def Waits (source : Source) (log : List (Thread × SendAction)) (chunks : List Nat) : Prop :=
  ∃ k, Follows (send X target source) (own .main log) (.step (.uploads chunks) k)

/-- The upload of chunk `i` has begun, and has not ended. -/
def Running (source : Source) (log : List (Thread × SendAction)) (i : Nat) : Prop :=
  own (.upload i) log ≠ [] ∧
    ∃ o k, Follows (uploadOf X target source i) (own (.upload i) log) (.step o k)

/-- `try_for_each_concurrent`: while `main` waits for some chunks, their threads run, begun in order,
at most `PARALLEL_UPLOADS` of them at a time; the wait is over when all have ended well or one has not. -/
def Scheduled (source : Source) (log : List (Thread × SendAction)) : Thread × SendAction → Prop
  | (.main, ⟨.uploads chunks, .ok _⟩) =>
      ∀ i ∈ chunks, Follows (uploadOf X target source i) (own (.upload i) log) (.ret ())
  | (.main, ⟨.uploads chunks, .error e⟩) =>
      ∃ i ∈ chunks, Follows (uploadOf X target source i) (own (.upload i) log) (.fail e)
  | (.main, _) => True
  | (.upload i, _) => ∃ chunks, Waits X target source log chunks ∧ i ∈ chunks ∧
      (∀ j ∈ chunks, ∀ e, ¬ Follows (uploadOf X target source j) (own (.upload j) log) (.fail e)) ∧
      (own (.upload i) log = [] →
        (∀ before later, chunks = before ++ i :: later → ∀ j ∈ before, own (.upload j) log ≠ []) ∧
        ∀ running : List Nat, running.Nodup → (∀ j ∈ running, Running X target source log j) →
          running.length < PARALLEL_UPLOADS)

end

end Tunnel
end B2p
