import B2p.Store
import B2p.Lib.Duplex

/-!
# The stream protocol (`stream.rs`)

One transfer over an ordered message channel: the manifest, the reply with what is staged already,
the missing chunks, the commit and its reply. `sendSource` and `recvInto` are programs over the
channel and the local operations of `HostOp`; sealing is one of these, so that a trace shows what was
sealed. The progress bars are left out.
-/

namespace B2p

open Interaction Prog

/-! ## What is sent (`archive.rs`) -/

/-- `archive::Source`. A blob is a file or an archive; only `Source::Text` is text. -/
inductive Source where
  | blob (kind : Kind) (hkind : kind ≠ .text) (name : String) (entries : List Entry)
      (totalSize : Nat) (transferId : String)
  | text (content : String) (transferId : String)

/-! ## Local operations -/

/-- What the two sides do besides talking. -/
inductive HostOp where
  /-- `crypto::seal` under the stream key, with no associated data. -/
  | seal_ (domain : Domain) (index : Nat) (plaintext : Bytes)
  /-- Seek in the source file and read exactly so many bytes. -/
  | readAt (off len : Nat)
  /-- Read the source file to its end. -/
  | readAll
  /-- Ask whether to take the transfer. -/
  | accept (m : Manifest)
  | fs (o : FsOp)
  deriving DecidableEq

@[reducible] def HostOp.Res : HostOp → Type
  | .seal_ _ _ _ => Bytes
  | .readAt _ _ => Except IoError Bytes
  | .readAll => Except IoError Bytes
  | .accept _ => Bool
  | .fs o => o.Res

abbrev hostEffects : Effects := ⟨HostOp, HostOp.Res⟩

abbrev streamEffects : Effects := commEffects Bytes Anyhow hostEffects

abbrev StreamProg := Prog streamEffects Anyhow

abbrev StreamAction := Action streamEffects

namespace Stream

/-- `ch.send(..).await?`. -/
def send (msg : Bytes) : StreamProg Unit := .step (.send msg) ofExcept

/-- `ch.recv().await?`. -/
def recv : StreamProg Bytes := .step .recv ofExcept

/-- A local operation. -/
abbrev loc (o : HostOp) : StreamProg o.Res := .step (.loc o) .ret

def seal_ (domain : Domain) (index : Nat) (plaintext : Bytes) : StreamProg Bytes :=
  loc (.seal_ domain index plaintext)

/-- A program that only touches the disk. -/
def onDisk {α : Type} (p : FsProg α) : StreamProg α :=
  p.interp fun o => loc (.fs o)

/-! ## Functions of the source -/

def STREAM_FRAME_SIZE : Nat := 16 * 1024

/-- The components `Path::file_name` looks at: between slashes, without the empty ones and `.`. -/
def components (name : String) : List String :=
  (name.splitOn "/").filter fun c => decide (c ≠ "" ∧ c ≠ ".")

/-- `safe_name`. -/
def safeName (name : String) : String :=
  match (components name).getLast? with
  | some last => if last = ".." then "b2p-download" else last
  | none => "b2p-download"

/-- `chunk_len`. -/
def chunkLen (i totalSize chunkSize : Nat) : Nat := min (totalSize - i * chunkSize) chunkSize

/-- `stream_manifest`. -/
def streamManifest : Source → Manifest
  | .blob kind _ name entries totalSize transferId =>
      { version := PROTOCOL_VERSION
        transferId := transferId
        kind := kind
        name := name
        entries := entries
        totalSize := totalSize
        chunkSize := STREAM_FRAME_SIZE
        text := none }
  | .text content transferId =>
      { version := PROTOCOL_VERSION
        transferId := transferId
        kind := .text
        name := ""
        entries := []
        totalSize := content.utf8ByteSize
        chunkSize := STREAM_FRAME_SIZE
        text := some content }

/-- `send::read_chunk`. -/
def readChunk (index chunkSize totalSize : Nat) : StreamProg Bytes := do
  let r ← loc (.readAt (index * chunkSize) (min chunkSize (totalSize - index * chunkSize)))
  ofExcept (r.mapError Anyhow.io)

section

variable (X : Externals) (sk : Key)

/-- `blake3_file`. -/
def blake3File : StreamProg String := do
  let r ← loc .readAll
  let bytes ← (ofExcept (r.mapError Anyhow.io) : StreamProg Bytes)
  return X.blake3 bytes

/-- `open_val`. -/
def openVal {T : Type} (c : Codec T) (domain : Domain) (index : Nat) (ct : Bytes) : Except Anyhow T :=
  match X.cipher.open_ sk domain index [] ct with
  | none => .error (.msg "frame failed to decrypt")
  | some pt =>
      match c.fromSlice pt with
      | none => .error (.msg "invalid JSON")
      | some v => .ok v

/-- `.context(..)`. -/
def withContext {α : Type} (text : String) (x : Except Anyhow α) : Except Anyhow α :=
  x.mapError (.context text)

/-! ## The sender -/

/-- The sender leaves chunk `i` out. -/
def skips (ack : StreamManifestAck) (i : Nat) : Bool := ack.complete || runsContain ack.haveRuns i

/-- The payload loop of `send_source`. -/
def sendChunks (ack : StreamManifestAck) (totalSize : Nat) : List Nat → StreamProg Unit
  | [] => return ()
  | i :: rest =>
      if skips ack i then sendChunks ack totalSize rest
      else do
        let plain ← readChunk i STREAM_FRAME_SIZE totalSize
        let ct ← seal_ .streamToReceiver (1 + i) plain
        send ct
        sendChunks ack totalSize rest

/-- The first message of `send_source`. -/
def offer (manifest : Manifest) : StreamProg Unit := do
  let ct ← seal_ .streamToReceiver 0 (X.manifestJson.toVec manifest)
  send ct

/-- `send_source` from the receiver's reply to the commit, for a transfer with a payload. -/
def sendPayload (manifest : Manifest) (ack : StreamManifestAck) : StreamProg Unit := do
  sendChunks ack manifest.totalSize (List.range manifest.totalChunks)
  let hash ← blake3File X
  let ct ← seal_ .streamToReceiver (1 + manifest.totalChunks) (X.commitJson.toVec ⟨hash⟩)
  send ct

/-- The end of `send_source`. -/
def awaitCommit : StreamProg String := do
  let ct ← recv
  let cack ← (ofExcept (openVal X sk X.commitAckJson .streamToSender 1 ct) : StreamProg CommitAck)
  if cack.ok then return "transfer complete"
  else .fail (.msg ("receiver failed to finalize: " ++ cack.error.getD ""))

/-- `send_source`. -/
def sendSource (source : Source) : StreamProg String := do
  let manifest := streamManifest source
  offer X manifest
  let ct ← recv
  let ack ← (ofExcept (withContext "could not read the receiver's response (wrong code?)"
    (openVal X sk X.streamAckJson .streamToSender 0 ct)) : StreamProg StreamManifestAck)
  if ack.accepted = false then .fail (.msg "the receiver declined the transfer")
  else if manifest.kind = .text then return "text delivered"
  else do
    sendPayload X manifest ack
    awaitCommit X sk

/-! ## The receiver -/

/-- Seal and send the reply to the manifest. -/
def replyAck (ack : StreamManifestAck) : StreamProg Unit := do
  let ct ← seal_ .streamToSender 0 (X.streamAckJson.toVec ack)
  send ct

/-- The reply that turns the transfer down. -/
def declined : StreamManifestAck := ⟨false, false, []⟩

/-- Turn the transfer down, then fail. -/
def refuse {α : Type} (e : Anyhow) : StreamProg α := do
  replyAck X declined
  .fail e

/-- The payload loop of `recv_into`; `haves` is the set of chunks staged before. -/
def recvChunks (haves : List Nat) : Store → List Nat → StreamProg Store
  | store, [] => return store
  | store, i :: rest =>
      if i ∈ haves then recvChunks haves store rest
      else do
        let ct ← recv
        match X.cipher.open_ sk .streamToReceiver (1 + i) [] ct with
        | none => .fail (.msg s!"frame {i} failed to decrypt")
        | some plain =>
            let (r, store) ← onDisk (store.writeChunk X i plain)
            ofExcept r
            recvChunks haves store rest

/-- `unpack_tar`. -/
def unpackTar (p : Path) : FsProg Unit := do
  let _ ← io (← syscall (.read p))
  match ← syscall (.unpackTar p) with
  | .error e => .fail (.context "unpacking received archive" (.io e))
  | .ok () => return ()

/-- `finalize`. -/
def finalize (store : Store) (manifest : Manifest) (commit : Commit) (outDir name : String) :
    FsProg String :=
  if store.isComplete = false then .fail (.msg "transfer incomplete")
  else do
    let hash ← store.fileHash X
    if hash ≠ commit.blake3Hex then .fail (.msg "integrity check failed: hash mismatch")
    else match manifest.kind with
      | .file => do
          store.finalizeFile outDir name
          return "saved " ++ joinPath outDir name
      | .tar => do
          unpackTar store.dataPath
          store.cleanup
          return "unpacked archive into " ++ outDir
      | .text => .fail (.msg "internal error: entered unreachable code: text returned before staging")

/-- The reply to the commit. -/
def commitAck : Except Anyhow String → CommitAck
  | .ok _ => ⟨true, none⟩
  | .error e => ⟨false, some e.toString⟩

/-- `recv_into` up to the opened store: the manifest, the decision, and the reply. `none` in the place
of the store is a text, which ends here. -/
def negotiate : StreamProg (Manifest × Option Store) := do
  let ct ← recv
  let manifest ← (ofExcept (withContext "could not decrypt the manifest (wrong code?)"
    (openVal X sk X.manifestJson .streamToReceiver 0 ct)) : StreamProg Manifest)
  if manifest.version ≠ PROTOCOL_VERSION then refuse X (.msg "protocol version mismatch")
  else if manifest.kind ≠ .text ∧ manifest.chunkSize ≠ STREAM_FRAME_SIZE then
    refuse X (.msg (s!"unexpected frame size {manifest.chunkSize} " ++
      s!"(stream expects {STREAM_FRAME_SIZE})"))
  else do
    let accepted ← loc (.accept manifest)
    if accepted = false then refuse X (.msg "transfer declined")
    else if manifest.kind = .text then do
      replyAck X ⟨true, false, []⟩
      return (manifest, none)
    else do
      let store ← onDisk (Store.openOrCreate X (safeName manifest.name) manifest.transferId
        manifest.totalSize manifest.chunkSize)
      replyAck X ⟨true, store.isComplete, runsFromSorted store.haves⟩
      return (manifest, some store)

/-- `recv_into` from the opened store on. -/
def receivePayload (outDir : String) (manifest : Manifest) (store : Store) : StreamProg String := do
  let store ← recvChunks X sk store.haves store (List.range manifest.totalChunks)
  let ct ← recv
  let commit ← (ofExcept (openVal X sk X.commitJson .streamToReceiver (1 + manifest.totalChunks) ct)
    : StreamProg Commit)
  let result ← onDisk (finalize X store manifest commit outDir (safeName manifest.name)).attempt
  let ack ← seal_ .streamToSender 1 (X.commitAckJson.toVec (commitAck result))
  send ack
  ofExcept result

/-- `recv_into`. -/
def recvInto (outDir : String) : StreamProg String := do
  let (manifest, store?) ← negotiate X sk
  match store? with
  | none => return manifest.text.getD ""
  | some store => receivePayload X sk outDir manifest store

end

end Stream
end B2p
