import B2p.External

/-!
# The staging store (`store.rs`)

A transfer is staged in `<name>.b2p-partial`: the bytes in `data`, the chunks received so far in
`state.json`. The functions are programs over the calls of `Fs`, so that a caller may run them to
the end, stop them between any two calls, or interleave them with others.
-/

namespace B2p

open Interaction Prog

/-- `store::Store`. The paths of the source's other fields follow from `dir`. -/
structure Store where
  dir : String
  file : Handle
  state : State
  deriving DecidableEq

/-- One call. -/
abbrev syscall (o : FsOp) : FsProg o.Res := .step o .ret

/-- The `?` on an `io::Result`. -/
def io {α : Type} (x : Except IoError α) : FsProg α := ofExcept (x.mapError Anyhow.io)

@[simp] theorem io_ok {α : Type} (a : α) : io (.ok a : Except IoError α) = ret a := rfl

@[simp] theorem io_error {α : Type} (e : IoError) :
    io (.error e : Except IoError α) = fail (.io e) := rfl

/-- `format!("{name}.b2p-partial")`. -/
def stagingDir (name : String) : String := name ++ ".b2p-partial"

/-- `out_dir.join(name).display()`, for a name that is no absolute path. -/
def joinPath (outDir name : String) : String :=
  if outDir.toList.getLast?.any (· ≠ '/') then outDir ++ "/" ++ name else outDir ++ name

namespace Store

def dataPath (s : Store) : Path := .staged s.dir .data

def statePath (s : Store) : Path := .staged s.dir .stateJson

/-- `state_path.with_extension("json.tmp")`. -/
def tmpPath (s : Store) : Path := .staged s.dir .stateJsonTmp

/-- `Store::fresh_state`. -/
def freshState (transferId : String) (totalSize chunkSize : Nat) : State where
  transferId := transferId
  totalSize := totalSize
  chunkSize := chunkSize
  haves := .empty

section programs

variable (X : Externals)

/-- The state `open_or_create` goes on with, given what reading `state.json` answered: the one read
if it is for this very transfer, else a fresh one. -/
def loadState (bytes : Except IoError Bytes) (transferId : String) (totalSize chunkSize : Nat) :
    State :=
  match bytes with
  | .ok bytes =>
      match X.stateJson.fromSlice bytes with
      | some s =>
          if s.transferId = transferId ∧ s.totalSize = totalSize ∧ s.chunkSize = chunkSize then s
          else freshState transferId totalSize chunkSize
      | none => freshState transferId totalSize chunkSize
  | .error _ => freshState transferId totalSize chunkSize

/-- `Store::persist_state`: write the whole state aside, then rename it into place. -/
def persistState (s : Store) : FsProg Unit := do
  io (← syscall (.writeFile s.tmpPath (X.stateJson.toVec s.state)))
  io (← syscall (.rename s.tmpPath s.statePath))

/-- `Store::open_or_create`. -/
def openOrCreate (name transferId : String) (totalSize chunkSize : Nat) : FsProg Store := do
  let dir := stagingDir name
  io (← syscall (.createDirAll dir))
  let bytes ← syscall (.read (.staged dir .stateJson))
  let state := loadState X bytes transferId totalSize chunkSize
  let file ← io (← syscall (.openRw (.staged dir .data) state.haves.isEmpty))
  io (← syscall (.setLen file totalSize))
  let store : Store := { dir := dir, file := file, state := state }
  persistState X store
  return store

/-- `Store::total_chunks`. -/
def totalChunks (s : Store) : Nat := divCeil s.state.totalSize s.state.chunkSize

/-- `Store::expected_len`. -/
def expectedLen (s : Store) (index : Nat) : Nat :=
  let last := s.totalChunks - 1
  if index < last then s.state.chunkSize else s.state.totalSize - last * s.state.chunkSize

/-- The in-memory half of `write_chunk`. -/
def record (s : Store) (index : Nat) : Store :=
  { s with state := { s.state with haves := s.state.haves.insert index } }

/-- `Store::write_chunk`. The store comes back changed also where persisting it failed, as `&mut
self` does. -/
def writeChunk (s : Store) (index : Nat) (plaintext : Bytes) :
    FsProg (Except Anyhow Unit × Store) :=
  if index ≥ s.totalChunks then
    return (.error (.msg s!"chunk index {index} out of range"), s)
  else if plaintext.length ≠ s.expectedLen index then
    return (.error (.msg (s!"chunk {index} has wrong length {plaintext.length} " ++
      s!"(expected {s.expectedLen index})")), s)
  else do
    match ← syscall (.writeAt s.file (index * s.state.chunkSize) plaintext) with
    | .error e => return (.error (.io e), s)
    | .ok () =>
        let persisted ← (persistState X (s.record index)).attempt
        return (persisted, s.record index)

/-- `Store::have`. -/
def haves (s : Store) : List Nat := s.state.haves.toList

/-- `Store::is_complete`. -/
def isComplete (s : Store) : Bool := s.state.haves.card == s.totalChunks

/-- `Store::file_hash`. -/
def fileHash (s : Store) : FsProg String := do
  return X.blake3 (← io (← syscall (.read s.dataPath)))

/-- The loop of `fs::remove_dir_all` over the files of a directory. -/
def removeFiles (dir : String) : List StagedFile → FsProg Unit
  | [] => return ()
  | f :: files => do
      io (← syscall (.removeFile (.staged dir f)))
      removeFiles dir files

/-- `fs::remove_dir_all` on a staging directory: its files one by one, then the directory. -/
def removeDirAll (dir : String) : FsProg Unit := do
  let files ← io (← syscall (.readDir dir))
  removeFiles dir files
  io (← syscall (.removeDir dir))

/-- `Store::finalize_file`, with `name` in the output directory as the destination. -/
def finalizeFile (s : Store) (outDir name : String) : FsProg Unit := do
  match ← syscall (.rename s.dataPath (.out name)) with
  | .error e => .fail (.context ("moving download into place at " ++ joinPath outDir name) (.io e))
  | .ok () => removeDirAll s.dir

/-- `Store::cleanup`. -/
def cleanup (s : Store) : FsProg Unit := removeDirAll s.dir

end programs

end Store
end B2p
