import B2p.Crypto
import B2p.Lib.Blocks
import B2p.Lib.SortedSet
import Mathlib.Logic.Equiv.List
import Mathlib.Tactic.DeriveEncodable

/-!
# The messages (`protocol.rs`), the errors, and the code around them

The data the two sides exchange, the run-length form of the staged chunks, and the errors the
functions return. JSON is outside the repository: a `Codec` per type, with the round trip the code
relies on.
-/

namespace B2p

open Interaction

/-! ## Errors -/

/-- What a filesystem operation can report. -/
inductive IoError where
  | notFound
  | notEmpty
  | alreadyExists
  | isDirectory
  | other (text : String)
  deriving DecidableEq, Repr

/-- `anyhow::Error`, with the wrappers the callers downcast to. -/
inductive Anyhow where
  | msg (text : String)
  | io (e : IoError)
  | context (text : String) (cause : Anyhow)
  | transportLost (cause : Anyhow)
  | waitClosed (reason : String)
  | codeMismatch
  | roomBusy
  | establish (cause : Anyhow)
  deriving DecidableEq, Repr

def IoError.toString : IoError → String
  | .notFound => "No such file or directory (os error 2)"
  | .notEmpty => "Directory not empty (os error 39)"
  | .alreadyExists => "File exists (os error 17)"
  | .isDirectory => "Is a directory (os error 21)"
  | .other text => text

/-- `e.to_string()`: the outermost message. -/
def Anyhow.toString : Anyhow → String
  | .msg text => text
  | .io e => e.toString
  | .context text _ => text
  | .transportLost cause => cause.toString
  | .waitClosed reason => "the relay connection ended while waiting: " ++ reason
  | .codeMismatch =>
      "the code didn't match — double-check it, or another transfer may be using the same " ++
        "channel; try a fresh code"
  | .roomBusy =>
      "another connection is already using this code's room — retry shortly or get a fresh code"
  | .establish cause => cause.toString

/-- Two steps with `?` succeed when both do. -/
theorem bind_eq_ok {α β : Type} {x : Except Anyhow α} {f : α → Except Anyhow β} {b : β} :
    x >>= f = .ok b ↔ ∃ a, x = .ok a ∧ f a = .ok b := by
  cases x with
  | error e => exact ⟨nofun, nofun⟩
  | ok a =>
      constructor
      · intro h
        exact ⟨a, rfl, h⟩
      · rintro ⟨a', ha, h⟩
        cases ha
        exact h

/-! ## Messages -/

def PROTOCOL_VERSION : Nat := 1

inductive Kind where
  | file
  | tar
  | text
  deriving DecidableEq, Repr, Encodable

theorem Kind.file_ne_text : Kind.file ≠ .text := by decide

structure Entry where
  path : String
  size : Nat
  deriving DecidableEq, Repr

structure Manifest where
  version : Nat
  transferId : String
  kind : Kind
  name : String
  entries : List Entry
  totalSize : Nat
  chunkSize : Nat
  text : Option String
  deriving DecidableEq, Repr

/-- `Manifest::total_chunks`. -/
def Manifest.totalChunks (m : Manifest) : Nat := divCeil m.totalSize m.chunkSize

/-- The tunnel's reply to a manifest. -/
structure ManifestAck where
  accepted : Bool
  complete : Bool
  haves : List Nat
  deriving DecidableEq, Repr

/-- The stream's reply to a manifest; `haveRuns` are runs (start, length) of staged chunks. -/
structure StreamManifestAck where
  accepted : Bool
  complete : Bool
  haveRuns : List (Nat × Nat)
  deriving DecidableEq, Repr

structure Commit where
  blake3Hex : String
  deriving DecidableEq, Repr

structure CommitAck where
  ok : Bool
  error : Option String
  deriving DecidableEq, Repr

/-- `store::State`, the content of `state.json`. -/
structure State where
  transferId : String
  totalSize : Nat
  chunkSize : Nat
  haves : SortedSet Nat
  deriving DecidableEq

/-! ## Run-length acks -/

/-- One index pushed onto the runs: it extends the last run or opens a new one. -/
def pushRun (runs : List (Nat × Nat)) (i : Nat) : List (Nat × Nat) :=
  match runs.getLast? with
  | some (start, len) =>
      if start + len = i then runs.dropLast ++ [(start, len + 1)] else runs ++ [(i, 1)]
  | none => runs ++ [(i, 1)]

/-- `runs_from_sorted`. -/
def runsFromSorted (sorted : List Nat) : List (Nat × Nat) := sorted.foldl pushRun []

/-- `runs_contain`. -/
def runsContain (runs : List (Nat × Nat)) (i : Nat) : Bool :=
  runs.any (fun r => decide (i ≥ r.1 ∧ i < r.1 + r.2))

theorem runsContain_append_singleton (runs : List (Nat × Nat)) (start len i : Nat) :
    runsContain (runs ++ [(start, len)]) i = true
      ↔ runsContain runs i = true ∨ (start ≤ i ∧ i < start + len) := by
  simp [runsContain]

theorem runsContain_pushRun (runs : List (Nat × Nat)) (i j : Nat) :
    runsContain (pushRun runs j) i = true ↔ i = j ∨ runsContain runs i = true := by
  have hnew : ∀ runs, runsContain (runs ++ [(j, 1)]) i = true
      ↔ i = j ∨ runsContain runs i = true := by
    intro runs
    have hone : (j ≤ i ∧ i < j + 1) ↔ i = j := by omega
    rw [runsContain_append_singleton, hone, or_comm]
  rcases List.eq_nil_or_concat runs with rfl | ⟨init, ⟨start, len⟩, rfl⟩
  · exact hnew []
  · rw [pushRun, List.concat_eq_append, List.getLast?_concat, List.dropLast_concat]
    dsimp only
    split
    · next hj =>
        have hext : (start ≤ i ∧ i < start + (len + 1))
            ↔ i = j ∨ (start ≤ i ∧ i < start + len) := by omega
        rw [runsContain_append_singleton, runsContain_append_singleton, hext]
        tauto
    · exact hnew _

/-- **The runs name exactly the listed indices**, whatever the gaps between them. -/
theorem runsContain_runsFromSorted (l : List Nat) (i : Nat) :
    runsContain (runsFromSorted l) i = true ↔ i ∈ l := by
  -- generalized over the runs already built, which is what the loop carries
  suffices h : ∀ runs, runsContain (l.foldl pushRun runs) i = true
      ↔ i ∈ l ∨ runsContain runs i = true by
    rw [runsFromSorted, h]
    simp [runsContain]
  induction l with
  | nil => simp
  | cons j l ih =>
      intro runs
      rw [List.foldl_cons, ih, runsContain_pushRun, List.mem_cons]
      tauto

end B2p
