import B2p.Store.Spec

/-!
# Killing the store's process

One staging directory over the life of several processes. A process opens the store, writes chunks,
finalizes or cleans up, and may be killed after any number of the calls of any of these; the next
one starts with `open_or_create` again.

* `Machine`, `Machine.step`, `Machine.run` — the disk, the open store, and (a ghost) every chunk
  `write_chunk` took, in order.
* `Machine.Resumes` — what a resumed state must mean: each chunk it lists is on disk as it was last
  taken for that transfer.
* `Window` — the kills after which it may not: the data is gone, or truncated, while `state.json` of
  the transfer it belonged to is still there.
* `Machine.Inv.run` — every other run keeps the property.
-/

namespace B2p

open Interaction Prog Fs Store

variable (X : Externals) (name : String)

/-! ## The runs -/

/-- A call to the store. -/
inductive Call where
  | openOrCreate (transferId : String) (totalSize chunkSize : Nat)
  | writeChunk (index : Nat) (plaintext : Bytes)
  | finalizeFile (outDir dest : String)
  | cleanup

/-- What happens in one directory: a call, a call cut short after `n` filesystem operations by the
death of the process, and the directory listing its files in another order. -/
inductive Event where
  | call (c : Call)
  | kill (c : Call) (n : Nat)
  | relist (order : List StagedFile)

/-- A chunk `write_chunk` took for a transfer. -/
structure Taken where
  transferId : String
  index : Nat
  plaintext : Bytes
  deriving DecidableEq

structure Machine where
  disk : Fs
  store : Option Store
  /-- Latest first. -/
  taken : List Taken

/-- The program a call runs, and the store the process holds after it. Only `open_or_create` can be
called without one. -/
def Call.prog : Call → Option Store → FsProg (Option Store)
  | .openOrCreate transferId totalSize chunkSize, _ => do
      return some (← Store.openOrCreate X name transferId totalSize chunkSize)
  | .writeChunk index plaintext, some s => do
      return some (← Store.writeChunk X s index plaintext).2
  | .finalizeFile outDir dest, some s => do
      Store.finalizeFile s outDir dest
      return none
  | .cleanup, some s => do
      Store.cleanup s
      return none
  | _, none => return none

namespace Machine

/-- The plaintext last taken for a chunk of a transfer. -/
def lastTaken (taken : List Taken) (transferId : String) (index : Nat) : Option Bytes :=
  (taken.find? fun t => decide (t.transferId = transferId ∧ t.index = index)).map Taken.plaintext

/-- The ghost after a call that got as far as its first filesystem operation: for `write_chunk` that
is the write of a chunk that passed its two checks. -/
def takenAfter (m : Machine) : Call → List Taken
  | .writeChunk index plaintext =>
      match m.store with
      | some s =>
          if s.Accepts index plaintext then ⟨s.state.transferId, index, plaintext⟩ :: m.taken
          else m.taken
      | none => m.taken
  | _ => m.taken

def step (m : Machine) : Event → Machine
  | .call c =>
      let r := (c.prog X name m.store).eval X.handle m.disk
      { disk := r.2, store := r.1.toOption.join, taken := m.takenAfter c }
  | .kill c n =>
      { disk := ((c.prog X name m.store).evalN X.handle n m.disk).2
        store := none
        taken := if n = 0 then m.taken else m.takenAfter c }
  | .relist order =>
      if order.Perm [.data, .stateJson, .stateJsonTmp] then
        { m with disk := { m.disk with order := order } }
      else m

/-- The machine after a run. -/
def run (m : Machine) (es : List Event) : Machine := es.foldl (step X name) m

/-- What `open_or_create` resumes is backed by the disk: an index it lists is below `total_chunks`,
and the bytes at its offset are the plaintext last taken for it and for the same transfer. -/
def Resumes (m : Machine) (transferId : String) (totalSize chunkSize : Nat) : Prop :=
  ∀ s fs', (openOrCreate X name transferId totalSize chunkSize).eval X.handle m.disk = (.ok s, fs') →
    ∀ index ∈ s.haves, index < s.totalChunks ∧
      ∃ data, fs'.content s.dataPath = some data ∧
        lastTaken m.taken transferId index
          = some (slice (index * chunkSize) (s.expectedLen index) data)

end Machine

/-! ## The windows -/

/-- A call killed here leaves a `state.json` that lists chunks the data file no longer holds:
`open_or_create` of another transfer after its truncating open and before its own state is renamed
into place; `finalize_file` after the rename of the data and before `state.json` is removed;
`cleanup` between the removals of the two, when the directory lists the data first. -/
def Window (fs : Fs) (c : Call) (n : Nat) : Prop :=
  ∃ st, persisted X fs name = some st ∧ st.haves.isEmpty = false ∧
    match c with
    | .openOrCreate transferId totalSize chunkSize =>
        ¬ (st.transferId = transferId ∧ st.totalSize = totalSize ∧ st.chunkSize = chunkSize) ∧
          3 ≤ n ∧ n ≤ 5
    | .writeChunk _ _ => False
    | .finalizeFile _ dest =>
        1 ≤ n ∧ fs.dirs dest = false ∧ .stateJson ∉ ((fs.entries (stagingDir name)).erase .data).take (n - 2)
    | .cleanup =>
        .data ∈ (fs.entries (stagingDir name)).take (n - 1) ∧
          .stateJson ∉ (fs.entries (stagingDir name)).take (n - 1)

/-- `chunk_size >= 1`. -/
def Call.Valid : Call → Prop
  | .openOrCreate _ _ chunkSize => 0 < chunkSize
  | _ => True

def Event.Valid : Event → Prop
  | .call c => c.Valid
  | .kill c _ => c.Valid
  | .relist _ => True

/-- The event is valid, and no kill in a window. -/
def Event.Meets (m : Machine) (e : Event) : Prop :=
  e.Valid ∧ match e with
    | .kill c n => ¬ Window X name m.disk c n
    | _ => True

/-- Every event of the run meets the condition on the machine it finds. -/
def Machine.AllMeet : Machine → List Event → Prop
  | _, [] => True
  | m, e :: es => e.Meets X name m ∧ (m.step X name e).AllMeet es

/-! ## The invariant -/

namespace Machine

/-- The data file holds the chunks `st` lists, each as it was last taken. -/
abbrev Backed (taken : List Taken) (data : Bytes) (st : State) : Prop :=
  Holds (fun i b => lastTaken taken st.transferId i = some b) data st

/-- What holds between any two events: a non-empty `state.json` is backed by the data file beside
it, and so is the store the process has open. -/
structure Inv (m : Machine) : Prop where
  wf : m.disk.Wf
  disk : ∀ st, persisted X m.disk name = some st → st.haves.isEmpty = false →
    ∃ data, m.disk.content (.staged (stagingDir name) .data) = some data ∧ Backed m.taken data st
  live : ∀ s, m.store = some s → s.dir = stagingDir name ∧ s.Live X m.disk ∧
    ∃ data, m.disk.content s.dataPath = some data ∧ Backed m.taken data s.state

theorem lastTaken_cons_self (t : Taken) (taken : List Taken) :
    lastTaken (t :: taken) t.transferId t.index = some t.plaintext := by
  simp [lastTaken]

theorem lastTaken_cons_of_ne {t : Taken} (taken : List Taken) {i : Nat} (hi : i ≠ t.index) :
    lastTaken (t :: taken) t.transferId i = lastTaken taken t.transferId i := by
  rw [lastTaken, List.find?_cons_of_neg (by simp [Ne.symm hi]), lastTaken]

section write

variable {taken : List Taken} {data : Bytes} {s : Store} (hb : Backed taken data s.state)
  {index : Nat} {plaintext : Bytes} (h : s.Accepts index plaintext)

include hb h

/-- Taking a chunk keeps the others backed, whether or not it is listed yet. -/
theorem Backed.write : Backed (⟨s.state.transferId, index, plaintext⟩ :: taken)
    (overwrite 0 (index * s.state.chunkSize) plaintext data) s.state :=
  Holds.write hb h (fun _ _ hj hold => (lastTaken_cons_of_ne taken hj).trans hold)
    (lastTaken_cons_self ⟨_, index, _⟩ taken)

/-- … and listing it then is right. -/
theorem Backed.record : Backed (⟨s.state.transferId, index, plaintext⟩ :: taken)
    (overwrite 0 (index * s.state.chunkSize) plaintext data) (s.record index).state :=
  Holds.record hb h (fun _ _ hj hold => (lastTaken_cons_of_ne taken hj).trans hold)
    (lastTaken_cons_self ⟨_, index, _⟩ taken)

end write

end Machine

/-! ## Stopping each call -/

section stopped

variable {X name} {fs : Fs}

variable (X name) in
/-- The disk after `n` operations of `open_or_create`: the data file changes with the third, the
state with the sixth. -/
theorem stopped_openOrCreate (hwf : fs.Wf) (hmakes : fs.Makes (stagingDir name)) (transferId : String)
    (totalSize chunkSize n : Nat) :
    ∃ fs', ((openOrCreate X name transferId totalSize chunkSize).evalN X.handle n fs).2 = fs' ∧
      fs'.Wf ∧ SameOutside (stagingDir name) fs fs' ∧
      (n < 6 → fs'.content (.staged (stagingDir name) .stateJson)
        = fs.content (.staged (stagingDir name) .stateJson)) ∧
      (n < 3 → fs'.content (.staged (stagingDir name) .data)
        = fs.content (.staged (stagingDir name) .data)) ∧
      (3 ≤ n → fs'.content (.staged (stagingDir name) .data)
          = some (dataOn X fs name transferId totalSize chunkSize) ∨
        fs'.content (.staged (stagingDir name) .data)
          = some (setLen 0 totalSize (dataOn X fs name transferId totalSize chunkSize))) ∧
      (6 ≤ n → fs'.content (.staged (stagingDir name) .stateJson)
          = some (X.stateJson.toVec (stateOn X fs name transferId totalSize chunkSize)) ∧
        fs'.content (.staged (stagingDir name) .data)
          = some (setLen 0 totalSize (dataOn X fs name transferId totalSize chunkSize))) := by
  obtain ⟨h, fs₁, fs₂, h₁, h₂, -, hs₁, hs₂⟩ :=
    openOrCreate_calls X hwf name transferId totalSize chunkSize
  have hd₂ : fs₂.dirs (stagingDir name) = true := by
    rw [hs₂.dirs, hs₁.dirs, dirs_setDir]
  obtain ⟨fs₃, fs₄, fs₅, h₃, h₄, hs₃, hs₄, hs₅⟩ := persistState_calls X hs₂.wf
    (s := opened X fs name transferId totalSize chunkSize h) hd₂
  -- `state.json` until the last rename, …
  have hst₁ := hs₁.content (.staged (stagingDir name) .stateJson) (by simp)
  have hst₂ := (hs₂.content (.staged (stagingDir name) .stateJson) (by simp)).trans hst₁
  have hst₃ := (hs₃.content (.staged (stagingDir name) .stateJson) (by simp [tmpPath])).trans hst₂
  -- … the data file from its opening on, …
  have hda₃ := (hs₃.content (.staged (stagingDir name) .data) (by simp [tmpPath])).trans hs₂.self
  have hda₅ := (hs₅.content (.staged (stagingDir name) .data) (by simp [statePath])).trans
    ((hs₄.content (.staged (stagingDir name) .data) (by simp [tmpPath])).trans hda₃)
  -- … and everything else
  have hso₀ := sameOutside_setDir fs (stagingDir name) true
  have hso₁ := hso₀.trans hs₁.toFrame.sameOutside
  have hso₂ := hso₁.trans hs₂.toFrame.sameOutside
  have hso₃ : SameOutside (stagingDir name) fs fs₃ := hso₂.trans (Frame.sameOutside hs₃.toFrame)
  have hso₄ : SameOutside (stagingDir name) fs fs₄ := hso₃.trans (Frame.sameOutside hs₄.toFrame)
  have hso₅ : SameOutside (stagingDir name) fs fs₅ := hso₄.trans (Frame.sameOutside hs₅.toFrame)
  rw [openOrCreate, step_bind]
  -- after how many of the six calls is it killed?
  obtain _ | _ | _ | _ | _ | _ | n := n
  · exact ⟨_, rfl, hwf, .refl _ _, by simp, by simp, by simp, by simp⟩
  · rw [evalN_step_eq _ (handle_createDirAll X hmakes)]
    exact ⟨_, rfl, hwf.setDir _, hso₀, by simp, by simp, by simp, by simp⟩
  · rw [evalN_step_eq _ (handle_createDirAll X hmakes)]
    simp only [ret_bind, io_ok, step_bind]
    rw [evalN_step_eq _ (handle_read X _ _)]
    exact ⟨_, rfl, hwf.setDir _, hso₀, by simp, by simp, by simp, by simp⟩
  all_goals
    rw [evalN_step_eq _ (handle_createDirAll X hmakes)]
    simp only [ret_bind, io_ok, step_bind]
    rw [evalN_step_eq _ (handle_read X _ _), content_setDir, ← stateOn, evalN_step_eq _ h₁]
    simp only [ret_bind, io_ok]
  · exact ⟨_, rfl, hs₁.wf, hso₁, fun _ => hst₁, by omega, fun _ => .inl hs₁.self, by omega⟩
  all_goals rw [evalN_step_eq _ h₂]
  · exact ⟨_, rfl, hs₂.wf, hso₂, fun _ => hst₂, by omega, fun _ => .inr hs₂.self, by omega⟩
  all_goals
    simp only [ret_bind, io_ok, persistState, step_bind, opened] at h₃ h₄ ⊢
    rw [evalN_step_eq _ h₃]
    simp only [ret_bind, io_ok]
  · exact ⟨_, rfl, hs₃.wf, hso₃, fun _ => hst₃, by omega, fun _ => .inr hda₃, by omega⟩
  · rw [step_bind, evalN_step_eq _ h₄]
    simp only [ret_bind, io_ok, evalN_ret, pure_eq]
    exact ⟨_, rfl, hs₅.wf, hso₅, by omega, by omega, fun _ => .inr hda₅, fun _ => ⟨hs₅.self, hda₅⟩⟩

variable (X name) in
/-- Where its directory cannot be made, `open_or_create` leaves everything as it is. -/
theorem stopped_openOrCreate_of_file (h : ¬ fs.Makes (stagingDir name)) (transferId : String)
    (totalSize chunkSize n : Nat) :
    ((openOrCreate X name transferId totalSize chunkSize).evalN X.handle n fs).2 = fs := by
  cases n with
  | zero => rfl
  | succ n =>
      rw [openOrCreate, step_bind, evalN_step_eq _ (handle_createDirAll_of_file X h)]
      cases n <;> rfl

/-- The disk after `n ≥ 1` operations of a `write_chunk` that takes its chunk: the bytes are there,
and `state.json` is the old or the new one. -/
theorem stopped_writeChunk {s : Store} (hl : Live X fs s) {data : Bytes}
    (hd : fs.content s.dataPath = some data) {index : Nat} {plaintext : Bytes}
    (h : s.Accepts index plaintext) (n : Nat) :
    ∃ fs', ((writeChunk X s index plaintext).evalN X.handle (n + 1) fs).2 = fs' ∧ fs'.Wf ∧
      SameOutside s.dir fs fs' ∧
      fs'.content s.dataPath = some (overwrite 0 (index * s.state.chunkSize) plaintext data) ∧
      (fs'.content s.statePath = fs.content s.statePath ∨
        fs'.content s.statePath = some (X.stateJson.toVec (s.record index).state)) := by
  obtain ⟨fs₁, h₁, hs₁, -⟩ := writeAt_call X hl hd (index * s.state.chunkSize) plaintext
  have hd₁ : fs₁.dirs s.dir = true := by rw [hs₁.dirs, hl.dir]
  obtain ⟨fs₂, fs₃, fs₄, h₂, h₃, hs₂, hs₃, hs₄⟩ :=
    persistState_calls X hs₁.wf (s := s.record index) hd₁
  have hst₁ := hs₁.content s.statePath (by simp [statePath, dataPath])
  have hst₂ := (hs₂.content s.statePath (by simp [statePath, tmpPath])).trans hst₁
  have hda₂ := (hs₂.content s.dataPath (by simp [dataPath, tmpPath])).trans hs₁.self
  have hda₄ := (hs₄.content s.dataPath (by simp [dataPath, statePath])).trans
    ((hs₃.content s.dataPath (by simp [dataPath, tmpPath])).trans hda₂)
  have hso₁ : SameOutside s.dir fs fs₁ := hs₁.toFrame.sameOutside
  have hso₂ : SameOutside s.dir fs fs₂ := hso₁.trans (Frame.sameOutside hs₂.toFrame)
  have hso₃ : SameOutside s.dir fs fs₃ := hso₂.trans (Frame.sameOutside hs₃.toFrame)
  have hso₄ : SameOutside s.dir fs fs₄ := hso₃.trans (Frame.sameOutside hs₄.toFrame)
  rw [writeChunk_of_accepts X h, evalN_step_eq _ h₁]
  -- after the write itself, after the temporary file, or at the end
  obtain _ | _ | n := n
  · exact ⟨_, rfl, hs₁.wf, hso₁, hs₁.self, .inl hst₁⟩
  all_goals
    simp only [persistState, step_bind, ret_bind, attempt]
    rw [evalN_step_eq _ h₂]
    simp only [io_ok, ret_bind, attempt, step_bind]
  · exact ⟨_, rfl, hs₂.wf, hso₂, hda₂, .inl hst₂⟩
  · rw [evalN_step_eq _ h₃]
    simp only [io_ok, attempt_ret, ret_bind, evalN_ret]
    exact ⟨_, rfl, hs₄.wf, hso₄, hda₄, .inr hs₄.self⟩

/-- The disk after `m` operations of the removal loop and what follows it: the first `m` files are
gone, and once all are, the rest has been running. -/
theorem stopped_removeFiles (hwf : fs.Wf) (dir : String) (files : List StagedFile)
    (hnd : files.Nodup) (hthere : ∀ f ∈ files, fs.content (.staged dir f) ≠ none)
    (k : FsProg Unit) (m : Nat) :
    ∃ fs' n, ((removeFiles dir files >>= fun _ => k).evalN X.handle m fs).2
        = (if files.length ≤ m then (k.evalN X.handle n fs').2 else fs') ∧
      Frame (files.map (.staged dir)) fs fs' ∧
      ∀ f, fs'.content (.staged dir f)
        = if f ∈ files.take m then none else fs.content (.staged dir f) := by
  induction files generalizing fs m with
  | nil => exact ⟨fs, m, by simp [removeFiles], Frame.refl hwf _, by simp⟩
  | cons f files ih =>
      rw [List.nodup_cons] at hnd
      -- killed here, or after some of the others
      obtain _ | m := m
      · exact ⟨fs, 0, by simp, Frame.refl hwf _, by simp⟩
      obtain ⟨fs₁, h₁, hs₁⟩ :=
        handle_removeFile X.unpackTar hwf (hthere f List.mem_cons_self)
      have hkeep : ∀ g, g ≠ f → fs₁.content (.staged dir g) = fs.content (.staged dir g) :=
        fun g hg => hs₁.content _ (by simpa using hg)
      have hthere₁ : ∀ g ∈ files, fs₁.content (.staged dir g) ≠ none := by
        intro g hg
        rw [hkeep g (fun he => hnd.1 (he ▸ hg))]
        exact hthere g (List.mem_cons_of_mem _ hg)
      obtain ⟨fs₂, n, h₂, hfr, hgone⟩ := ih hs₁.wf hnd.2 hthere₁ m
      refine ⟨fs₂, n, ?_, (hs₁.toFrame.trans hfr).mono (by simp), ?_⟩
      · rw [removeFiles, step_bind, step_bind, evalN_step_eq _ h₁]
        simpa using h₂
      · intro g
        rw [hgone, List.take_succ_cons]
        by_cases hgf : g = f
        · subst hgf
          have hnot : g ∉ files.take m := fun hm => hnd.1 (List.mem_of_mem_take hm)
          simp [hnot, hs₁.self]
        · simp [hgf, hkeep g hgf]

/-- The disk after `n` operations of `remove_dir_all`: the first `n - 1` files listed are gone. -/
theorem stopped_removeDirAll (hwf : fs.Wf) {dir : String} (hdir : fs.dirs dir = true) (n : Nat) :
    ∃ fs', ((removeDirAll dir).evalN X.handle n fs).2 = fs' ∧ fs'.Wf ∧
      ∀ f, fs'.content (.staged dir f)
        = if f ∈ (fs.entries dir).take (n - 1) then none else fs.content (.staged dir f) := by
  obtain _ | n := n
  · exact ⟨fs, rfl, hwf, by simp⟩
  have hread : X.handle (.readDir dir) fs = (.ok (fs.entries dir), fs) := by
    simp [Externals.handle, Fs.handle, hdir]
  obtain ⟨fs₁, m, h₁, hfr, hgone⟩ := stopped_removeFiles (X := X) hwf dir (fs.entries dir)
    (nodup_entries hwf dir) (fun f hf => (mem_entries hwf).mp hf)
    (do io (← syscall (.removeDir dir))) n
  rw [removeDirAll, step_bind, evalN_step_eq _ hread]
  simp only [ret_bind, io_ok]
  rw [h₁]
  split
  · next hall =>
      -- all files are gone; the directory itself may be left
      have hnone : ∀ f, fs₁.content (.staged dir f) = none := by
        intro f
        rw [hgone, List.take_of_length_le hall]
        split
        · rfl
        · next hf => exact not_not.mp (mt (mem_entries hwf).mpr hf)
      obtain ⟨hrm, hwf₁⟩ := removeDir_call X hfr.wf (hfr.dirs ▸ hdir) hnone
      rw [step_bind]
      obtain _ | m := m
      · exact ⟨fs₁, rfl, hfr.wf, hgone⟩
      · rw [evalN_step_eq _ hrm]
        simp only [ret_bind, io_ok, evalN_ret]
        exact ⟨_, rfl, hwf₁, hgone⟩
  · exact ⟨fs₁, rfl, hfr.wf, hgone⟩

/-- The directory once its data file has been moved out. -/
theorem entries_erase_data {fs₁ : Fs} (hwf : fs.Wf) {dir : String} (ho : fs₁.order = fs.order)
    (hdata : fs₁.content (.staged dir .data) = none)
    (hrest : ∀ f, f ≠ .data → fs₁.content (.staged dir f) = fs.content (.staged dir f)) :
    fs₁.entries dir = (fs.entries dir).erase .data := by
  rw [List.Nodup.erase_eq_filter (nodup_entries hwf dir), Fs.entries, Fs.entries, ho,
    List.filter_filter]
  refine List.filter_congr ?_
  intro f _
  rw [Bool.eq_iff_iff, Bool.and_eq_true, Option.isSome_iff_ne_none, Option.isSome_iff_ne_none,
    Ne, Ne, ← content_eq_none_iff, ← content_eq_none_iff]
  by_cases hf : f = .data
  · simp [hf, hdata]
  · simp [hf, hrest f hf]

/-- The disk after `n ≥ 1` operations of `finalize_file`: the data has been moved away, and of the
rest the first `n - 2` files listed are gone. -/
theorem stopped_finalizeFile {s : Store} (hl : Live X fs s) {data : Bytes}
    (hd : fs.content s.dataPath = some data) (outDir : String) {dest : String} (hdest : fs.dirs dest = false)
    (n : Nat) :
    ∃ fs', ((finalizeFile s outDir dest).evalN X.handle (n + 1) fs).2 = fs' ∧ fs'.Wf ∧
      fs'.content s.statePath
        = if .stateJson ∈ ((fs.entries s.dir).erase .data).take (n - 1) then none
          else fs.content s.statePath := by
  have hroom : fs.room (.out dest) = true := by rw [room, hdest]; rfl
  obtain ⟨fs₁, fs₂, h₁, hs₁, hs₂⟩ := handle_rename X.unpackTar hl.wf hd (q := .out dest) hroom
  have hdir : fs₂.dirs s.dir = true := by rw [hs₂.dirs, hs₁.dirs, hl.dir]
  have hrest : ∀ f, f ≠ .data → fs₂.content (.staged s.dir f) = fs.content (.staged s.dir f) := by
    intro f hf
    rw [hs₂.content _ (by simp), hs₁.content _ (by simpa [dataPath] using hf)]
  have hdata : fs₂.content (.staged s.dir .data) = none := by
    rw [hs₂.content _ (by simp)]
    exact hs₁.self
  -- without the data file, the rest of the directory is listed as before
  have hent := entries_erase_data hl.wf (by rw [hs₂.order, hs₁.order]) hdata hrest
  obtain ⟨fs₃, h₃, hwf₃, hgone⟩ := stopped_removeDirAll (X := X) hs₂.wf hdir n
  refine ⟨fs₃, ?_, hwf₃, ?_⟩
  · rw [finalizeFile, step_bind, evalN_step_eq _ h₁]
    exact h₃
  · rw [statePath, hgone, hent, hrest _ (by simp)]

/-- Onto a directory it moves nothing, and it ends there. -/
theorem stopped_finalizeFile_of_dir {s : Store} {data : Bytes} (hd : fs.content s.dataPath = some data)
    (outDir : String) {dest : String} (hdest : fs.dirs dest = true) (n : Nat) :
    ((finalizeFile s outDir dest).evalN X.handle n fs).2 = fs := by
  have hrename : X.handle (.rename s.dataPath (.out dest)) fs = (.error .isDirectory, fs) :=
    handle_rename_of_dir X.unpackTar hd hdest
  cases n with
  | zero => rfl
  | succ n =>
      rw [finalizeFile, step_bind, evalN_step_eq _ hrename]
      cases n <;> rfl

end stopped

/-! ## Every event keeps the invariant -/

namespace Machine

variable {X name}

/-- What `open_or_create` goes on with is backed by what it makes of the data file. -/
theorem Inv.backed_open {m : Machine} (hi : m.Inv X name) (transferId : String) (totalSize : Nat)
    {chunkSize : Nat} (hc : 0 < chunkSize) :
    Backed m.taken (setLen 0 totalSize (dataOn X m.disk name transferId totalSize chunkSize))
      (stateOn X m.disk name transferId totalSize chunkSize) := by
  rw [Backed, (stateOn_geometry X name m.disk transferId totalSize chunkSize).1]
  refine holds_open hc ?_
  rintro st hp ⟨rfl, rfl, rfl⟩ hne
  exact hi.disk st hp hne

/-- With no open store, and nothing to resume, there is nothing to show. -/
theorem Inv.of_persisted_none {m : Machine} (hwf : m.disk.Wf) (hs : m.store = none)
    (hp : m.disk.content (.staged (stagingDir name) .stateJson) = none) : m.Inv X name := by
  refine ⟨hwf, ?_, ?_⟩
  · intro st hst
    rw [persisted, hp] at hst
    cases hst
  · intro s hs'
    rw [hs] at hs'
    cases hs'

/-- An open store is its own disk invariant. -/
theorem Inv.of_live {m : Machine} {s : Store} {data : Bytes} (hs : m.store = some s)
    (hdir : s.dir = stagingDir name) (hl : s.Live X m.disk)
    (hd : m.disk.content s.dataPath = some data) (hb : Backed m.taken data s.state) :
    m.Inv X name := by
  refine ⟨hl.wf, ?_, ?_⟩
  · intro st hst _
    have hpers : persisted X m.disk name = some s.state := by
      have := hl.persisted
      rw [statePath, hdir] at this
      rw [persisted, this, Option.bind_some, Codec.fromSlice_toVec]
    rw [hpers, Option.some.injEq] at hst
    subst hst
    rw [← hdir]
    exact ⟨data, hd, hb⟩
  · intro s' hs'
    rw [hs, Option.some.injEq] at hs'
    subst hs'
    exact ⟨hdir, hl, data, hd, hb⟩

/-- Forgetting the store, as a dying process does. -/
theorem Inv.dead {m : Machine} (hi : m.Inv X name) : ({ m with store := none } : Machine).Inv X name :=
  ⟨hi.wf, hi.disk, fun _ hs => by cases hs⟩

section calls

variable {m : Machine} {s s' : Store} {fs' : Fs} {transferId : String}
  {totalSize chunkSize index n : Nat} {plaintext : Bytes}

theorem step_openOrCreate
    (he : (openOrCreate X name transferId totalSize chunkSize).eval X.handle m.disk = (.ok s, fs')) :
    m.step X name (.call (.openOrCreate transferId totalSize chunkSize))
      = ⟨fs', some s, m.taken⟩ := by
  simp only [step, Call.prog, eval_bind_ok _ he]
  rfl

theorem step_writeChunk (hs : m.store = some s) (ha : s.Accepts index plaintext)
    (he : (writeChunk X s index plaintext).eval X.handle m.disk = (.ok (.ok (), s'), fs')) :
    m.step X name (.call (.writeChunk index plaintext))
      = ⟨fs', some s', ⟨s.state.transferId, index, plaintext⟩ :: m.taken⟩ := by
  simp only [step, Call.prog, takenAfter, hs, eval_bind_ok _ he, if_pos ha]
  rfl

theorem step_kill_openOrCreate
    (he : ((openOrCreate X name transferId totalSize chunkSize).evalN X.handle n m.disk).2 = fs') :
    m.step X name (.kill (.openOrCreate transferId totalSize chunkSize) n)
      = ⟨fs', none, m.taken⟩ := by
  simp only [step, Call.prog, pure_eq, evalN_bind_ret, he, takenAfter, ite_self]

end calls

theorem Inv.call {m : Machine} (hi : m.Inv X name) {c : Call} (hm : (Event.call c).Meets X name m) :
    (m.step X name (.call c)).Inv X name := by
  cases c with
  | openOrCreate transferId totalSize chunkSize =>
      by_cases hmakes : m.disk.Makes (stagingDir name)
      · obtain ⟨h, fs', he, hl, hd, -⟩ := eval_openOrCreate X hi.wf hmakes transferId totalSize chunkSize
        rw [step_openOrCreate he]
        exact Inv.of_live rfl rfl hl hd (hi.backed_open transferId totalSize hm.1)
      · -- a file is in the directory's place
        have he := eval_openOrCreate_of_file X hmakes transferId totalSize chunkSize
        have hstep : m.step X name (.call (.openOrCreate transferId totalSize chunkSize))
            = ⟨m.disk, none, m.taken⟩ := by
          simp only [step, Call.prog, eval_bind, he, takenAfter]
          rfl
        rw [hstep]
        exact hi.dead
  -- without a store there is nobody to write
  | writeChunk index plaintext =>
      cases hs : m.store with
      | none => simpa [step, Call.prog, takenAfter, hs, Except.toOption] using hi.dead
      | some s =>
          obtain ⟨hdir, hl, data, hd, hb⟩ := hi.live s hs
          by_cases ha : s.Accepts index plaintext
          · obtain ⟨fs', he, hl', hd', -⟩ := eval_writeChunk X hl hd ha
            rw [step_writeChunk hs ha he]
            exact Inv.of_live rfl hdir hl' hd' (hb.record ha)
          · obtain ⟨e, he⟩ := writeChunk_of_not_accepts X ha
            have hstep : m.step X name (.call (.writeChunk index plaintext))
                = ⟨m.disk, some s, m.taken⟩ := by
              simp only [step, Call.prog, takenAfter, hs, he, if_neg ha]
              rfl
            rw [hstep]
            exact Inv.of_live rfl hdir hl hd hb
  | finalizeFile outDir dest =>
      cases hs : m.store with
      | none => simpa [step, Call.prog, takenAfter, hs, Except.toOption] using hi.dead
      | some s =>
          obtain ⟨hdir, hl, data, hd, -⟩ := hi.live s hs
          obtain ⟨r, fs', he⟩ : ∃ r fs', (finalizeFile s outDir dest).eval X.handle m.disk = (r, fs') :=
            ⟨_, _, rfl⟩
          have hstep : m.step X name (.call (.finalizeFile outDir dest)) = ⟨fs', none, m.taken⟩ := by
            simp only [step, Call.prog, takenAfter, hs, eval_bind, he]
            cases r <;> rfl
          rw [hstep]
          -- the file was placed and the directory removed, or nothing happened
          rcases finalizeFile_cases X hl hd he with ⟨-, -, hgone, -⟩ | ⟨-, rfl⟩
          · exact Inv.of_persisted_none hgone.wf rfl (hdir ▸ hgone.files .stateJson)
          · exact hi.dead
  | cleanup =>
      cases hs : m.store with
      | none => simpa [step, Call.prog, takenAfter, hs, Except.toOption] using hi.dead
      | some s =>
          obtain ⟨hdir, hl, -⟩ := hi.live s hs
          obtain ⟨fs', he, hgone, -⟩ := eval_removeDirAll X hl.wf hl.dir
          have hstep : m.step X name (.call .cleanup) = ⟨fs', none, m.taken⟩ := by
            simp only [step, Call.prog, takenAfter, hs, Store.cleanup, eval_bind_ok _ he]
            rfl
          rw [hstep]
          exact Inv.of_persisted_none hgone.wf rfl (hdir ▸ hgone.files .stateJson)

/-- The disk half of the invariant, for a process that has just died. -/
theorem Inv.of_disk {fs : Fs} {taken : List Taken} (hwf : fs.Wf)
    (h : ∀ st, persisted X fs name = some st → st.haves.isEmpty = false →
      ∃ data, fs.content (.staged (stagingDir name) .data) = some data ∧ Backed taken data st) :
    (⟨fs, none, taken⟩ : Machine).Inv X name :=
  ⟨hwf, h, fun _ hs => by cases hs⟩

theorem Inv.kill_openOrCreate {m : Machine} (hi : m.Inv X name) {transferId : String}
    {totalSize chunkSize n : Nat} (hc : 0 < chunkSize)
    (hw : ¬ Window X name m.disk (.openOrCreate transferId totalSize chunkSize) n) :
    (m.step X name (.kill (.openOrCreate transferId totalSize chunkSize) n)).Inv X name := by
  by_cases hmakes : m.disk.Makes (stagingDir name)
  swap
  · rw [step_kill_openOrCreate (stopped_openOrCreate_of_file X name hmakes transferId totalSize chunkSize n)]
    exact hi.dead
  obtain ⟨fs', he, hwf, -, hst, hda, hda', hend⟩ := stopped_openOrCreate X name hi.wf hmakes
    transferId totalSize chunkSize n
  have hback := hi.backed_open transferId totalSize hc
  rw [step_kill_openOrCreate he]
  refine Inv.of_disk hwf ?_
  intro st hp hne
  by_cases hn : n < 6
  · rw [persisted_congr (hst hn)] at hp
    obtain ⟨data, hd, hb⟩ := hi.disk st hp hne
    by_cases hn3 : n < 3
    · exact ⟨data, (hda hn3).trans hd, hb⟩
    · -- the data file was opened; had it been truncated, this were the window
      have hmatch : st.transferId = transferId ∧ st.totalSize = totalSize ∧
          st.chunkSize = chunkSize := by
        by_contra hno
        exact hw ⟨st, hp, hne, hno, by omega, by omega⟩
      have hon : stateOn X m.disk name transferId totalSize chunkSize = st := by
        rw [stateOn_eq, hp]
        exact if_pos hmatch
      have hdon : dataOn X m.disk name transferId totalSize chunkSize = data := by
        rw [dataOn, hon, hne, hd]
        rfl
      rw [hdon, setLen_of_length (hb.length.trans hmatch.2.1), or_self] at hda'
      exact ⟨data, hda' (by omega), hb⟩
  -- the new state is in place, and the data it speaks of
  · obtain ⟨hst', hd⟩ := hend (by omega)
    rw [persisted, hst', Option.bind_some, Codec.fromSlice_toVec, Option.some.injEq] at hp
    subst hp
    exact ⟨_, hd, hback⟩

theorem Inv.kill_writeChunk {m : Machine} (hi : m.Inv X name) (index : Nat) (plaintext : Bytes)
    (n : Nat) : (m.step X name (.kill (.writeChunk index plaintext) n)).Inv X name := by
  obtain _ | n := n
  · simpa [step] using hi.dead
  cases hs : m.store with
  | none => simpa [step, Call.prog, takenAfter, hs] using hi.dead
  | some s =>
      obtain ⟨hdir, hl, data, hd, hb⟩ := hi.live s hs
      by_cases ha : s.Accepts index plaintext
      · obtain ⟨fs', he, hwf, -, hd', hst⟩ := stopped_writeChunk hl hd ha n
        have hstep : m.step X name (.kill (.writeChunk index plaintext) (n + 1))
            = ⟨fs', none, ⟨s.state.transferId, index, plaintext⟩ :: m.taken⟩ := by
          simp only [step, Call.prog, pure_eq, hs, evalN_bind_ret, he, takenAfter, if_pos ha]
          rfl
        rw [hstep]
        refine Inv.of_disk hwf ?_
        intro st hp _
        rw [persisted, ← hdir, ← statePath] at hp
        rw [← hdir]
        -- a chunk more than `state.json` lists does no harm
        rcases hst with hst | hst
        · rw [hst, hl.persisted, Option.bind_some, Codec.fromSlice_toVec, Option.some.injEq] at hp
          subst hp
          exact ⟨_, hd', hb.write ha⟩
        · rw [hst, Option.bind_some, Codec.fromSlice_toVec, Option.some.injEq] at hp
          subst hp
          exact ⟨_, hd', hb.record ha⟩
      · obtain ⟨e, he⟩ := writeChunk_of_not_accepts X ha
        have hstep : m.step X name (.kill (.writeChunk index plaintext) (n + 1))
            = ⟨m.disk, none, m.taken⟩ := by
          simp only [step, Call.prog, pure_eq, hs, evalN_bind_ret, he, takenAfter, if_neg ha]
          simp
        rw [hstep]
        exact hi.dead

theorem Inv.kill_finalizeFile {m : Machine} (hi : m.Inv X name) {outDir dest : String} {n : Nat}
    (hw : ¬ Window X name m.disk (.finalizeFile outDir dest) n) :
    (m.step X name (.kill (.finalizeFile outDir dest) n)).Inv X name := by
  obtain _ | n := n
  · simpa [step] using hi.dead
  cases hs : m.store with
  | none => simpa [step, Call.prog, takenAfter, hs] using hi.dead
  | some s =>
      obtain ⟨hdir, hl, data, hd, -⟩ := hi.live s hs
      obtain ⟨fs', he⟩ : ∃ fs', ((finalizeFile s outDir dest).evalN X.handle (n + 1) m.disk).2 = fs' := ⟨_, rfl⟩
      have hstep : m.step X name (.kill (.finalizeFile outDir dest) (n + 1)) = ⟨fs', none, m.taken⟩ := by
        simp only [step, Call.prog, pure_eq, hs, evalN_bind_ret, he, takenAfter, ite_self]
      rw [hstep]
      cases hdest : m.disk.dirs dest with
      | true =>
          rw [stopped_finalizeFile_of_dir hd outDir hdest] at he
          exact he ▸ hi.dead
      | false =>
      obtain ⟨fs', rfl, hwf, hst⟩ := stopped_finalizeFile hl hd outDir hdest n
      rw [he] at hwf hst
      refine Inv.of_disk hwf ?_
      intro st hp hne
      rw [statePath, hdir] at hst
      -- `state.json` is gone; else this were the window
      split at hst
      · rw [persisted, hst] at hp
        cases hp
      · next hin =>
          rw [persisted_congr hst] at hp
          exact absurd ⟨st, hp, hne, by omega, hdest, hin⟩ hw

theorem Inv.kill_cleanup {m : Machine} (hi : m.Inv X name) {n : Nat}
    (hw : ¬ Window X name m.disk .cleanup n) : (m.step X name (.kill .cleanup n)).Inv X name := by
  cases hs : m.store with
  | none => simpa [step, Call.prog, takenAfter, hs] using hi.dead
  | some s =>
      obtain ⟨hdir, hl, -⟩ := hi.live s hs
      obtain ⟨fs', he, hwf, hgone⟩ := stopped_removeDirAll (X := X) hl.wf hl.dir n
      have hstep : m.step X name (.kill .cleanup n) = ⟨fs', none, m.taken⟩ := by
        simp only [step, Call.prog, pure_eq, hs, Store.cleanup, evalN_bind_ret, he, takenAfter,
          ite_self]
      rw [hstep]
      refine Inv.of_disk hwf ?_
      intro st hp hne
      rw [hdir] at hgone
      have hst := hgone .stateJson
      -- the same, if the data has been removed before it
      split at hst
      · rw [persisted, hst] at hp
        cases hp
      · next hin =>
          rw [persisted_congr hst] at hp
          obtain ⟨data, hd, hb⟩ := hi.disk st hp hne
          refine ⟨data, ?_, hb⟩
          rw [hgone .data, if_neg (fun hin' => hw ⟨st, hp, hne, hin', hin⟩), hd]

theorem Inv.relist {m : Machine} (hi : m.Inv X name) (order : List StagedFile) :
    (m.step X name (.relist order)).Inv X name := by
  rw [step]
  split
  · next ho =>
      refine ⟨⟨hi.wf.bound, hi.wf.inj, hi.wf.inDir, ho⟩, hi.disk, ?_⟩
      intro s hs
      obtain ⟨hdir, hl, hrest⟩ := hi.live s hs
      exact ⟨hdir, ⟨⟨hl.wf.bound, hl.wf.inj, hl.wf.inDir, ho⟩, hl.dir, hl.file, hl.persisted, hl.tmp⟩,
        hrest⟩
  · exact hi

/-- One event keeps the invariant. -/
theorem Inv.step {m : Machine} (hi : m.Inv X name) {e : Event} (hm : e.Meets X name m) :
    (m.step X name e).Inv X name := by
  cases e with
  | call c => exact hi.call hm
  | kill c n =>
      cases c with
      | openOrCreate transferId totalSize chunkSize => exact hi.kill_openOrCreate hm.1 hm.2
      | writeChunk index plaintext => exact hi.kill_writeChunk index plaintext n
      | finalizeFile outDir dest => exact hi.kill_finalizeFile hm.2
      | cleanup => exact hi.kill_cleanup hm.2
  | relist order => exact hi.relist order

/-- … and so does a run. -/
theorem Inv.run {m : Machine} (hi : m.Inv X name) {es : List Event} (hm : m.AllMeet X name es) :
    (m.run X name es).Inv X name := by
  induction es generalizing m with
  | nil => exact hi
  | cons e es ih => exact ih (hi.step hm.1) hm.2

/-- On a disk that meets the invariant, whatever `open_or_create` resumes is backed. -/
theorem Inv.resumes {m : Machine} (hi : m.Inv X name) (transferId : String) (totalSize : Nat)
    {chunkSize : Nat} (hc : 0 < chunkSize) : m.Resumes X name transferId totalSize chunkSize := by
  intro s fs' hrun i hmem
  by_cases hmakes : m.disk.Makes (stagingDir name)
  swap
  · rw [eval_openOrCreate_of_file X hmakes] at hrun
    cases hrun
  obtain ⟨h, fs'', he, -, hd, -⟩ := eval_openOrCreate X hi.wf hmakes transferId totalSize chunkSize
  rw [he, Prod.mk.injEq, Except.ok.injEq] at hrun
  obtain ⟨rfl, rfl⟩ := hrun
  obtain ⟨htid, hsize, hchunk⟩ := stateOn_geometry X name m.disk transferId totalSize
    chunkSize
  have hb := hi.backed_open transferId totalSize hc
  obtain ⟨hlt, hlast⟩ := hb.chunks i hmem
  refine ⟨hlt, _, hd, ?_⟩
  rw [htid, hchunk] at hlast
  -- resizing to the same length keeps every chunk
  rw [hlast, expectedLen_eq hb.chunkSize hlt]
  refine congrArg some (slice_eq_slice_of_min ?_)
  simp only [length_setLen, opened, hsize, hchunk]
  omega

end Machine

/-! ## The results -/

end B2p
