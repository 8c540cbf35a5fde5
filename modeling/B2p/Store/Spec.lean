import B2p.Store

/-!
# What the store's functions do

One lemma per function, about the contents of the staged files and of everything else. `Live` ties
an open `Store` to the disk it was opened on; every function but the two that remove the directory
keeps it.
-/

namespace B2p

open Interaction Prog Fs

/-! ## Directories and what they leave alone -/

namespace Fs

theorem Wf.setDir {fs : Fs} (hwf : fs.Wf) (dir : String) : (fs.setDir dir true).Wf := by
  refine ⟨hwf.bound, hwf.inj, ?_, hwf.order⟩
  intro d f hf
  show Function.update fs.dirs dir true d = true
  by_cases hd : d = dir
  · rw [hd, Function.update_self]
  · rw [Function.update_of_ne hd]
    exact hwf.inDir d f hf

@[simp] theorem content_setDir (fs : Fs) (dir : String) (b : Bool) (p : Path) :
    (fs.setDir dir b).content p = fs.content p := rfl

@[simp] theorem dirs_setDir (fs : Fs) (dir : String) (b : Bool) :
    (fs.setDir dir b).dirs dir = b := Function.update_self _ _ _

/-- Nothing outside the staging directory `dir` differs. -/
structure SameOutside (dir : String) (fs fs' : Fs) : Prop where
  content : ∀ p, (∀ f, p ≠ .staged dir f) → fs'.content p = fs.content p
  dirs : ∀ d, d ≠ dir → fs'.dirs d = fs.dirs d

theorem SameOutside.refl (dir : String) (fs : Fs) : SameOutside dir fs fs :=
  ⟨fun _ _ => rfl, fun _ _ => rfl⟩

theorem SameOutside.trans {dir : String} {a b c : Fs} (h : SameOutside dir a b)
    (h' : SameOutside dir b c) : SameOutside dir a c :=
  ⟨fun p hp => (h'.content p hp).trans (h.content p hp), fun d hd => (h'.dirs d hd).trans (h.dirs d hd)⟩

theorem sameOutside_setDir (fs : Fs) (dir : String) (b : Bool) : SameOutside dir fs (fs.setDir dir b) :=
  ⟨fun _ _ => rfl, fun _ hd => Function.update_of_ne hd _ _⟩

theorem Frame.sameOutside {dir : String} {fs fs' : Fs} {f : StagedFile}
    (h : Frame [.staged dir f] fs fs') : SameOutside dir fs fs' :=
  ⟨fun p hp => h.content p (by simpa using hp f), fun d _ => congrFun h.dirs d⟩

/-! ## What may be in the way -/

/-- The directory `dir` is there, or can be made. -/
def Makes (fs : Fs) (dir : String) : Prop := fs.dirs dir = true ∨ fs.files (.out dir) = none

/-- Nothing is in the way of a transfer of `name`: no directory has this name, and no file that of its
staging directory. -/
structure Clear (fs : Fs) (name : String) : Prop where
  dest : fs.dirs name = false
  staging : fs.files (.out (stagingDir name)) = none

theorem stagingDir_ne (name : String) : stagingDir name ≠ name := by
  intro h
  have hlen := congrArg String.length h
  rw [stagingDir, String.length_append] at hlen
  have hpos : 0 < ".b2p-partial".length := by decide
  omega

theorem Clear.makes {fs : Fs} {name : String} (h : fs.Clear name) : fs.Makes (stagingDir name) :=
  .inr h.staging

/-- A transfer puts its file in place, and makes and removes its staging directory: none of it gets in the
way of another. -/
theorem Clear.placed {fs fs' : Fs} {name : String} (h : fs.Clear name)
    (houts : ∀ n, n ≠ name → fs'.content (.out n) = fs.content (.out n))
    (hdirs : ∀ d, d ≠ stagingDir name → fs'.dirs d = fs.dirs d) : fs'.Clear name := by
  refine ⟨?_, ?_⟩
  · rw [hdirs name (stagingDir_ne name).symm]
    exact h.dest
  · rw [← content_eq_none_iff, houts _ (stagingDir_ne name), content_eq_none_iff]
    exact h.staging

theorem Clear.outside {fs fs' : Fs} {name : String} (h : fs.Clear name)
    (hsame : SameOutside (stagingDir name) fs fs') : fs'.Clear name :=
  h.placed (fun n _ => hsame.content _ (by simp)) hsame.dirs

theorem blank_clear (name : String) : blank.Clear name := ⟨rfl, rfl⟩

end Fs

variable (X : Externals)

/-- The store is open on `fs`: its handle is the file at `data`, and `state.json` holds its state. -/
structure Store.Live (fs : Fs) (s : Store) : Prop where
  wf : fs.Wf
  dir : fs.dirs s.dir = true
  file : fs.files s.dataPath = some s.file
  persisted : fs.content s.statePath = some (X.stateJson.toVec s.state)
  tmp : fs.content s.tmpPath = none

namespace Store

/-! ## Opening -/

/-- What `fs::read` answers, from the content of the file. -/
def readAnswer : Option Bytes → Except IoError Bytes
  | some b => .ok b
  | none => .error .notFound

theorem handle_createDirAll {fs : Fs} {dir : String} (h : fs.Makes dir) :
    X.handle (.createDirAll dir) fs = (.ok (), fs.setDir dir true) := by
  refine if_neg ?_
  rcases h with h | h <;> simp [h]

/-- A file in its place stays there. -/
theorem handle_createDirAll_of_file {fs : Fs} {dir : String} (h : ¬ fs.Makes dir) :
    X.handle (.createDirAll dir) fs = (.error .alreadyExists, fs) := by
  rw [Makes, not_or, Bool.not_eq_true, ← Ne, ← Option.isSome_iff_ne_none] at h
  exact if_pos (by rw [h.1, h.2]; rfl)

theorem handle_read (fs : Fs) (p : Path) :
    X.handle (.read p) fs = (readAnswer (fs.content p), fs) := by
  simp only [Externals.handle, Fs.handle]
  cases fs.content p <;> rfl

/-- The state `open_or_create` resumes or starts, as a function of the disk. -/
def stateOn (fs : Fs) (name transferId : String) (totalSize chunkSize : Nat) : State :=
  loadState X (readAnswer (fs.content (.staged (stagingDir name) .stateJson)))
    transferId totalSize chunkSize

/-- The state the directory's `state.json` decodes to. -/
def persisted (fs : Fs) (name : String) : Option State :=
  (fs.content (.staged (stagingDir name) .stateJson)).bind X.stateJson.fromSlice

section persisted

variable {X} {name : String}

theorem persisted_congr {fs fs' : Fs} (h : fs'.content (.staged (stagingDir name) .stateJson)
    = fs.content (.staged (stagingDir name) .stateJson)) : persisted X fs' name = persisted X fs name := by
  rw [persisted, persisted, h]

theorem stateOn_eq (fs : Fs) (transferId : String) (totalSize chunkSize : Nat) :
    stateOn X fs name transferId totalSize chunkSize = match persisted X fs name with
      | some st =>
          if st.transferId = transferId ∧ st.totalSize = totalSize ∧ st.chunkSize = chunkSize then st
          else freshState transferId totalSize chunkSize
      | none => freshState transferId totalSize chunkSize := by
  rw [stateOn, persisted]
  cases fs.content (.staged (stagingDir name) .stateJson) with
  | none => rfl
  | some b => rfl

variable (X name) in
theorem stateOn_geometry (fs : Fs) (transferId : String) (totalSize chunkSize : Nat) :
    (stateOn X fs name transferId totalSize chunkSize).transferId = transferId ∧
    (stateOn X fs name transferId totalSize chunkSize).totalSize = totalSize ∧
    (stateOn X fs name transferId totalSize chunkSize).chunkSize = chunkSize := by
  rw [stateOn_eq]
  split
  · split
    · next h => exact h
    · exact ⟨rfl, rfl, rfl⟩
  · exact ⟨rfl, rfl, rfl⟩

/-- A state that lists something was read from disk. -/
theorem persisted_of_stateOn {fs : Fs} {transferId : String} {totalSize chunkSize : Nat}
    (h : (stateOn X fs name transferId totalSize chunkSize).haves.isEmpty = false) :
    persisted X fs name = some (stateOn X fs name transferId totalSize chunkSize) := by
  rw [stateOn_eq] at h ⊢
  cases hp : persisted X fs name with
  | none => simp [hp, freshState] at h
  | some st =>
      rw [hp] at h
      dsimp only at h ⊢
      split
      · rfl
      · next hm =>
          rw [if_neg hm] at h
          simp [freshState] at h

end persisted

/-- The data file `open_or_create` goes on with, before it is brought to its length. -/
def dataOn (fs : Fs) (name transferId : String) (totalSize chunkSize : Nat) : Bytes :=
  if (stateOn X fs name transferId totalSize chunkSize).haves.isEmpty then []
  else (fs.content (.staged (stagingDir name) .data)).getD []

/-- The two calls of `persist_state`. -/
theorem persistState_calls {fs : Fs} (hwf : fs.Wf) {s : Store} (hdir : fs.dirs s.dir = true) :
    ∃ fs₁ fs₂ fs₃,
      X.handle (.writeFile s.tmpPath (X.stateJson.toVec s.state)) fs = (.ok (), fs₁) ∧
      X.handle (.rename s.tmpPath s.statePath) fs₁ = (.ok (), fs₃) ∧
      Sets fs fs₁ s.tmpPath (some (X.stateJson.toVec s.state)) ∧
      Sets fs₁ fs₂ s.tmpPath none ∧
      Sets fs₂ fs₃ s.statePath (some (X.stateJson.toVec s.state)) := by
  obtain ⟨fs₁, h₁, hs₁⟩ := handle_writeFile X.unpackTar hwf (p := s.tmpPath) hdir
    (X.stateJson.toVec s.state)
  obtain ⟨fs₂, fs₃, h₂, hs₂, hs₃⟩ := handle_rename X.unpackTar hs₁.wf hs₁.self (q := s.statePath)
    ((hs₁.room s.statePath).trans hdir)
  exact ⟨fs₁, fs₂, fs₃, h₁, h₂, hs₁, hs₂, hs₃⟩

/-- The store `open_or_create` returns, but for its handle. -/
def opened (fs : Fs) (name transferId : String) (totalSize chunkSize : Nat) (h : Handle) : Store where
  dir := stagingDir name
  file := h
  state := stateOn X fs name transferId totalSize chunkSize

/-- The two calls of `open_or_create` on the data file, with the disk after each. -/
theorem openOrCreate_calls {fs : Fs} (hwf : fs.Wf) (name transferId : String)
    (totalSize chunkSize : Nat) :
    ∃ h fs₁ fs₂,
      X.handle (.openRw (.staged (stagingDir name) .data)
        (stateOn X fs name transferId totalSize chunkSize).haves.isEmpty)
        (fs.setDir (stagingDir name) true) = (.ok h, fs₁) ∧
      X.handle (.setLen h totalSize) fs₁ = (.ok (), fs₂) ∧
      fs₂.files (.staged (stagingDir name) .data) = some h ∧
      Sets (fs.setDir (stagingDir name) true) fs₁ (.staged (stagingDir name) .data)
        (some (dataOn X fs name transferId totalSize chunkSize)) ∧
      Sets fs₁ fs₂ (.staged (stagingDir name) .data)
        (some (setLen 0 totalSize (dataOn X fs name transferId totalSize chunkSize))) := by
  obtain ⟨h, fs₁, h₁, hf, hs₁⟩ := handle_openRw X.unpackTar (hwf.setDir (stagingDir name))
    (p := .staged (stagingDir name) .data) (dirs_setDir _ _ _)
    (stateOn X fs name transferId totalSize chunkSize).haves.isEmpty
  refine ⟨h, fs₁, _, h₁, rfl, hf, hs₁, ?_⟩
  have hin : fs₁.inodes h = dataOn X fs name transferId totalSize chunkSize := by
    have := content_eq_some hf
    rw [hs₁.self] at this
    exact (Option.some.inj this).symm
  rw [← hin]
  exact Sets.setInode hs₁.wf hf _

/-- `persist_state` touches `state.json` and its temporary only. -/
theorem eval_persistState {fs : Fs} (hwf : fs.Wf) {s : Store} (hdir : fs.dirs s.dir = true) :
    ∃ fs', eval X.handle (persistState X s) fs = (.ok (), fs') ∧
      Frame [s.tmpPath, s.statePath] fs fs' ∧ fs'.content s.tmpPath = none ∧
      fs'.content s.statePath = some (X.stateJson.toVec s.state) := by
  obtain ⟨fs₁, fs₂, fs₃, h₁, h₂, hs₁, hs₂, hs₃⟩ := persistState_calls X hwf hdir
  refine ⟨fs₃, ?_, ?_, ?_, hs₃.self⟩
  · simp only [persistState, step_bind, ret_bind, eval_step, h₁, h₂, io_ok, eval_ret]
  · exact ((hs₁.toFrame.trans hs₂.toFrame).trans hs₃.toFrame).mono (by simp)
  · rw [hs₃.content _ (by simp [tmpPath, statePath]), hs₂.self]

theorem Live.of_persist {fs fs' : Fs} {s : Store} (hdir : fs.dirs s.dir = true)
    (hfile : fs.files s.dataPath = some s.file) (hfr : Frame [s.tmpPath, s.statePath] fs fs')
    (htmp : fs'.content s.tmpPath = none)
    (hst : fs'.content s.statePath = some (X.stateJson.toVec s.state)) : Live X fs' s :=
  ⟨hfr.wf, by rw [hfr.dirs, hdir],
    by rw [hfr.files _ (by simp [dataPath, tmpPath, statePath]), hfile], hst, htmp⟩

theorem Frame.sameOutside_persist {fs fs' : Fs} {s : Store}
    (hfr : Frame [s.tmpPath, s.statePath] fs fs') : SameOutside s.dir fs fs' :=
  ⟨fun p hp => hfr.content p (by simpa [tmpPath, statePath] using ⟨hp _, hp _⟩),
    fun d _ => congrFun hfr.dirs d⟩

/-- **`open_or_create` succeeds where its directory can be made**, and leaves the store live with the
state it loaded and a data file of the right length. -/
theorem eval_openOrCreate {fs : Fs} (hwf : fs.Wf) {name : String} (hmakes : fs.Makes (stagingDir name))
    (transferId : String) (totalSize chunkSize : Nat) :
    ∃ h fs', eval X.handle (openOrCreate X name transferId totalSize chunkSize) fs
        = (.ok (opened X fs name transferId totalSize chunkSize h), fs') ∧
      Live X fs' (opened X fs name transferId totalSize chunkSize h) ∧
      fs'.content (.staged (stagingDir name) .data)
        = some (setLen 0 totalSize (dataOn X fs name transferId totalSize chunkSize)) ∧
      SameOutside (stagingDir name) fs fs' := by
  obtain ⟨h, fs₁, fs₂, h₁, h₂, hf, hs₁, hs₂⟩ :=
    openOrCreate_calls X hwf name transferId totalSize chunkSize
  have hd₂ : fs₂.dirs (stagingDir name) = true := by
    rw [hs₂.dirs, hs₁.dirs, dirs_setDir]
  obtain ⟨fs₃, h₃, hfr, htmp, hst⟩ := eval_persistState X hs₂.wf
    (s := opened X fs name transferId totalSize chunkSize h) hd₂
  refine ⟨h, fs₃, ?_, Live.of_persist X hd₂ hf hfr htmp hst, ?_, ?_⟩
  · rw [openOrCreate, step_bind, eval_step_eq _ (handle_createDirAll X hmakes)]
    simp only [ret_bind, io_ok, step_bind]
    rw [eval_step_eq _ (handle_read X _ _), content_setDir, ← stateOn, eval_step_eq _ h₁]
    simp only [ret_bind, io_ok]
    rw [eval_step_eq _ h₂]
    exact eval_bind_ok _ h₃
  · rw [hfr.content _ (by simp [tmpPath, statePath, opened]), hs₂.self]
  · exact (((sameOutside_setDir fs _ true).trans hs₁.toFrame.sameOutside).trans
      hs₂.toFrame.sameOutside).trans (Frame.sameOutside_persist hfr)

/-- Where there is a file in the directory's place, it does nothing. -/
theorem eval_openOrCreate_of_file {fs : Fs} {name : String} (h : ¬ fs.Makes (stagingDir name))
    (transferId : String) (totalSize chunkSize : Nat) :
    eval X.handle (openOrCreate X name transferId totalSize chunkSize) fs
      = (.error (.io .alreadyExists), fs) := by
  rw [openOrCreate, step_bind, eval_step_eq _ (handle_createDirAll_of_file X h)]
  rfl

/-- A store that was opened has its directory. -/
theorem makes_of_openOrCreate {fs fs' : Fs} {name transferId : String} {totalSize chunkSize : Nat} {s : Store}
    (h : eval X.handle (openOrCreate X name transferId totalSize chunkSize) fs = (.ok s, fs')) :
    fs.Makes (stagingDir name) := by
  by_contra hno
  rw [eval_openOrCreate_of_file X hno] at h
  cases h

/-! ## Writing a chunk -/

/-- `write_chunk` takes the chunk: the index is in range and the length is the expected one. -/
def Accepts (s : Store) (index : Nat) (plaintext : Bytes) : Prop :=
  index < s.totalChunks ∧ plaintext.length = s.expectedLen index

instance (s : Store) (index : Nat) (plaintext : Bytes) : Decidable (s.Accepts index plaintext) :=
  inferInstanceAs (Decidable (_ ∧ _))

/-- The special case for the last chunk is the ordinary one: whatever is left, up to a chunk. -/
theorem expectedLen_eq {s : Store} {index : Nat} (hc : 0 < s.state.chunkSize)
    (hi : index < s.totalChunks) :
    s.expectedLen index = min s.state.chunkSize (s.state.totalSize - index * s.state.chunkSize) := by
  have hstart := (lt_divCeil_iff hc).mp hi
  rw [expectedLen]
  split
  -- a chunk before the last is whole, the last has what is left
  · next hlast =>
      have hnext : index + 1 < s.totalChunks := by omega
      have := (lt_divCeil_iff hc).mp hnext
      rw [Nat.succ_mul] at this
      omega
  · next hlast =>
      have hidx : s.totalChunks - 1 = index := by omega
      have hend := mt (lt_divCeil_iff (a := s.state.totalSize) hc).mpr
        (Nat.not_lt.mpr (show s.totalChunks ≤ index + 1 by omega))
      rw [Nat.succ_mul] at hend
      rw [hidx]
      omega

/-- An accepted chunk fits into a data file of the right length. -/
theorem Accepts.fits {s : Store} {index : Nat} {plaintext : Bytes} (h : s.Accepts index plaintext)
    (hc : 0 < s.state.chunkSize) :
    index * s.state.chunkSize + plaintext.length ≤ s.state.totalSize := by
  have hstart := (lt_divCeil_iff hc).mp h.1
  rw [h.2, expectedLen_eq hc h.1]
  omega

/-- The bytes of a chunk after an accepted write: the new ones at its own index, the old ones at any
other. -/
theorem Accepts.slice_overwrite {s : Store} {index : Nat} {plaintext data : Bytes}
    (h : s.Accepts index plaintext) (hc : 0 < s.state.chunkSize)
    (hlen : data.length = s.state.totalSize) (j : Nat) :
    slice (j * s.state.chunkSize) s.state.chunkSize
        (overwrite 0 (index * s.state.chunkSize) plaintext data)
      = if j = index then plaintext
        else slice (j * s.state.chunkSize) s.state.chunkSize data := by
  have hfits : index * s.state.chunkSize + plaintext.length ≤ data.length := hlen ▸ h.fits hc
  have hpt : plaintext.length
      = min s.state.chunkSize (s.state.totalSize - index * s.state.chunkSize) := by
    rw [h.2, expectedLen_eq hc h.1]
  split
  · next hj =>
      subst hj
      -- the chunk may be shorter than its slot
      have hall : slice (j * s.state.chunkSize) s.state.chunkSize
          (overwrite 0 (j * s.state.chunkSize) plaintext data)
          = slice (j * s.state.chunkSize) plaintext.length
            (overwrite 0 (j * s.state.chunkSize) plaintext data) := by
        refine slice_eq_slice_of_min ?_
        rw [length_overwrite hfits, hlen, hpt]
        omega
      rw [hall, slice_overwrite_same hfits]
  · next hj =>
      refine slice_overwrite_of_disjoint hfits ?_
      rcases block_disjoint s.state.chunkSize hj with hb | hb
      · exact .inl hb
      · exact .inr (by omega)

theorem writeChunk_of_not_accepts {s : Store} {index : Nat} {plaintext : Bytes}
    (h : ¬ s.Accepts index plaintext) : ∃ e, writeChunk X s index plaintext = ret (.error e, s) := by
  rw [writeChunk]
  split
  · exact ⟨_, rfl⟩
  · next hi =>
      rw [if_pos (fun hl => h ⟨Nat.lt_of_not_le hi, hl⟩)]
      exact ⟨_, rfl⟩

theorem writeChunk_of_accepts {s : Store} {index : Nat} {plaintext : Bytes}
    (h : s.Accepts index plaintext) :
    writeChunk X s index plaintext
      = .step (.writeAt s.file (index * s.state.chunkSize) plaintext) (fun r => match r with
        | .error e => ret (.error (.io e), s)
        | .ok () => (persistState X (s.record index)).attempt >>= fun persisted =>
            ret (persisted, s.record index)) := by
  rw [writeChunk, if_neg (Nat.not_le.mpr h.1), if_neg (not_not.mpr h.2)]
  rfl

/-- The write itself: the first of the three calls of `write_chunk`. -/
theorem writeAt_call {fs : Fs} {s : Store} (hl : Live X fs s) {data : Bytes}
    (hd : fs.content s.dataPath = some data) (off : Nat) (b : Bytes) :
    ∃ fs₁, X.handle (.writeAt s.file off b) fs = (.ok (), fs₁) ∧
      Sets fs fs₁ s.dataPath (some (overwrite 0 off b data)) ∧ fs₁.files s.dataPath = some s.file := by
  have hin : fs.inodes s.file = data := by
    rw [content_eq_some hl.file] at hd
    exact Option.some.inj hd
  refine ⟨_, rfl, ?_, hl.file⟩
  rw [← hin]
  exact Sets.setInode hl.wf hl.file _

/-- **An accepted chunk is written at its offset and recorded**, on disk and in memory. -/
theorem eval_writeChunk {fs : Fs} {s : Store} (hl : Live X fs s) {data : Bytes}
    (hd : fs.content s.dataPath = some data) {index : Nat} {plaintext : Bytes}
    (h : s.Accepts index plaintext) :
    ∃ fs', eval X.handle (writeChunk X s index plaintext) fs
        = (.ok (.ok (), s.record index), fs') ∧
      Live X fs' (s.record index) ∧
      fs'.content s.dataPath = some (overwrite 0 (index * s.state.chunkSize) plaintext data) ∧
      SameOutside s.dir fs fs' := by
  -- first the bytes, then the state that lists them
  obtain ⟨fs₁, h₁, hs₁, hf₁⟩ := writeAt_call X hl hd (index * s.state.chunkSize) plaintext
  have hd₁ : fs₁.dirs s.dir = true := by rw [hs₁.dirs, hl.dir]
  obtain ⟨fs₂, h₂, hfr, htmp, hst⟩ := eval_persistState X hs₁.wf (s := s.record index) hd₁
  refine ⟨fs₂, ?_, Live.of_persist X hd₁ hf₁ hfr htmp hst, ?_, ?_⟩
  · rw [writeChunk_of_accepts X h, eval_step_eq _ h₁]
    dsimp only
    rw [eval_bind, eval_attempt, h₂]
    rfl
  · rw [hfr.content _ (by simp [dataPath, tmpPath, statePath, record]), hs₁.self]
  · exact hs₁.toFrame.sameOutside.trans (Frame.sameOutside_persist hfr)

/-! ## What the staged bytes are

`want i b` says that `b` are bytes chunk `i` may have. -/

/-- The data file has its length, and holds for each listed chunk what it should. -/
structure Holds (want : Nat → Bytes → Prop) (data : Bytes) (st : State) : Prop where
  chunkSize : 0 < st.chunkSize
  length : data.length = st.totalSize
  chunks : ∀ i ∈ st.haves, i < divCeil st.totalSize st.chunkSize ∧
    want i (slice (i * st.chunkSize) st.chunkSize data)

section Holds

variable {want want' : Nat → Bytes → Prop} {data : Bytes}

theorem Holds.of_isEmpty {st : State} (hc : 0 < st.chunkSize) (hlen : data.length = st.totalSize)
    (he : st.haves.isEmpty = true) : Holds want data st :=
  ⟨hc, hlen, fun i hi => absurd hi (SortedSet.isEmpty_iff.mp he i)⟩

variable {s : Store} (hb : Holds want data s.state) {index : Nat} {plaintext : Bytes}
  (h : s.Accepts index plaintext) (hold : ∀ j b, j ≠ index → want j b → want' j b)
  (hnew : want' index plaintext)

include hb h hold hnew

/-- Writing an accepted chunk keeps what is listed. -/
theorem Holds.write :
    Holds want' (overwrite 0 (index * s.state.chunkSize) plaintext data) s.state := by
  refine ⟨hb.chunkSize, ?_, ?_⟩
  · rw [length_overwrite (hb.length ▸ h.fits hb.chunkSize), hb.length]
  · intro i hi
    refine ⟨(hb.chunks i hi).1, ?_⟩
    rw [h.slice_overwrite hb.chunkSize hb.length]
    split
    · next hii => exact hii ▸ hnew
    · next hii => exact hold i _ hii (hb.chunks i hi).2

/-- … and listing it as well. -/
theorem Holds.record :
    Holds want' (overwrite 0 (index * s.state.chunkSize) plaintext data) (s.record index).state := by
  have hw := hb.write h hold hnew
  refine ⟨hw.chunkSize, hw.length, ?_⟩
  intro i hi
  rcases SortedSet.mem_insert.mp hi with rfl | hi
  · refine ⟨h.1, ?_⟩
    show want' i (slice (i * s.state.chunkSize) s.state.chunkSize _)
    rw [h.slice_overwrite hb.chunkSize hb.length, if_pos rfl]
    exact hnew
  · exact hw.chunks i hi

end Holds

/-- What `open_or_create` goes on with, if what it may resume is there. -/
theorem holds_open {X : Externals} {fs : Fs} {name transferId : String} {totalSize chunkSize : Nat}
    {want : Nat → Bytes → Prop} (hc : 0 < chunkSize)
    (h : ∀ st, persisted X fs name = some st →
      (st.transferId = transferId ∧ st.totalSize = totalSize ∧ st.chunkSize = chunkSize) →
      st.haves.isEmpty = false →
      ∃ data, fs.content (.staged (stagingDir name) .data) = some data ∧ Holds want data st) :
    Holds want (setLen 0 totalSize (dataOn X fs name transferId totalSize chunkSize))
      (stateOn X fs name transferId totalSize chunkSize) := by
  have hgeo := stateOn_geometry X name fs transferId totalSize chunkSize
  cases he : (stateOn X fs name transferId totalSize chunkSize).haves.isEmpty with
  | true => exact Holds.of_isEmpty (by rw [hgeo.2.2]; exact hc) (by rw [length_setLen, hgeo.2.1]) he
  | false =>
      obtain ⟨data, hd, hb⟩ := h _ (persisted_of_stateOn he) hgeo he
      have hon : dataOn X fs name transferId totalSize chunkSize = data := by
        rw [dataOn, he, hd]
        rfl
      rw [hon, setLen_of_length (hb.length.trans hgeo.2.1)]
      exact hb

/-! ## Hashing -/

theorem eval_fileHash {fs : Fs} {s : Store} {data : Bytes} (hd : fs.content s.dataPath = some data) :
    eval X.handle (fileHash X s) fs = (.ok (X.blake3 data), fs) := by
  rw [fileHash, step_bind, eval_step_eq _ (handle_read X fs s.dataPath), hd]
  rfl

/-! ## Removing the directory -/

/-- The staging directory and everything in it are gone. -/
structure Gone (dir : String) (fs : Fs) : Prop where
  wf : fs.Wf
  noDir : fs.dirs dir = false
  files : ∀ f, fs.content (.staged dir f) = none

/-- Removing listed files that are all there, one by one. -/
theorem eval_removeFiles {fs : Fs} (hwf : fs.Wf) (dir : String) (files : List StagedFile)
    (hnd : files.Nodup) (hthere : ∀ f ∈ files, fs.content (.staged dir f) ≠ none) :
    ∃ fs', eval X.handle (removeFiles dir files) fs = (.ok (), fs') ∧
      Frame (files.map (.staged dir)) fs fs' ∧
      ∀ f ∈ files, fs'.content (.staged dir f) = none := by
  induction files generalizing fs with
  | nil => exact ⟨fs, rfl, Frame.refl hwf _, by simp⟩
  | cons f files ih =>
      rw [List.nodup_cons] at hnd
      obtain ⟨fs₁, h₁, hs₁⟩ :=
        handle_removeFile X.unpackTar hwf (hthere f List.mem_cons_self)
      -- the file removed first is none of the others
      have hkeep : ∀ g ∈ files, fs₁.content (.staged dir g) = fs.content (.staged dir g) := by
        intro g hg
        refine hs₁.content _ ?_
        simp only [List.mem_singleton, Path.staged.injEq, true_and]
        rintro rfl
        exact hnd.1 hg
      obtain ⟨fs₂, h₂, hfr, hgone⟩ := ih hs₁.wf hnd.2 (fun g hg => by
        rw [hkeep g hg]
        exact hthere g (List.mem_cons_of_mem _ hg))
      refine ⟨fs₂, ?_, (hs₁.toFrame.trans hfr).mono (by simp), ?_⟩
      · rw [removeFiles, step_bind, eval_step_eq _ h₁]
        exact h₂
      · intro g hg
        rcases List.mem_cons.mp hg with rfl | hg
        · rw [hfr.content _ (by simpa using hnd.1), hs₁.self]
        · exact hgone g hg

theorem mem_entries {fs : Fs} (hwf : fs.Wf) {dir : String} {f : StagedFile} :
    f ∈ fs.entries dir ↔ fs.content (.staged dir f) ≠ none := by
  have hall : f ∈ fs.order := hwf.order.mem_iff.mpr (by cases f <;> simp)
  rw [Fs.entries, List.mem_filter, Ne, content_eq_none_iff, Option.isSome_iff_ne_none]
  simp [hall]

theorem nodup_entries {fs : Fs} (hwf : fs.Wf) (dir : String) : (fs.entries dir).Nodup := by
  refine List.Nodup.filter _ ?_
  exact hwf.order.nodup_iff.mpr (by decide)

/-- The last call of `remove_dir_all`. -/
theorem removeDir_call {fs : Fs} (hwf : fs.Wf) {dir : String} (hdir : fs.dirs dir = true)
    (hnone : ∀ f, fs.content (.staged dir f) = none) :
    X.handle (.removeDir dir) fs = (.ok (), fs.setDir dir false) ∧ (fs.setDir dir false).Wf := by
  have hempty : fs.entries dir = [] := by
    rw [List.eq_nil_iff_forall_not_mem]
    exact fun f hf => (mem_entries hwf).mp hf (hnone f)
  refine ⟨by simp [Externals.handle, Fs.handle, hdir, hempty], hwf.bound, hwf.inj, ?_, hwf.order⟩
  intro d f hf
  by_cases hd : d = dir
  · subst hd
    have hno : fs.files (.staged d f) = none := content_eq_none_iff.mp (hnone f)
    rw [show (fs.setDir d false).files = fs.files from rfl, hno] at hf
    cases hf
  · show Function.update fs.dirs dir false d = true
    rw [Function.update_of_ne hd]
    exact hwf.inDir d f hf

/-- **`remove_dir_all` removes the directory and nothing else.** -/
theorem eval_removeDirAll {fs : Fs} (hwf : fs.Wf) {dir : String} (hdir : fs.dirs dir = true) :
    ∃ fs', eval X.handle (removeDirAll dir) fs = (.ok (), fs') ∧ Gone dir fs' ∧
      SameOutside dir fs fs' := by
  have hread : X.handle (.readDir dir) fs = (.ok (fs.entries dir), fs) := by
    simp [Externals.handle, Fs.handle, hdir]
  obtain ⟨fs₁, h₁, hfr, hgone⟩ := eval_removeFiles X hwf dir (fs.entries dir)
    (nodup_entries hwf dir) (fun f hf => (mem_entries hwf).mp hf)
  -- the directory is empty once what it lists is gone
  have hnone : ∀ f, fs₁.content (.staged dir f) = none := by
    intro f
    by_cases hf : f ∈ fs.entries dir
    · exact hgone f hf
    · rw [hfr.content _ (by simpa using hf)]
      exact not_not.mp (mt (mem_entries hwf).mpr hf)
  obtain ⟨hrm, hwf₁⟩ := removeDir_call X hfr.wf (hfr.dirs ▸ hdir) hnone
  refine ⟨fs₁.setDir dir false, ?_, ⟨hwf₁, dirs_setDir _ _ _, hnone⟩, ?_⟩
  · rw [removeDirAll, step_bind, eval_step_eq _ hread]
    simp only [ret_bind, io_ok]
    rw [eval_bind_ok _ h₁, step_bind, eval_step_eq _ hrm]
    rfl
  · refine SameOutside.trans ⟨fun p hp => hfr.content p ?_, fun d _ => congrFun hfr.dirs d⟩
      (sameOutside_setDir fs₁ dir false)
    rw [List.mem_map]
    rintro ⟨f, _, rfl⟩
    exact hp f rfl

/-- **`finalize_file` moves the staged bytes into place and removes the directory**, if there is no
directory in the file's place. -/
theorem eval_finalizeFile {fs : Fs} {s : Store} (hl : Live X fs s) {data : Bytes}
    (hd : fs.content s.dataPath = some data) (outDir : String) {name : String} (hdest : fs.dirs name = false) :
    ∃ fs', eval X.handle (finalizeFile s outDir name) fs = (.ok (), fs') ∧ Gone s.dir fs' ∧
      fs'.content (.out name) = some data ∧
      (∀ n, n ≠ name → fs'.content (.out n) = fs.content (.out n)) ∧
      ∀ d, d ≠ s.dir → fs'.dirs d = fs.dirs d := by
  have hroom : fs.room (.out name) = true := by rw [room, hdest]; rfl
  obtain ⟨fs₁, fs₂, h₁, hs₁, hs₂⟩ := handle_rename X.unpackTar hl.wf hd (q := .out name) hroom
  have hdir : fs₂.dirs s.dir = true := by rw [hs₂.dirs, hs₁.dirs, hl.dir]
  obtain ⟨fs₃, h₃, hgone, hsame⟩ := eval_removeDirAll X hs₂.wf hdir
  refine ⟨fs₃, ?_, hgone, ?_, ?_, ?_⟩
  · rw [finalizeFile, step_bind, eval_step_eq _ h₁]
    exact h₃
  · rw [hsame.content _ (by simp), hs₂.self]
  · intro n hn
    rw [hsame.content _ (by simp), hs₂.content _ (by simpa using hn), hs₁.content _ (by simp [dataPath])]
  · intro d hd
    rw [hsame.dirs d hd, hs₂.dirs, hs₁.dirs]

/-- Onto a directory nothing is moved. -/
theorem eval_finalizeFile_of_dir {fs : Fs} {s : Store} {data : Bytes} (hd : fs.content s.dataPath = some data)
    (outDir : String) {name : String} (hdest : fs.dirs name = true) :
    eval X.handle (finalizeFile s outDir name) fs = (.error (.context
      ("moving download into place at " ++ joinPath outDir name) (.io .isDirectory)), fs) := by
  have hrename : X.handle (.rename s.dataPath (.out name)) fs = (.error .isDirectory, fs) :=
    handle_rename_of_dir X.unpackTar hd hdest
  rw [finalizeFile, step_bind, eval_step_eq _ hrename]
  rfl

/-- With the name free of a directory or not, these are all its outcomes. -/
theorem finalizeFile_cases {fs fs' : Fs} {s : Store} (hl : Live X fs s) {data : Bytes}
    (hd : fs.content s.dataPath = some data) {outDir name : String} {r : Except Anyhow Unit}
    (he : eval X.handle (finalizeFile s outDir name) fs = (r, fs')) :
    (r = .ok () ∧ fs.dirs name = false ∧ Gone s.dir fs' ∧ fs'.content (.out name) = some data) ∨
      ((∃ e, r = .error e) ∧ fs' = fs) := by
  cases hdest : fs.dirs name with
  | false =>
      obtain ⟨fs₁, h₁, hgone, hout, -⟩ := eval_finalizeFile X hl hd outDir hdest
      rw [h₁, Prod.mk.injEq] at he
      obtain ⟨rfl, rfl⟩ := he
      exact .inl ⟨rfl, rfl, hgone, hout⟩
  | true =>
      rw [eval_finalizeFile_of_dir X hd outDir hdest, Prod.mk.injEq] at he
      obtain ⟨rfl, rfl⟩ := he
      exact .inr ⟨⟨_, rfl⟩, rfl⟩

end Store
end B2p
