import B2p.Stream
import B2p.Store.Spec

/-!
# A transfer being staged

What the receivers of both paths have in common: a store opened for a manifest, live on a disk, with
bytes of the right kind for every chunk it lists.

* `startState`, `startData` — what a transfer of a manifest starts from on a given disk.
* `Staged` — the store during the transfer; opening it and writing chunks keeps it.
* `kept`, `Harmless` — what an attempt makes of the chunks it finds, and when that does no harm.
* `Resumes.data_eq` — when all chunks are there, the data file is made of what was staged before and of
  the source's content.
-/

namespace B2p

open Interaction Prog Fs

variable (X : Externals)

/-- The state a transfer of `m` starts with. -/
abbrev startState (m : Manifest) (fs : Fs) : State :=
  Store.stateOn X fs (Stream.safeName m.name) m.transferId m.totalSize m.chunkSize

/-- … and the data file it starts with. -/
abbrev startData (m : Manifest) (fs : Fs) : Bytes :=
  setLen 0 m.totalSize
    (Store.dataOn X fs (Stream.safeName m.name) m.transferId m.totalSize m.chunkSize)

/-- A store opened for `m`, live on `fs`, with bytes `want` allows for every listed chunk. -/
structure Staged (m : Manifest) (want : Nat → Bytes → Prop) (store : Store) (fs : Fs) : Prop where
  live : Store.Live X fs store
  dir : store.dir = stagingDir (Stream.safeName m.name)
  transferId : store.state.transferId = m.transferId
  totalSize : store.state.totalSize = m.totalSize
  chunkSize : store.state.chunkSize = m.chunkSize
  holds : ∃ data, fs.content store.dataPath = some data ∧ Store.Holds want data store.state

variable {X} {m : Manifest} {want : Nat → Bytes → Prop} {store : Store} {fs : Fs}

theorem Staged.totalChunks (h : Staged X m want store fs) : store.totalChunks = m.totalChunks := by
  rw [Store.totalChunks, Manifest.totalChunks, h.totalSize, h.chunkSize]

theorem Staged.lt (h : Staged X m want store fs) :
    ∀ i ∈ store.state.haves, i < store.totalChunks := by
  obtain ⟨data, -, hb⟩ := h.holds
  exact fun i hi => (hb.chunks i hi).1

theorem Staged.length_data (h : Staged X m want store fs) {data : Bytes}
    (hd : fs.content store.dataPath = some data) : data.length = m.totalSize := by
  obtain ⟨data', hd', hb⟩ := h.holds
  obtain rfl : data = data' := Option.some.inj (hd.symm.trans hd')
  rw [hb.length, h.totalSize]

/-- Opening the store for `m`: what is resumed has to hold already. -/
theorem Staged.open (hwf : fs.Wf) (hmakes : fs.Makes (stagingDir (Stream.safeName m.name)))
    (hb : Store.Holds want (startData X m fs) (startState X m fs)) :
    ∃ store fs', (Store.openOrCreate X (Stream.safeName m.name) m.transferId m.totalSize
        m.chunkSize).eval X.handle fs = (.ok store, fs') ∧
      Staged X m want store fs' ∧ store.state = startState X m fs ∧
      SameOutside (stagingDir (Stream.safeName m.name)) fs fs' := by
  obtain ⟨h, fs', heval, hlive, hd, hsame⟩ := Store.eval_openOrCreate X hwf hmakes
    m.transferId m.totalSize m.chunkSize
  have hgeo := Store.stateOn_geometry X (Stream.safeName m.name) fs m.transferId
    m.totalSize m.chunkSize
  exact ⟨_, fs', heval, ⟨hlive, rfl, hgeo.1, hgeo.2.1, hgeo.2.2, _, hd, hb⟩, rfl, hsame⟩

/-- A chunk of the expected length and content keeps the store staged. -/
theorem Staged.writeChunk (h : Staged X m want store fs) {i : Nat} {plaintext : Bytes}
    (hi : i < m.totalChunks)
    (hlen : plaintext.length = min m.chunkSize (m.totalSize - i * m.chunkSize))
    (hwant : want i plaintext) :
    ∃ fs', (store.writeChunk X i plaintext).eval X.handle fs = (.ok (.ok (), store.record i), fs') ∧
      Staged X m want (store.record i) fs' ∧ store.Accepts i plaintext ∧
      SameOutside (stagingDir (Stream.safeName m.name)) fs fs' := by
  obtain ⟨data, hd, hb⟩ := h.holds
  have hi' : i < store.totalChunks := h.totalChunks ▸ hi
  have hacc : store.Accepts i plaintext := by
    refine ⟨hi', ?_⟩
    rw [Store.expectedLen_eq hb.chunkSize hi', h.totalSize, h.chunkSize, hlen]
  obtain ⟨fs', heval, hlive, hd', hsame⟩ := Store.eval_writeChunk X h.live hd hacc
  exact ⟨fs', heval, ⟨hlive, h.dir, h.transferId, h.totalSize, h.chunkSize, _, hd',
    hb.record hacc (fun _ _ _ hw => hw) hwant⟩, hacc, h.dir ▸ hsame⟩

theorem Staged.isComplete (h : Staged X m want store fs)
    (hall : ∀ i < m.totalChunks, i ∈ store.state.haves) : store.isComplete = true := by
  rw [Store.isComplete, beq_iff_eq, SortedSet.card_eq_iff_forall_mem h.lt]
  exact fun i hi => hall i (h.totalChunks ▸ hi)

/-- The chunks below `total` that are not in `haves`, in order. -/
def missing (total : Nat) (haves : SortedSet Nat) : List Nat :=
  (List.range total).filter fun i => decide (i ∉ haves)

/-! ## The bytes of a complete transfer -/

/-- The bytes of chunk `i`. -/
def blockOf (m : Manifest) (content : Bytes) (i : Nat) : Bytes :=
  slice (i * m.chunkSize) m.chunkSize content

theorem length_blockOf {content : Bytes} (hsize : content.length = m.totalSize) (i : Nat) :
    (blockOf m content i).length = min m.chunkSize (m.totalSize - i * m.chunkSize) := by
  rw [blockOf, length_slice, hsize]

/-- Two files of the manifest's size that agree on every chunk are equal. -/
theorem eq_of_blockOf {content data : Bytes} (hc : 0 < m.chunkSize)
    (hsize : content.length = m.totalSize) (hdata : data.length = m.totalSize)
    (h : ∀ i < m.totalChunks, blockOf m data i = blockOf m content i) : data = content := by
  refine ext_of_blocks hc (hdata.trans hsize.symm) fun i hi => h i ?_
  rwa [Manifest.totalChunks, ← hdata]

/-- `b` is chunk `i` of `content`. -/
def PartOf (m : Manifest) (content : Bytes) (i : Nat) (b : Bytes) : Prop := b = blockOf m content i

/-- Once every chunk is staged, the data file is the content. -/
theorem Staged.data_eq {content : Bytes} (h : Staged X m (PartOf m content) store fs)
    (hsize : content.length = m.totalSize) (hall : ∀ i < m.totalChunks, i ∈ store.state.haves) :
    fs.content store.dataPath = some content := by
  obtain ⟨data, hd, hb⟩ := h.holds
  have hc : 0 < m.chunkSize := h.chunkSize ▸ hb.chunkSize
  have heq : data = content := by
    refine eq_of_blockOf hc hsize (h.length_data hd) fun i hi => ?_
    have hchunk := (hb.chunks i (hall i hi)).2
    rw [h.chunkSize] at hchunk
    exact hchunk
  rw [hd, heq]

/-- The bytes chunk `i` should have: those staged before for a chunk in `haves`, the source's for any
other. -/
def Mixed (m : Manifest) (haves : SortedSet Nat) (staged content : Bytes) (i : Nat) (b : Bytes) : Prop :=
  b = if i ∈ haves then blockOf m staged i else blockOf m content i

theorem mixed_new {haves : SortedSet Nat} {staged content : Bytes} {i : Nat} (hi : i ∉ haves) :
    Mixed m haves staged content i (blockOf m content i) := by
  rw [Mixed, if_neg hi]

/-- Whatever is staged, a transfer starts with it. -/
theorem holds_start (hc : 0 < m.chunkSize) (hlt : ∀ i ∈ (startState X m fs).haves, i < m.totalChunks)
    (content : Bytes) : Store.Holds (Mixed m (startState X m fs).haves (startData X m fs) content)
      (startData X m fs) (startState X m fs) := by
  have hgeo := Store.stateOn_geometry X (Stream.safeName m.name) fs m.transferId
    m.totalSize m.chunkSize
  refine ⟨by rw [hgeo.2.2]; exact hc, by rw [length_setLen, hgeo.2.1], ?_⟩
  intro i hi
  refine ⟨?_, ?_⟩
  · rw [hgeo.2.1, hgeo.2.2]
    exact hlt i hi
  · rw [Mixed, if_pos hi, hgeo.2.2, blockOf]

/-- The complete data file, chunk by chunk. -/
theorem Staged.blockOf_data {haves : SortedSet Nat} {staged content data : Bytes}
    (h : Staged X m (Mixed m haves staged content) store fs)
    (hall : ∀ i < m.totalChunks, i ∈ store.state.haves) (hd : fs.content store.dataPath = some data)
    {i : Nat} (hi : i < m.totalChunks) :
    blockOf m data i = if i ∈ haves then blockOf m staged i else blockOf m content i := by
  obtain ⟨data', hd', hb⟩ := h.holds
  obtain rfl : data = data' := Option.some.inj (hd.symm.trans hd')
  have hchunk := (hb.chunks i (hall i hi)).2
  rw [h.chunkSize] at hchunk
  exact hchunk

/-! ## Starting again from what a transfer left -/

theorem Staged.persisted (h : Staged X m want store fs) :
    Store.persisted X fs (Stream.safeName m.name) = some store.state := by
  have hpath : store.statePath = .staged (stagingDir (Stream.safeName m.name)) .stateJson := by
    rw [Store.statePath, h.dir]
  rw [Store.persisted, ← hpath, h.live.persisted]
  exact X.stateJson.fromSlice_toVec _

/-! ## What an attempt makes of what it finds -/

variable (X) in
/-- The staging directory holds a state of this very transfer, `st`. The data file may hold anything. -/
structure Resumes (m : Manifest) (fs : Fs) (st : State) : Prop where
  wf : fs.Wf
  persisted : Store.persisted X fs (Stream.safeName m.name) = some st
  transferId : st.transferId = m.transferId
  totalSize : st.totalSize = m.totalSize
  chunkSize : st.chunkSize = m.chunkSize
  listed : ∀ i ∈ st.haves, i < m.totalChunks

/-- What is in the data file. -/
def stagedBytes (m : Manifest) (fs : Fs) : Bytes :=
  (fs.content (.staged (stagingDir (Stream.safeName m.name)) .data)).getD []

/-- The file that an attempt to transfer `content` completes if it keeps the chunks `haves` of `staged`. -/
def kept (m : Manifest) (haves : SortedSet Nat) (staged content : Bytes) : Bytes :=
  (List.range m.totalSize).map fun j =>
    if j / m.chunkSize ∈ haves then staged.getD j 0 else content.getD j 0

variable (X) in
/-- What is staged does no harm: completed with the other chunks of `content`, it has the content's hash. -/
def Harmless (m : Manifest) (fs : Fs) (st : State) (content : Bytes) : Prop :=
  X.blake3 (kept m st.haves (stagedBytes m fs) content) = X.blake3 content

theorem length_kept (haves : SortedSet Nat) (staged content : Bytes) :
    (kept m haves staged content).length = m.totalSize := by
  simp [kept]

theorem getElem?_kept (haves : SortedSet Nat) (staged content : Bytes) (j : Nat) :
    (kept m haves staged content)[j]? = if j < m.totalSize then
      some (if j / m.chunkSize ∈ haves then staged.getD j 0 else content.getD j 0) else none := by
  rw [kept, List.getElem?_map]
  split
  · next hj => rw [List.getElem?_range hj, Option.map_some]
  · next hj => rw [List.getElem?_eq_none (by simpa using hj), Option.map_none]

/-- Chunk by chunk it is what `Mixed` says. -/
theorem blockOf_kept (hc : 0 < m.chunkSize) {haves : SortedSet Nat} {staged content : Bytes}
    (hstaged : staged.length = m.totalSize) (hsize : content.length = m.totalSize) (i : Nat) :
    blockOf m (kept m haves staged content) i
      = if i ∈ haves then blockOf m staged i else blockOf m content i := by
  have hget : ∀ l : Bytes, l.length = m.totalSize →
      ∀ j, (if j < m.totalSize then some (l.getD j 0) else none) = l[j]? := by
    intro l hl j
    split
    · next hj => rw [List.getD_eq_getElem?_getD, List.getElem?_eq_getElem (by omega)]; rfl
    · next hj => rw [List.getElem?_eq_none (by omega)]
  apply List.ext_getElem?
  intro j
  rw [blockOf, getElem?_slice, apply_ite (fun l : Bytes => l[j]?), blockOf, blockOf, getElem?_slice,
    getElem?_slice]
  by_cases hj : j < m.chunkSize
  · have hdiv : (i * m.chunkSize + j) / m.chunkSize = i := by
      rw [Nat.mul_comm, Nat.mul_add_div hc, Nat.div_eq_of_lt hj, Nat.add_zero]
    rw [if_pos hj, if_pos hj, if_pos hj, getElem?_kept, hdiv, ← hget staged hstaged, ← hget content hsize]
    split <;> split <;> rfl
  · rw [if_neg hj, if_neg hj, if_neg hj, ite_self]

theorem kept_setLen (haves : SortedSet Nat) (staged content : Bytes) :
    kept m haves (setLen 0 m.totalSize staged) content = kept m haves staged content := by
  refine List.map_congr_left fun j hj => ?_
  have hlt : j < m.totalSize := List.mem_range.mp hj
  have hget : (setLen 0 m.totalSize staged).getD j 0 = staged.getD j 0 := by
    rw [List.getD_eq_getElem?_getD, getElem?_setLen, if_pos hlt, Option.getD_some]
  rw [hget]

/-- A file of which every chunk is kept stays as it is. -/
theorem kept_of_all {haves : SortedSet Nat} (hc : 0 < m.chunkSize) (hall : ∀ i < m.totalChunks, i ∈ haves)
    {staged : Bytes} (hstaged : staged.length = m.totalSize) (content : Bytes) :
    kept m haves staged content = staged := by
  apply List.ext_getElem?
  intro j
  rw [getElem?_kept]
  split
  · next hj =>
      have hchunk : j / m.chunkSize ∈ haves := by
        refine hall _ ((lt_divCeil_iff hc).mpr ?_)
        exact (Nat.div_mul_le_self j m.chunkSize).trans_lt hj
      rw [if_pos hchunk, List.getD_eq_getElem?_getD, List.getElem?_eq_getElem (by omega)]
      rfl
  · next hj => rw [List.getElem?_eq_none (by omega)]

section resumes

variable {st : State}

/-- There is a state in the directory, so there is the directory. -/
theorem Resumes.makes (h : Resumes X m fs st) : fs.Makes (stagingDir (Stream.safeName m.name)) := by
  refine .inl (h.wf.inDir _ .stateJson ?_)
  have hp := h.persisted
  rw [Store.persisted, Option.bind_eq_some_iff] at hp
  obtain ⟨b, hb, -⟩ := hp
  rw [Fs.content, Option.map_eq_some_iff] at hb
  obtain ⟨i, hi, -⟩ := hb
  rw [hi]
  rfl

theorem Resumes.startState_eq (h : Resumes X m fs st) : startState X m fs = st := by
  rw [startState, Store.stateOn_eq, h.persisted]
  exact if_pos ⟨h.transferId, h.totalSize, h.chunkSize⟩

/-- It does not matter how the data file is brought to its length. -/
theorem Resumes.kept_startData (h : Resumes X m fs st) (content : Bytes) :
    kept m st.haves (startData X m fs) content = kept m st.haves (stagedBytes m fs) content := by
  have hstate := h.startState_eq
  rw [startState] at hstate
  rw [startData, kept_setLen, Store.dataOn, hstate]
  cases hempty : st.haves.isEmpty with
  | false => rfl
  | true =>
      -- nothing is kept
      have hnone : ∀ i, i ∉ st.haves := by
        rw [SortedSet.eq_empty_of_isEmpty hempty]
        exact fun i => SortedSet.not_mem_empty i
      refine List.map_congr_left fun j _ => ?_
      rw [if_neg (hnone _), if_neg (hnone _)]

theorem Resumes.holds (h : Resumes X m fs st) (hc : 0 < m.chunkSize) (content : Bytes) :
    Store.Holds (Mixed m (startState X m fs).haves (startData X m fs) content) (startData X m fs)
      (startState X m fs) := by
  refine holds_start hc ?_ content
  rw [h.startState_eq]
  exact h.listed

/-- **Whatever was staged, the complete data file is made of it and the content.** -/
theorem Resumes.data_eq {st₀ : State} {fs₀ : Fs} (h₀ : Resumes X m fs₀ st₀) {content : Bytes}
    (h : Staged X m (Mixed m (startState X m fs₀).haves (startData X m fs₀) content) store fs)
    (hsize : content.length = m.totalSize) (hall : ∀ i < m.totalChunks, i ∈ store.state.haves) :
    fs.content store.dataPath = some (kept m st₀.haves (stagedBytes m fs₀) content) := by
  obtain ⟨data, hd, hb⟩ := h.holds
  have hc : 0 < m.chunkSize := h.chunkSize ▸ hb.chunkSize
  have hstart : (startData X m fs₀).length = m.totalSize := length_setLen _ _ _
  have heq : data = kept m (startState X m fs₀).haves (startData X m fs₀) content := by
    refine eq_of_blockOf hc (length_kept _ _ _) (h.length_data hd) fun i hi => ?_
    rw [h.blockOf_data hall hd hi, blockOf_kept hc hstart hsize]
  rw [hd, heq, h₀.startState_eq, h₀.kept_startData]

/-- What an attempt leaves when it does not get further than staging. -/
theorem Staged.resumes (h : Staged X m want store fs) : Resumes X m fs store.state :=
  ⟨h.live.wf, h.persisted, h.transferId, h.totalSize, h.chunkSize, fun i hi => h.totalChunks ▸ h.lt i hi⟩

theorem Staged.stagedBytes_eq (h : Staged X m want store fs) {data : Bytes}
    (hd : fs.content store.dataPath = some data) : stagedBytes m fs = data := by
  rw [Store.dataPath, h.dir] at hd
  rw [stagedBytes, hd]
  rfl

/-- **Once everything is staged, another attempt makes the same file of it.** -/
theorem Staged.kept_again (h : Staged X m want store fs) {data : Bytes}
    (hd : fs.content store.dataPath = some data) (hall : ∀ i < m.totalChunks, i ∈ store.state.haves)
    (content : Bytes) : kept m store.state.haves (stagedBytes m fs) content = data := by
  obtain ⟨data', -, hb⟩ := h.holds
  rw [h.stagedBytes_eq hd]
  exact kept_of_all (h.chunkSize ▸ hb.chunkSize) hall (h.length_data hd) content

end resumes

/-! ## The end of a transfer

Both receivers hash the complete data file, compare, and only then move or unpack it. -/

/-- What both say when the hashes differ. -/
def hashMismatch : Anyhow := .msg "integrity check failed: hash mismatch"

/-- What is reported when an operation on the disk fails. -/
def FromDisk (e : Anyhow) : Prop := ∃ err, e = .io err ∨ ∃ text, e = .context text (.io err)

/-- No failure of the disk is reported as a hash mismatch. -/
theorem FromDisk.ne_hashMismatch {e : Anyhow} (h : FromDisk e) : e ≠ hashMismatch := by
  obtain ⟨err, rfl | ⟨text, rfl⟩⟩ := h <;> nofun

theorem failsWith_io {α : Type} (x : Except IoError α) : FailsWith FromDisk (io x) := by
  cases x with
  | ok a => trivial
  | error e => exact ⟨e, .inl rfl⟩

theorem failsWith_syscall (o : FsOp) : FailsWith FromDisk (syscall o) := fun _ => trivial

theorem failsWith_removeFiles (dir : String) (files : List StagedFile) :
    FailsWith FromDisk (Store.removeFiles dir files) := by
  induction files with
  | nil => trivial
  | cons f files ih =>
      exact .bind (failsWith_syscall _) fun _ => .bind (failsWith_io _) fun _ => ih

theorem failsWith_removeDirAll (dir : String) : FailsWith FromDisk (Store.removeDirAll dir) :=
  .bind (failsWith_syscall _) fun _ => .bind (failsWith_io _) fun _ =>
    .bind (failsWith_removeFiles _ _) fun _ => .bind (failsWith_syscall _) fun _ => failsWith_io _

theorem failsWith_finalizeFile (s : Store) (outDir name : String) :
    FailsWith FromDisk (s.finalizeFile outDir name) := by
  refine .bind (failsWith_syscall _) fun r => ?_
  split
  · next err => exact ⟨err, .inr ⟨_, rfl⟩⟩
  · exact failsWith_removeDirAll _

theorem failsWith_unpackTar (p : Path) : FailsWith FromDisk (Stream.unpackTar p) := by
  refine .bind (failsWith_syscall _) fun r => .bind (failsWith_io _) fun _ =>
    .bind (failsWith_syscall _) fun r => ?_
  split
  · next err => exact ⟨err, .inr ⟨_, rfl⟩⟩
  · trivial

theorem failsWith_persistState (s : Store) : FailsWith FromDisk (s.persistState X) :=
  .bind (failsWith_syscall _) fun _ => .bind (failsWith_io _) fun _ =>
    .bind (failsWith_syscall _) fun _ => failsWith_io _

theorem failsWith_openOrCreate (name transferId : String) (totalSize chunkSize : Nat) :
    FailsWith FromDisk (Store.openOrCreate X name transferId totalSize chunkSize) :=
  .bind (failsWith_syscall _) fun _ => .bind (failsWith_io _) fun _ => .bind (failsWith_syscall _) fun _ =>
    .bind (failsWith_syscall _) fun _ => .bind (failsWith_io _) fun _ => .bind (failsWith_syscall _) fun _ =>
      .bind (failsWith_io _) fun _ => .bind (failsWith_persistState _) fun _ => trivial

/-- `write_chunk` returns its errors. -/
theorem failsWith_writeChunk (F : Anyhow → Prop) (store : Store) (index : Nat) (plaintext : Bytes) :
    FailsWith F (store.writeChunk X index plaintext) := by
  by_cases hacc : store.Accepts index plaintext
  · rw [Store.writeChunk_of_accepts X hacc]
    rintro (e | u)
    · trivial
    · exact FailsWith.bind (.attempt _ _) fun _ => trivial
  · obtain ⟨e, he⟩ := Store.writeChunk_of_not_accepts X hacc
    rw [he]
    trivial

/-- A store that calls itself complete has every chunk. -/
theorem Staged.all_of_isComplete (h : Staged X m want store fs) (hc : store.isComplete = true) :
    ∀ i < m.totalChunks, i ∈ store.state.haves := by
  rw [Store.isComplete, beq_iff_eq, SortedSet.card_eq_iff_forall_mem h.lt] at hc
  exact fun i hi => hc i (h.totalChunks ▸ hi)

end B2p
