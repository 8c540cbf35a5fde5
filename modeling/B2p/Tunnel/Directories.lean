import B2p.Tunnel.Requests
import B2p.Lib.Rely

/-!
# Staging directories side by side

Several handlers at once, each in a staging directory of its own. A handler relies on the others to
leave its directory alone, and under the lock also the files of the output directory; in return it
stays within its directory.

* `Fs.View`, `Fs.Calm` — what a handler relies on; `Fs.Within` — what it promises.
* `Lodged`, `Backed` — the store of an active transfer, and a staging directory nobody is in.
* `among_openOrCreate`, `among_writeChunk`, `among_finalize` — the store's functions, with others at
  work between any two of their calls.
-/

namespace B2p

open Interaction Prog

/-! ## Staging directories side by side -/

namespace Fs

/-- The staging directory `dir` and its files are as they were. -/
structure View (dir : String) (fs fs' : Fs) : Prop where
  wf : fs'.Wf
  dirs : fs.dirs dir = true → fs'.dirs dir = true
  files : ∀ f, fs'.files (.staged dir f) = fs.files (.staged dir f)
  content : ∀ f, fs'.content (.staged dir f) = fs.content (.staged dir f)

/-- … and with the lock, so are the files of the output directory. -/
structure Calm (held : Bool) (dir : String) (fs fs' : Fs) : Prop extends View dir fs fs' where
  outs : held = true → ∀ name, fs'.content (.out name) = fs.content (.out name)

/-- The operation stays within the staging directory `dir`. With the lock a file may be moved out of
it, and an archive be unpacked. -/
def Within (held : Bool) (dir : String) (fs : Fs) : FsOp → Prop
  | .createDirAll _ | .pathExists _ => False
  | .read _ | .readDir _ => True
  | .openRw p _ | .writeFile p _ | .removeFile p => ∃ f, p = .staged dir f
  | .setLen h _ | .writeAt h _ _ => fs.files (.staged dir .data) = some h
  | .rename p q => (∃ f, p = .staged dir f) ∧
      ((∃ f, q = .staged dir f) ∨ (held = true ∧ ∃ name, q = .out name))
  | .removeDir d => d = dir
  | .unpackTar _ => held = true

/-- An archive that leaves the staging directories alone. -/
def StagingKept (fs fs' : Fs) : Prop := ∀ dir, View dir fs fs'

section View

variable {dir dir' : String} {fs fs' fs'' : Fs} {held : Bool} {o : FsOp}

theorem View.refl (hwf : fs.Wf) : View dir fs fs := ⟨hwf, id, fun _ => rfl, fun _ => rfl⟩

theorem View.trans (h : View dir fs fs') (h' : View dir fs' fs'') : View dir fs fs'' :=
  ⟨h'.wf, h'.dirs ∘ h.dirs, fun f => (h'.files f).trans (h.files f),
    fun f => (h'.content f).trans (h.content f)⟩

theorem Calm.refl (hwf : fs.Wf) : Calm held dir fs fs := ⟨.refl hwf, fun _ _ => rfl⟩

theorem Calm.trans (h : Calm held dir fs fs') (h' : Calm held dir fs' fs'') :
    Calm held dir fs fs'' :=
  ⟨h.toView.trans h'.toView, fun hh name => (h'.outs hh name).trans (h.outs hh name)⟩

/-- A handle on one staged file is not one on any other file. -/
theorem Wf.not_handle (hwf : fs.Wf) {p q : Path} {h : Handle} (hp : fs.files p = some h) (hne : q ≠ p) :
    fs.files q ≠ some h :=
  fun hq => hne (hwf.inj _ _ _ hq hp)

/-- An operation within one staging directory spares the files of the others. -/
theorem Within.spares_staged (h : Within held dir fs o) (hwf : fs.Wf) (hne : dir ≠ dir')
    (hno : ∀ p, o ≠ .unpackTar p) (f : StagedFile) : Spares (.staged dir' f) fs o := by
  have hpath : ∀ g, (Path.staged dir g) ≠ .staged dir' f := by
    rintro g ⟨⟩
    exact hne rfl
  cases o with
  | createDirAll d => trivial
  | read p => trivial
  | openRw p truncate =>
      obtain ⟨g, rfl⟩ := h
      exact hpath g
  -- an open file of this directory is no file of another
  | setLen h' n => exact hwf.not_handle h (hpath _).symm
  | writeAt h' off b => exact hwf.not_handle h (hpath _).symm
  | writeFile p b =>
      obtain ⟨g, rfl⟩ := h
      exact hpath g
  -- from a staged file, to a staged one or out of the directory
  | rename p q =>
      obtain ⟨⟨g, rfl⟩, ⟨g', rfl⟩ | ⟨-, name, rfl⟩⟩ := h
      · exact ⟨hpath g, hpath g'⟩
      · exact ⟨hpath g, nofun⟩
  | readDir d => trivial
  | removeFile p =>
      obtain ⟨g, rfl⟩ := h
      exact hpath g
  | removeDir d => trivial
  | pathExists p => trivial
  | unpackTar p => exact absurd rfl (hno p)

/-- … and those of the output directory, but for the destination of a rename. -/
theorem Within.spares_out (h : Within held dir fs o) (hwf : fs.Wf) (hno : ∀ p, o ≠ .unpackTar p)
    {name : String} (hren : ∀ p, o ≠ .rename p (.out name)) : Spares (.out name) fs o := by
  cases o with
  | createDirAll d => trivial
  | read p => trivial
  | openRw p truncate =>
      obtain ⟨g, rfl⟩ := h
      exact nofun
  | setLen h' n => exact hwf.not_handle h nofun
  | writeAt h' off b => exact hwf.not_handle h nofun
  | writeFile p b =>
      obtain ⟨g, rfl⟩ := h
      exact nofun
  -- the one way out, and it leads to another name
  | rename p q =>
      obtain ⟨⟨g, rfl⟩, -⟩ := h
      refine ⟨nofun, ?_⟩
      rintro rfl
      exact hren _ rfl
  | readDir d => trivial
  | removeFile p =>
      obtain ⟨g, rfl⟩ := h
      exact nofun
  | removeDir d => trivial
  | pathExists p => trivial
  | unpackTar p => exact absurd rfl (hno p)

/-- Only removing a directory makes one disappear. -/
theorem handle_dirs (unpack : Bytes → Fs → Except IoError Unit × Fs) (hno : ∀ p, o ≠ .unpackTar p)
    (hdir : o ≠ .removeDir dir) (h : fs.dirs dir = true) : (handle unpack o fs).2.dirs dir = true := by
  cases o with
  | createDirAll d =>
      unfold handle
      dsimp only
      split
      · exact h
      · show Function.update fs.dirs d true dir = true
        by_cases hd : dir = d
        · rw [hd, Function.update_self]
        · rw [Function.update_of_ne hd, h]
  -- only this takes a directory away
  | removeDir d =>
      have hd : dir ≠ d := fun heq => hdir (by rw [heq])
      unfold handle
      dsimp only
      split
      · split
        · show Function.update fs.dirs d false dir = true
          rw [Function.update_of_ne hd, h]
        · exact h
      · exact h
  | unpackTar p => exact absurd rfl (hno p)
  | read p =>
      unfold handle
      dsimp only
      split <;> exact h
  | openRw p truncate =>
      unfold handle
      dsimp only
      split
      · split
        · split <;> exact h
        · exact h
      · exact h
  | setLen h' n => exact h
  | writeAt h' off b => exact h
  | writeFile p b =>
      unfold handle
      dsimp only
      split
      · split <;> exact h
      · exact h
  | rename p q =>
      unfold handle
      dsimp only
      split
      · split <;> exact h
      · exact h
  | readDir d =>
      unfold handle
      dsimp only
      split <;> exact h
  | removeFile p =>
      unfold handle
      dsimp only
      split <;> exact h
  | pathExists p => exact h

/-- **What one handler does within its staging directory, the others do not see.** -/
theorem Within.view (h : Within held dir fs o) (hwf : fs.Wf) (hne : dir ≠ dir')
    (unpack : Bytes → Fs → Except IoError Unit × Fs)
    (hapart : ∀ p, o = .unpackTar p → StagingKept fs (handle unpack o fs).2) :
    View dir' fs (handle unpack o fs).2 := by
  by_cases hun : ∃ p, o = .unpackTar p
  · obtain ⟨p, hp⟩ := hun
    exact hapart p hp dir'
  · have hno : ∀ p, o ≠ .unpackTar p := fun p hp => hun ⟨p, hp⟩
    have hkeeps := fun f => handle_keeps unpack hwf (h.spares_staged hwf hne hno f)
    refine ⟨(hkeeps .data).wf, handle_dirs unpack hno ?_, fun f => (hkeeps f).files,
      fun f => (hkeeps f).content⟩
    rintro rfl
    exact hne (show dir' = dir from h).symm

/-- Without the lock nothing changes in the output directory. -/
theorem Within.outs (h : Within false dir fs o) (hwf : fs.Wf)
    (unpack : Bytes → Fs → Except IoError Unit × Fs) (name : String) :
    (handle unpack o fs).2.content (.out name) = fs.content (.out name) := by
  have hno : ∀ p, o ≠ .unpackTar p := by
    rintro p rfl
    cases h
  have hren : ∀ p, o ≠ .rename p (.out name) := by
    rintro p rfl
    obtain ⟨-, ⟨f, hf⟩ | ⟨hh, -⟩⟩ := h
    · cases hf
    · cases hh
  exact (handle_keeps unpack hwf (h.spares_out hwf hno hren)).content

end View
end Fs

namespace Server

open Fs

variable (X : Externals) (want : Manifest → Nat → Bytes → Prop)

/-! ## What is staged -/

/-- `want` looks at a manifest for the identity and the geometry of the transfer only. -/
def Coherent : Prop :=
  ∀ m m' : Manifest, stagingDir (Stream.safeName m.name) = stagingDir (Stream.safeName m'.name) →
    m.transferId = m'.transferId → m.totalSize = m'.totalSize → m.chunkSize = m'.chunkSize →
    want m = want m'

/-- The store of an active transfer: live, and with bytes `want` allows for every listed chunk. -/
structure Lodged (active : ActiveTransfer) (fs : Fs) : Prop where
  live : Store.Live X fs active.store
  dir : active.store.dir = active.dir
  transferId : active.store.state.transferId = active.manifest.transferId
  totalSize : active.store.state.totalSize = active.manifest.totalSize
  chunkSize : active.store.state.chunkSize = active.manifest.chunkSize
  holds : 0 < active.manifest.chunkSize → ∃ data, fs.content active.store.dataPath = some data ∧
    Store.Holds (want active.manifest) data active.store.state

/-- Whatever transfer is started in the staging directory `dir` starts with chunks `want` allows. -/
def Backed (dir : String) (fs : Fs) : Prop :=
  ∀ m : Manifest, stagingDir (Stream.safeName m.name) = dir → 0 < m.chunkSize →
    Store.Holds (want m) (startData X m fs) (startState X m fs)

section staged

variable {X want} {active : ActiveTransfer} {dir : String} {fs fs' : Fs}

theorem Lodged.path (h : Lodged X want active fs) (f : StagedFile) :
    Path.staged active.store.dir f = .staged active.dir f := by
  rw [h.dir]

theorem Lodged.view (h : Lodged X want active fs) (hv : View active.dir fs fs') :
    Lodged X want active fs' := by
  have hcontent : ∀ f, fs'.content (.staged active.store.dir f)
      = fs.content (.staged active.store.dir f) := by
    intro f
    rw [h.path f]
    exact hv.content f
  refine ⟨⟨hv.wf, ?_, ?_, ?_, ?_⟩, h.dir, h.transferId, h.totalSize, h.chunkSize, ?_⟩
  · have hdir := h.live.dir
    rw [h.dir] at hdir ⊢
    exact hv.dirs hdir
  · have hfile := h.live.file
    rw [Store.dataPath, h.path] at hfile ⊢
    rw [hv.files, hfile]
  · rw [Store.statePath, hcontent]
    exact h.live.persisted
  · rw [Store.tmpPath, hcontent]
    exact h.live.tmp
  · intro hc
    obtain ⟨data, hd, hb⟩ := h.holds hc
    exact ⟨data, (hcontent .data).trans hd, hb⟩

theorem Lodged.staged (h : Lodged X want active fs) (hc : 0 < active.manifest.chunkSize) :
    Staged X active.manifest (want active.manifest) active.store fs :=
  ⟨h.live, h.dir, h.transferId, h.totalSize, h.chunkSize, h.holds hc⟩

/-- What a transfer starts with depends on its staging directory only. -/
theorem start_congr {m : Manifest} (hv : View (stagingDir (Stream.safeName m.name)) fs fs') :
    startState X m fs' = startState X m fs ∧ startData X m fs' = startData X m fs := by
  have hstate : startState X m fs' = startState X m fs := by
    unfold startState Store.stateOn
    rw [show fs'.content _ = _ from hv.content .stateJson]
  refine ⟨hstate, ?_⟩
  unfold startData Store.dataOn
  unfold startState at hstate
  rw [hstate, show fs'.content _ = _ from hv.content .data]

theorem Backed.view (h : Backed X want dir fs) (hv : View dir fs fs') : Backed X want dir fs' := by
  rintro m rfl hc
  obtain ⟨hstate, hdata⟩ := start_congr (X := X) hv
  rw [hstate, hdata]
  exact h m rfl hc

/-- **A store that is put away can be resumed.** -/
theorem Lodged.backed (h : Lodged X want active fs) (hw : Coherent want) :
    Backed X want active.dir fs := by
  intro m hm hc
  refine Store.holds_open hc ?_
  intro st hst hgeo _
  have heq : st = active.store.state := by
    have hst' := hst
    rw [Store.persisted, show stagingDir (Stream.safeName m.name) = active.store.dir from
      (hm.trans h.dir.symm), show fs.content (.staged active.store.dir .stateJson) = _ from
      h.live.persisted] at hst'
    simpa using hst'.symm
  subst heq
  have hsame : want active.manifest = want m :=
    hw _ _ hm.symm (h.transferId.symm.trans hgeo.1) (h.totalSize.symm.trans hgeo.2.1)
      (h.chunkSize.symm.trans hgeo.2.2)
  obtain ⟨data, hd, hb⟩ := h.holds (by rw [← h.chunkSize, hgeo.2.2]; exact hc)
  refine ⟨data, ?_, hsame ▸ hb⟩
  rw [show stagingDir (Stream.safeName m.name) = active.store.dir from hm.trans h.dir.symm]
  exact hd

/-- Where there is no `state.json`, a transfer starts from nothing. -/
theorem backed_of_none (h : fs.content (.staged dir .stateJson) = none) : Backed X want dir fs := by
  rintro m rfl hc
  refine Store.holds_open hc ?_
  intro st hst
  rw [Store.persisted, show fs.content _ = none from h] at hst
  cases hst

end staged

/-! ## The terms of a handler -/

/-- What a call does, archives being apart from the staging directories. -/
def diskWorld : World fsEffects Fs := fun o fs r fs' =>
  (r, fs') = X.handle o fs ∧ ∀ p, o = .unpackTar p → StagingKept fs fs'

/-- A handler on the disk, in the staging directory `dir`. -/
def diskTerms (held : Bool) (dir : String) : Terms fsEffects Fs where
  world := diskWorld X
  rely := Calm held dir
  may o fs := Within held dir fs o
  rely_trans := Calm.trans

/-- When a handler in `dir` releases the lock, what it puts into the slot is lodged, and the directory
can be resumed. -/
def terms (held : Bool) (dir : String) : Terms serverEffects Fs where
  world
    | .fs o, fs, r, fs' => diskWorld X o fs r fs'
    | _, fs, _, fs' => fs' = fs
  rely := Calm held dir
  may
    | .fs o, fs => Within held dir fs o
    | .unlock t, fs => (∀ active, t = some active → Lodged X want active fs) ∧ Backed X want dir fs
    | _, _ => True
  rely_trans := Calm.trans

section disk

variable {X want} {held : Bool} {dir : String} {fs : Fs} {α β : Type}

theorem among_onDisk {Q : Except Anyhow α → Fs → Prop} {p : FsProg α}
    (h : Among (diskTerms X held dir) Q p fs) : Among (terms X want held dir) Q (onDisk p) fs := by
  induction p generalizing fs with
  | ret a => exact h
  | fail e => exact h
  | step o k ih =>
      intro fs₁ hcalm
      exact ⟨(h fs₁ hcalm).1, fun r fs' hR => ih r ((h fs₁ hcalm).2 r fs' hR)⟩

/-- One call, whose answer is known once it is known what the others have left alone. -/
theorem among_call {Q : Except Anyhow α → Fs → Prop} {o : FsOp} {f : o.Res → FsProg α}
    (h : ∀ fs₁, Calm held dir fs fs₁ → ∃ r fs', X.handle o fs₁ = (r, fs') ∧ Within held dir fs₁ o ∧
      Among (diskTerms X held dir) Q (f r) fs') :
    Among (diskTerms X held dir) Q (syscall o >>= f) fs := by
  intro fs₁ hcalm
  obtain ⟨r, fs', heq, hin, hrest⟩ := h fs₁ hcalm
  refine ⟨hin, ?_⟩
  rintro r' fs'' ⟨hR, -⟩
  cases hR.trans heq
  exact hrest

/-- What `persist_state` leaves. -/
structure Persists (X : Externals) (s : Store) (fs fs' : Fs) : Prop where
  wf : fs'.Wf
  dirs : fs'.dirs s.dir = true
  file : fs'.files s.dataPath = fs.files s.dataPath
  data : fs'.content s.dataPath = fs.content s.dataPath
  state : fs'.content s.statePath = some (X.stateJson.toVec s.state)
  tmp : fs'.content s.tmpPath = none

theorem among_persistState {s : Store} (hdir : fs.dirs s.dir = true) :
    Among (diskTerms X held s.dir) (fun r fs' => r = .ok () ∧ Persists X s fs fs')
      (s.persistState X) fs := by
  apply among_call
  -- the directory is nobody else's, so it is as it was left, before each call
  intro fs₁ h₁
  obtain ⟨fs₂, heq₂, hset₂⟩ := handle_writeFile X.unpackTar h₁.wf (p := s.tmpPath) (h₁.dirs hdir)
    (X.stateJson.toVec s.state)
  refine ⟨_, fs₂, heq₂, ⟨_, rfl⟩, ?_⟩
  apply among_call
  intro fs₃ h₃
  have hdir₂ : fs₂.dirs s.dir = true := by rw [hset₂.dirs, h₁.dirs hdir]
  obtain ⟨fs₄, fs₅, heq₅, hset₄, hset₅⟩ := handle_rename X.unpackTar h₃.wf (p := s.tmpPath)
    ((h₃.content _).trans hset₂.self) (q := s.statePath) (h₃.dirs hdir₂)
  refine ⟨_, fs₅, heq₅, ⟨⟨_, rfl⟩, .inl ⟨_, rfl⟩⟩, rfl, ?_⟩
  have hne₁ : s.dataPath ∉ [s.tmpPath] := by simp [Store.dataPath, Store.tmpPath]
  have hne₂ : s.dataPath ∉ [s.statePath] := by simp [Store.dataPath, Store.statePath]
  -- `state.json` is new, the data file the same
  refine ⟨hset₅.wf, ?_, ?_, ?_, hset₅.self, ?_⟩
  · rw [hset₅.dirs, hset₄.dirs, h₃.dirs hdir₂]
  · rw [hset₅.files _ hne₂, hset₄.files _ hne₁]
    exact (h₃.files _).trans ((hset₂.files _ hne₁).trans (h₁.files _))
  · rw [hset₅.content _ hne₂, hset₄.content _ hne₁]
    exact (h₃.content _).trans ((hset₂.content _ hne₁).trans (h₁.content _))
  · rw [hset₅.content _ (by simp [Store.tmpPath, Store.statePath]), hset₄.self]

theorem Persists.live {s : Store} {fs' : Fs} (h : Persists X s fs fs')
    (hfile : fs.files s.dataPath = some s.file) : Store.Live X fs' s :=
  ⟨h.wf, h.dirs, h.file.trans hfile, h.state, h.tmp⟩

/-- The bytes behind a handle, from the file it was opened at. -/
theorem inodes_of_content {p : Path} {h : Handle} {b : Bytes} (hf : fs.files p = some h)
    (hc : fs.content p = some b) : fs.inodes h = b := by
  rw [content_eq_some hf] at hc
  exact Option.some.inj hc

/-- **Opening the store for `m`**, once its staging directory is there. -/
theorem among_openOrCreate {m : Manifest}
    (hb : Backed X want (stagingDir (Stream.safeName m.name)) fs)
    {k : Except IoError Unit → FsProg Store}
    (hk : Store.openOrCreate X (Stream.safeName m.name) m.transferId m.totalSize m.chunkSize
      = .step (.createDirAll (stagingDir (Stream.safeName m.name))) k) :
    Among (diskTerms X held (stagingDir (Stream.safeName m.name)))
      (fun r fs' => ∃ store, r = .ok store ∧ Lodged X want ⟨m, store⟩ fs') (k (.ok ()))
      (fs.setDir (stagingDir (Stream.safeName m.name)) true) := by
  cases hk
  apply among_call
  intro fs₁ h₁
  refine ⟨_, fs₁, Store.handle_read X fs₁ _, trivial, ?_⟩
  have hstate : Store.loadState X (Store.readAnswer (fs₁.content (.staged
      (stagingDir (Stream.safeName m.name)) .stateJson))) m.transferId m.totalSize m.chunkSize
      = startState X m fs := by
    rw [h₁.content .stateJson]
    rfl
  -- the state on disk decides whether the data is truncated
  rw [hstate]
  apply among_call
  intro fs₂ h₂
  have hd₂ : fs₂.dirs (stagingDir (Stream.safeName m.name)) = true := h₂.dirs (h₁.dirs (dirs_setDir _ _ _))
  obtain ⟨h, fs₃, heq₃, hf₃, hset₃⟩ := handle_openRw X.unpackTar h₂.wf
    (p := .staged (stagingDir (Stream.safeName m.name)) .data) hd₂ (startState X m fs).haves.isEmpty
  refine ⟨_, fs₃, heq₃, ⟨_, rfl⟩, ?_⟩
  apply among_call
  intro fs₄ h₄
  have hf₄ : fs₄.files (.staged (stagingDir (Stream.safeName m.name)) .data) = some h := (h₄.files _).trans hf₃
  -- the file behind the handle
  have hin : fs₄.inodes h = Store.dataOn X fs (Stream.safeName m.name) m.transferId m.totalSize
    m.chunkSize := by
    refine inodes_of_content hf₄ ?_
    rw [h₄.content, hset₃.self, h₂.content, h₁.content]
    rfl
  refine ⟨_, _, rfl, hf₄, ?_⟩
  have hset₅ := Sets.setInode h₄.wf hf₄ (setLen 0 m.totalSize (fs₄.inodes h))
  rw [io_ok, ret_bind]
  apply Among.bind
  refine (among_persistState (s := ⟨stagingDir (Stream.safeName m.name), h, startState X m fs⟩) ?_).mono ?_
  · rw [hset₅.dirs]
    apply h₄.dirs
    rw [hset₃.dirs]
    exact hd₂
  rintro r fs₆ ⟨rfl, hp⟩
  have hgeo := Store.stateOn_geometry X (Stream.safeName m.name) fs m.transferId m.totalSize m.chunkSize
  refine ⟨_, rfl, hp.live hf₄, rfl, hgeo.1, hgeo.2.1, hgeo.2.2, ?_⟩
  -- what is staged is what was wanted before
  intro hc
  refine ⟨startData X m fs, ?_, hb m rfl hc⟩
  exact hp.data.trans (hset₅.self.trans (by rw [hin]))

/-- **Writing a chunk** keeps the store lodged, if `want` allows the chunk. -/
theorem among_writeChunk {active : ActiveTransfer} (hl : Lodged X want active fs) {index : Nat}
    {plaintext : Bytes} (hwant : want active.manifest index plaintext) :
    Among (diskTerms X held active.dir)
      (fun r fs' => ∃ res store, r = .ok (res, store) ∧
        Lodged X want { active with store := store } fs')
      (active.store.writeChunk X index plaintext) fs := by
  by_cases hacc : active.store.Accepts index plaintext
  swap
  -- a chunk that is refused changes nothing
  · obtain ⟨e, he⟩ := Store.writeChunk_of_not_accepts X hacc
    rw [he]
    exact ⟨_, _, rfl, hl⟩
  rw [Store.writeChunk_of_accepts X hacc]
  intro fs₁ h₁
  have hl₁ := hl.view h₁.toView
  have hf₁ := hl₁.live.file
  have hin : fs₁.files (.staged active.dir .data) = some active.store.file := hl.path .data ▸ hf₁
  refine ⟨hin, ?_⟩
  rintro r fs₂ ⟨⟨⟩, -⟩
  have hset₂ := Sets.setInode h₁.wf hf₁
    (overwrite 0 (index * active.store.state.chunkSize) plaintext (fs₁.inodes active.store.file))
  rw [← hl.dir]
  apply Among.bind
  apply Among.attempt
  -- the chunk is in the file; the state follows
  refine (among_persistState (s := active.store.record index) ?_).mono ?_
  · rw [hset₂.dirs]
    exact hl₁.live.dir
  rintro r fs₃ ⟨rfl, hp⟩
  refine ⟨_, _, rfl, hp.live hf₁, hl.dir, hl.transferId, hl.totalSize, hl.chunkSize, ?_⟩
  intro hc
  obtain ⟨data, hd, hb⟩ := hl₁.holds hc
  have hin : fs₁.inodes active.store.file = data := inodes_of_content hf₁ hd
  refine ⟨_, hp.data.trans hset₂.self, ?_⟩
  rw [hin]
  exact hb.record hacc (fun _ _ _ hw => hw) hwant

/-- What removing `files` from a staging directory leaves. -/
structure Removes (held : Bool) (dir : String) (files : List StagedFile) (fs fs' : Fs) : Prop where
  wf : fs'.Wf
  dirs : fs.dirs dir = true → fs'.dirs dir = true
  gone : ∀ f ∈ files, fs'.content (.staged dir f) = none
  kept : ∀ f, f ∉ files → fs'.content (.staged dir f) = fs.content (.staged dir f)
  outs : held = true → ∀ name, fs'.content (.out name) = fs.content (.out name)

theorem among_removeFiles {files : List StagedFile} (hwf : fs.Wf) (hnd : files.Nodup)
    (hthere : ∀ f ∈ files, fs.content (.staged dir f) ≠ none) :
    Among (diskTerms X held dir) (fun r fs' => r = .ok () ∧ Removes held dir files fs fs')
      (Store.removeFiles dir files) fs := by
  induction files generalizing fs with
  | nil => exact ⟨rfl, hwf, id, by simp, fun _ _ => rfl, fun _ _ => rfl⟩
  | cons f files ih =>
      rw [List.nodup_cons] at hnd
      apply among_call
      intro fs₁ h₁
      obtain ⟨fs₂, heq₂, hset₂⟩ := handle_removeFile X.unpackTar h₁.wf (p := .staged dir f)
        (by rw [h₁.content]; exact hthere f List.mem_cons_self)
      refine ⟨_, fs₂, heq₂, ⟨_, rfl⟩, ?_⟩
      have hkeep : ∀ g, g ≠ f → fs₂.content (.staged dir g) = fs.content (.staged dir g) := by
        intro g hg
        rw [hset₂.content _ (by simpa using hg), h₁.content]
      have hne : ∀ g ∈ files, g ≠ f := by
        rintro g hg rfl
        exact hnd.1 hg
      -- the other files are still there to remove
      refine (ih hset₂.wf hnd.2 ?_).mono ?_
      · intro g hg
        rw [hkeep g (hne g hg)]
        exact hthere g (List.mem_cons_of_mem _ hg)
      · rintro r fs₃ ⟨rfl, h₃⟩
        refine ⟨rfl, h₃.wf, ?_, ?_, ?_, ?_⟩
        · intro hd
          apply h₃.dirs
          rw [hset₂.dirs]
          exact h₁.dirs hd
        · intro g hg
          rcases List.mem_cons.mp hg with rfl | hg
          · rw [h₃.kept _ hnd.1, hset₂.self]
          · exact h₃.gone g hg
        · intro g hg
          rw [List.mem_cons, not_or] at hg
          rw [h₃.kept g hg.2, hkeep g hg.1]
        · intro hh name
          rw [h₃.outs hh, hset₂.content _ (by simp), h₁.outs hh]

theorem among_removeDirAll (hdir : fs.dirs dir = true) :
    Among (diskTerms X held dir)
      (fun r fs' => r = .ok () ∧ fs'.content (.staged dir .stateJson) = none ∧
        (held = true → ∀ name, fs'.content (.out name) = fs.content (.out name)))
      (Store.removeDirAll dir) fs := by
  apply among_call
  intro fs₁ h₁
  have hread : X.handle (.readDir dir) fs₁ = (.ok (fs₁.entries dir), fs₁) := by
    simp [Externals.handle, Fs.handle, h₁.dirs hdir]
  refine ⟨_, fs₁, hread, trivial, ?_⟩
  rw [io_ok, ret_bind]
  apply Among.bind
  refine (among_removeFiles h₁.wf (Store.nodup_entries h₁.wf dir)
    fun f hf => (Store.mem_entries h₁.wf).mp hf).mono ?_
  rintro r fs₂ ⟨rfl, h₂⟩
  apply among_call
  intro fs₃ h₃
  -- nothing is left in the directory, so it can go
  have hnone : ∀ f, fs₃.content (.staged dir f) = none := by
    intro f
    rw [h₃.content]
    by_cases hf : f ∈ fs₁.entries dir
    · exact h₂.gone f hf
    · rw [h₂.kept f hf]
      exact not_not.mp (mt (Store.mem_entries h₁.wf).mpr hf)
  refine ⟨_, _, (Store.removeDir_call X h₃.wf (h₃.dirs (h₂.dirs (h₁.dirs hdir))) hnone).1, rfl, rfl,
    hnone _, ?_⟩
  intro hh name
  rw [content_setDir, h₃.outs hh, h₂.outs hh, h₁.outs hh]

/-- **Moving the staged file into place**, under the lock: onto a directory it fails, and the store is as it
was. -/
theorem among_finalizeFile {active : ActiveTransfer} (hl : Lodged X want active fs) {data : Bytes}
    (hd : fs.content active.store.dataPath = some data) (outDir dest : String) :
    Among (diskTerms X true active.dir)
      (fun r fs' => (r = .ok () ∧ fs'.content (.staged active.dir .stateJson) = none ∧
          fs'.content (.out dest) = some data) ∨
        ((∃ e, r = .error e) ∧ Lodged X want active fs'))
      (active.store.finalizeFile outDir dest) fs := by
  apply among_call
  intro fs₁ h₁
  have hl₁ := hl.view h₁.toView
  have hd₁ : fs₁.content active.store.dataPath = some data := by
    rw [Store.dataPath, hl.path] at hd ⊢
    rw [h₁.content, hd]
  have hin : Within true active.dir fs₁ (.rename active.store.dataPath (.out dest)) :=
    ⟨⟨.data, hl.path .data⟩, .inr ⟨rfl, _, rfl⟩⟩
  -- a directory may have taken its place
  cases hdest : fs₁.dirs dest with
  | true =>
      exact ⟨_, fs₁, handle_rename_of_dir X.unpackTar hd₁ hdest, hin, .inr ⟨⟨_, rfl⟩, hl₁⟩⟩
  | false =>
      have hroom : fs₁.room (.out dest) = true := by rw [room, hdest]; rfl
      obtain ⟨fs₂, fs₃, heq₃, hset₂, hset₃⟩ := handle_rename X.unpackTar h₁.wf hd₁ (q := .out dest) hroom
      refine ⟨_, fs₃, heq₃, hin, ?_⟩
      show Among _ _ (Store.removeDirAll active.store.dir) fs₃
      have hdir : fs₃.dirs active.dir = true := by
        rw [hset₃.dirs, hset₂.dirs, ← hl.dir]
        exact hl₁.live.dir
      rw [hl.dir]
      refine (among_removeDirAll hdir).mono ?_
      rintro r fs₄ ⟨rfl, hnone, houts⟩
      exact .inl ⟨rfl, hnone, (houts rfl dest).trans hset₃.self⟩

/-- Unpacking an archive that leaves the staging directories alone. -/
theorem among_unpackTar {active : ActiveTransfer} (hl : Lodged X want active fs) (p : Path) :
    Among (diskTerms X true active.dir) (fun _ fs' => Lodged X want active fs') (Stream.unpackTar p) fs := by
  apply among_call
  intro fs₁ h₁
  have hl₁ := hl.view h₁.toView
  refine ⟨_, fs₁, Store.handle_read X fs₁ p, trivial, ?_⟩
  cases fs₁.content p with
  | none => exact hl₁
  | some b =>
      intro fs₂ h₂
      refine ⟨rfl, ?_⟩
      rintro r fs₃ ⟨-, hapart⟩
      have hl₃ := (hl₁.view h₂.toView).view (hapart p rfl _)
      cases r with
      | error e => exact hl₃
      | ok u => exact hl₃

/-- The chunks of a complete store. -/
theorem Lodged.genuine {active : ActiveTransfer} (hl : Lodged X want active fs)
    (hcomplete : active.store.isComplete = true) {data : Bytes}
    (hd : fs.content active.store.dataPath = some data) (hc : 0 < active.manifest.chunkSize) :
    ∀ index < active.manifest.totalChunks, want active.manifest index (blockOf active.manifest data index) := by
  intro index hindex
  obtain ⟨data', hd', hb⟩ := hl.holds hc
  obtain rfl : data = data' := Option.some.inj (hd.symm.trans hd')
  have hchunk := (hb.chunks index ((hl.staged hc).all_of_isComplete hcomplete index hindex)).2
  rw [hl.chunkSize] at hchunk
  exact hchunk

/-- **What `finalize` puts in place is what it has hashed.** -/
theorem among_finalize {cfg : ServerCfg} (hw : Coherent want) {active : ActiveTransfer}
    (hl : Lodged X want active fs) (commit : Commit) :
    Among (diskTerms X true active.dir)
      (fun r fs' => Backed X want active.dir fs' ∧
        (active.manifest.kind = .file → ∀ desc, r = .ok desc →
          ∃ content, fs'.content (.out (Stream.safeName active.manifest.name)) = some content ∧
            X.blake3 content = commit.blake3Hex ∧
            (0 < active.manifest.chunkSize → ∀ index < active.manifest.totalChunks,
              want active.manifest index (blockOf active.manifest content index))))
      (finalize X cfg active commit) fs := by
  unfold finalize
  split
  -- incomplete
  · exact ⟨hl.backed hw, nofun⟩
  next hcomplete =>
  have hcomplete : active.store.isComplete = true := by simpa using hcomplete
  show Among _ _ (syscall (.read active.store.dataPath) >>= _) fs
  apply among_call
  intro fs₁ h₁
  have hl₁ := hl.view h₁.toView
  have hd₁ : fs₁.content active.store.dataPath = some (fs₁.inodes active.store.file) :=
    content_eq_some hl₁.live.file
  refine ⟨_, fs₁, Store.handle_read X fs₁ _, trivial, ?_⟩
  rw [hd₁]
  show Among _ _ (if X.blake3 _ ≠ commit.blake3Hex then _ else _) fs₁
  split
  · exact ⟨hl₁.backed hw, nofun⟩
  next hhash =>
  have hhash : X.blake3 (fs₁.inodes active.store.file) = commit.blake3Hex := not_not.mp hhash
  -- the hash is right
  cases hkind : active.manifest.kind with
  | file =>
      apply Among.bind
      refine (among_finalizeFile hl₁ hd₁ _ _).mono ?_
      -- placed and cleaned up, or left as it was
      rintro r fs₂ (⟨rfl, hnone, hout⟩ | ⟨⟨e, rfl⟩, hl₂⟩)
      · refine ⟨backed_of_none hnone, ?_⟩
        rintro - desc -
        exact ⟨_, hout, hhash, hl₁.genuine hcomplete hd₁⟩
      · exact ⟨hl₂.backed hw, nofun⟩
  | tar =>
      apply Among.bind
      refine (among_unpackTar hl₁ _).mono ?_
      intro r fs₂ hl₂
      cases r with
      | error e => exact ⟨hl₂.backed hw, nofun⟩
      | ok u =>
          apply Among.bind
          have hdir : fs₂.dirs active.dir = true := by
            rw [← hl.dir]
            exact hl₂.live.dir
          show Among _ _ (Store.removeDirAll active.store.dir) fs₂
          rw [hl.dir]
          refine (among_removeDirAll hdir).mono ?_
          rintro r fs₃ ⟨rfl, hnone, -⟩
          exact ⟨backed_of_none hnone, nofun⟩
  | text => exact ⟨hl₁.backed hw, nofun⟩

end disk

end Server
end B2p
