import B2p.Protocol
import B2p.Lib.Prog
import Mathlib.Logic.Function.Basic

/-!
# The receiver's filesystem

What the receiver does to disk, one system call at a time. Paths are relative to the output
directory: a file in it, or one of the three files of a staging directory `<name>.b2p-partial`.
Names and contents are kept apart, as on a real disk: a path names an inode, an open file *is* an
inode, so a rename moves the name and leaves every open handle on the same bytes.

A name in the output directory may be taken by a directory too. No file can then be moved there, and no
directory be made where there is a file.
-/

namespace B2p

open Interaction

/-- The files of a staging directory. -/
inductive StagedFile where
  | data
  | stateJson
  | stateJsonTmp
  deriving DecidableEq, Repr

inductive Path where
  | out (name : String)
  | staged (dir : String) (file : StagedFile)
  deriving DecidableEq, Repr

/-- An open file. -/
abbrev Handle := Nat

/-- The system calls of `store.rs` (and the reads and the unpacking around it). -/
inductive FsOp where
  | createDirAll (dir : String)
  | read (p : Path)
  | openRw (p : Path) (truncate : Bool)
  | setLen (h : Handle) (n : Nat)
  | writeAt (h : Handle) (off : Nat) (b : Bytes)
  | writeFile (p : Path) (b : Bytes)
  | rename (p q : Path)
  | readDir (dir : String)
  | removeFile (p : Path)
  | removeDir (dir : String)
  | pathExists (p : Path)
  | unpackTar (p : Path)
  deriving DecidableEq

@[reducible] def FsOp.Res : FsOp → Type
  | .read _ => Except IoError Bytes
  | .openRw _ _ => Except IoError Handle
  | .readDir _ => Except IoError (List StagedFile)
  | .pathExists _ => Bool
  | _ => Except IoError Unit

abbrev fsEffects : Effects := ⟨FsOp, FsOp.Res⟩

/-- A program that only touches the disk. -/
abbrev FsProg := Prog fsEffects Anyhow

/-- The state of the disk below the output directory. `order` is the order in which a directory
lists its files, which no program can rely on. -/
structure Fs where
  dirs : String → Bool
  files : Path → Option Handle
  inodes : Handle → Bytes
  next : Handle
  order : List StagedFile

namespace Fs

/-- The content of the file at `p`. -/
def content (fs : Fs) (p : Path) : Option Bytes := (fs.files p).map fs.inodes

/-- A file can have the name `p`: the directory it lies in is there, and no directory has that name. -/
def room (fs : Fs) : Path → Bool
  | .out name => !fs.dirs name
  | .staged dir _ => fs.dirs dir

/-- What a call reports that finds no room for a file at `p`. -/
def noRoom : Path → IoError
  | .out _ => .isDirectory
  | .staged _ _ => .notFound

/-- The files present in a staging directory, as listed. -/
def entries (fs : Fs) (dir : String) : List StagedFile :=
  fs.order.filter (fun f => (fs.files (.staged dir f)).isSome)

def setInode (fs : Fs) (h : Handle) (b : Bytes) : Fs :=
  { fs with inodes := Function.update fs.inodes h b }

/-- Link a new file with content `b` at `p`. -/
def create (fs : Fs) (p : Path) (b : Bytes) : Fs :=
  { fs with
    files := Function.update fs.files p (some fs.next)
    inodes := Function.update fs.inodes fs.next b
    next := fs.next + 1 }

/-- Drop the name `p`. -/
def unlink (fs : Fs) (p : Path) : Fs := { fs with files := Function.update fs.files p none }

/-- Give the inode `h` the name `p`. -/
def link (fs : Fs) (p : Path) (h : Handle) : Fs :=
  { fs with files := Function.update fs.files p (some h) }

def setDir (fs : Fs) (dir : String) (b : Bool) : Fs :=
  { fs with dirs := Function.update fs.dirs dir b }

/-- What each call does and answers. Unpacking is the tar crate's: a parameter. -/
def handle (unpack : Bytes → Fs → Except IoError Unit × Fs) : Prog.Handler fsEffects Fs
  | .createDirAll dir, fs =>
      -- `EEXIST` is no failure if it is a directory that exists
      if (fs.files (.out dir)).isSome && !fs.dirs dir then (.error .alreadyExists, fs)
      else (.ok (), fs.setDir dir true)
  | .read p, fs =>
      match fs.content p with
      | some b => (.ok b, fs)
      | none => (.error .notFound, fs)
  | .openRw p truncate, fs =>
      if fs.room p then
        match fs.files p with
        | some h => (.ok h, if truncate then fs.setInode h [] else fs)
        | none => (.ok fs.next, fs.create p [])
      else (.error (noRoom p), fs)
  | .setLen h n, fs => (.ok (), fs.setInode h (setLen 0 n (fs.inodes h)))
  | .writeAt h off b, fs => (.ok (), fs.setInode h (overwrite 0 off b (fs.inodes h)))
  | .writeFile p b, fs =>
      if fs.room p then
        match fs.files p with
        | some h => (.ok (), fs.setInode h b)
        | none => (.ok (), fs.create p b)
      else (.error (noRoom p), fs)
  | .rename p q, fs =>
      match fs.files p with
      | some h =>
          if fs.room q then (.ok (), (fs.unlink p).link q h) else (.error (noRoom q), fs)
      | none => (.error .notFound, fs)
  | .readDir dir, fs =>
      if fs.dirs dir then (.ok (fs.entries dir), fs) else (.error .notFound, fs)
  | .removeFile p, fs =>
      match fs.files p with
      | some _ => (.ok (), fs.unlink p)
      | none => (.error .notFound, fs)
  | .removeDir dir, fs =>
      if fs.dirs dir then
        if (fs.entries dir).isEmpty then (.ok (), fs.setDir dir false) else (.error .notEmpty, fs)
      else (.error .notFound, fs)
  | .pathExists p, fs =>
      ((fs.files p).isSome || (match p with
        | .out name => fs.dirs name
        | .staged _ _ => false), fs)
  | .unpackTar p, fs =>
      match fs.content p with
      | some b => unpack b fs
      | none => (.error .notFound, fs)

/-! ## Well-formed disks

No two names share an inode, no name refers to one that was never handed out, staged files lie in
existing directories, and a directory lists each of its files once. -/

structure Wf (fs : Fs) : Prop where
  bound : ∀ p h, fs.files p = some h → h < fs.next
  inj : ∀ p q h, fs.files p = some h → fs.files q = some h → p = q
  inDir : ∀ dir f, (fs.files (.staged dir f)).isSome → fs.dirs dir = true
  order : fs.order.Perm [.data, .stateJson, .stateJsonTmp]

/-- A disk with nothing on it. -/
def blank : Fs where
  dirs _ := false
  files _ := none
  inodes _ := []
  next := 0
  order := [.data, .stateJson, .stateJsonTmp]

theorem blank_wf : blank.Wf where
  bound p h hp := by cases hp
  inj p q h hp := by cases hp
  inDir dir f hf := by cases hf
  order := List.Perm.refl _

/-- Only the files at `ps` differ between `fs` and the well-formed `fs'`. -/
structure Frame (ps : List Path) (fs fs' : Fs) : Prop where
  wf : fs'.Wf
  dirs : fs'.dirs = fs.dirs
  order : fs'.order = fs.order
  files : ∀ q, q ∉ ps → fs'.files q = fs.files q
  content : ∀ q, q ∉ ps → fs'.content q = fs.content q

/-- Only the file at `p` differs, and it now holds `c` (or is gone). -/
structure Sets (fs fs' : Fs) (p : Path) (c : Option Bytes) : Prop extends Frame [p] fs fs' where
  self : fs'.content p = c

theorem Frame.refl {fs : Fs} (h : fs.Wf) (ps : List Path) : Frame ps fs fs :=
  ⟨h, rfl, rfl, fun _ _ => rfl, fun _ _ => rfl⟩

theorem Frame.trans {ps qs : List Path} {a b c : Fs} (h : Frame ps a b) (h' : Frame qs b c) :
    Frame (ps ++ qs) a c := by
  refine ⟨h'.wf, h'.dirs.trans h.dirs, h'.order.trans h.order, ?_, ?_⟩
  · intro q hq
    rw [List.mem_append, not_or] at hq
    rw [h'.files q hq.2, h.files q hq.1]
  · intro q hq
    rw [List.mem_append, not_or] at hq
    rw [h'.content q hq.2, h.content q hq.1]

theorem Frame.mono {ps qs : List Path} {a b : Fs} (h : Frame ps a b) (hs : ∀ p ∈ ps, p ∈ qs) :
    Frame qs a b :=
  ⟨h.wf, h.dirs, h.order, fun q hq => h.files q (mt (hs q) hq),
    fun q hq => h.content q (mt (hs q) hq)⟩

theorem Frame.room {ps : List Path} {a b : Fs} (h : Frame ps a b) (p : Path) : b.room p = a.room p := by
  cases p with
  | out name => exact congrArg (!·) (congrFun h.dirs name)
  | staged dir f => exact congrFun h.dirs dir

variable {fs : Fs}

theorem content_eq_some {p : Path} {h : Handle} (hp : fs.files p = some h) :
    fs.content p = some (fs.inodes h) := by
  rw [content, hp, Option.map_some]

theorem content_eq_none_iff {p : Path} : fs.content p = none ↔ fs.files p = none := by
  rw [content, Option.map_eq_none_iff]

theorem Sets.setInode (hwf : fs.Wf) {p : Path} {h : Handle} (hp : fs.files p = some h) (b : Bytes) :
    Sets fs (fs.setInode h b) p (some b) := by
  refine ⟨⟨⟨hwf.bound, hwf.inj, hwf.inDir, hwf.order⟩, rfl, rfl, fun _ _ => rfl, ?_⟩, ?_⟩
  · intro q hq
    simp only [Fs.content, Fs.setInode]
    cases hfq : fs.files q with
    | none => rfl
    | some h' =>
        have hne : h' ≠ h := fun he => hq (List.mem_singleton.mpr (hwf.inj q p h (he ▸ hfq) hp))
        rw [Option.map_some, Option.map_some, Function.update_of_ne hne]
  · simp [Fs.content, Fs.setInode, hp]

/-- Naming an inode that has no name: what a new file and the second half of a rename do. -/
theorem Sets.link (hwf : fs.Wf) {p : Path} {h : Handle} (hp : fs.room p = true)
    (hb : h < fs.next) (hfresh : ∀ q, fs.files q ≠ some h) :
    Sets fs (fs.link p h) p (some (fs.inodes h)) := by
  have hfiles : ∀ q, q ≠ p → (fs.link p h).files q = fs.files q :=
    fun q hq => Function.update_of_ne hq _ _
  have hself : (fs.link p h).files p = some h := Function.update_self _ _ _
  refine ⟨⟨⟨?_, ?_, ?_, hwf.order⟩, rfl, rfl, fun q hq => hfiles q (by simpa using hq), ?_⟩, ?_⟩
  · intro q h' hq
    by_cases hqp : q = p
    · rw [hqp, hself, Option.some.injEq] at hq
      exact hq ▸ hb
    · rw [hfiles q hqp] at hq
      exact hwf.bound q h' hq
  · intro q q' h' hq hq'
    -- two names of one file: not if just one is the new link, which is fresh
    by_cases hqp : q = p <;> by_cases hqp' : q' = p
    · rw [hqp, hqp']
    · rw [hqp, hself, Option.some.injEq] at hq
      rw [hfiles q' hqp'] at hq'
      exact absurd (hq ▸ hq') (hfresh q')
    · rw [hqp', hself, Option.some.injEq] at hq'
      rw [hfiles q hqp] at hq
      exact absurd (hq' ▸ hq) (hfresh q)
    · rw [hfiles q hqp] at hq
      rw [hfiles q' hqp'] at hq'
      exact hwf.inj q q' h' hq hq'
  · intro dir f hf
    by_cases hqp : Path.staged dir f = p
    · subst hqp
      exact hp
    · rw [hfiles _ hqp] at hf
      exact hwf.inDir dir f hf
  · intro q hq
    rw [Fs.content, hfiles q (by simpa using hq)]
    rfl
  · rw [Fs.content, hself]
    rfl

/-- The state after handing out an inode holding `b`, not yet named. -/
theorem wf_alloc (hwf : fs.Wf) (b : Bytes) :
    ({ fs with inodes := Function.update fs.inodes fs.next b, next := fs.next + 1 } : Fs).Wf :=
  ⟨fun p h hp => Nat.lt_succ_of_lt (hwf.bound p h hp), hwf.inj, hwf.inDir, hwf.order⟩

theorem Sets.create (hwf : fs.Wf) {p : Path} (hp : fs.room p = true) (b : Bytes) :
    Sets fs (fs.create p b) p (some b) := by
  have hfresh : ∀ q, fs.files q ≠ some fs.next :=
    fun q hq => absurd (hwf.bound q _ hq) (Nat.lt_irrefl _)
  -- a new file, linked at its path
  have hlink := Sets.link (wf_alloc hwf b) (p := p) hp (Nat.lt_succ_self fs.next) hfresh
  refine ⟨⟨hlink.wf, rfl, rfl, hlink.files, ?_⟩, ?_⟩
  · intro q hq
    rw [show (fs.create p b).content q = _ from hlink.content q hq]
    simp only [Fs.content]
    cases hfq : fs.files q with
    | none => rfl
    | some h' =>
        have hne : h' ≠ fs.next := fun he => hfresh q (he ▸ hfq)
        rw [Option.map_some, Option.map_some, Function.update_of_ne hne]
  · exact hlink.self.trans (congrArg some (Function.update_self _ _ _))

theorem Sets.unlink (hwf : fs.Wf) (p : Path) : Sets fs (fs.unlink p) p none := by
  have hfiles : ∀ q, q ≠ p → (fs.unlink p).files q = fs.files q :=
    fun q hq => Function.update_of_ne hq _ _
  have hself : (fs.unlink p).files p = none := Function.update_self _ _ _
  -- every link that is left was there before
  have hold : ∀ q h, (fs.unlink p).files q = some h → fs.files q = some h := by
    intro q h hq
    by_cases hqp : q = p
    · rw [hqp, hself] at hq
      cases hq
    · rwa [hfiles q hqp] at hq
  refine ⟨⟨⟨fun q h hq => hwf.bound q h (hold q h hq),
    fun q q' h hq hq' => hwf.inj q q' h (hold q h hq) (hold q' h hq'), ?_, hwf.order⟩,
    rfl, rfl, fun q hq => hfiles q (by simpa using hq), ?_⟩, ?_⟩
  · intro dir f hf
    obtain ⟨h, hh⟩ := Option.isSome_iff_exists.mp hf
    exact hwf.inDir dir f (by rw [hold _ h hh]; rfl)
  · intro q hq
    rw [Fs.content, hfiles q (by simpa using hq)]
    rfl
  · rw [content_eq_none_iff]
    exact hself

/-! ## One lemma per call -/

section calls

variable (unpack : Bytes → Fs → Except IoError Unit × Fs)

theorem handle_openRw (hwf : fs.Wf) {p : Path} (hp : fs.room p = true) (truncate : Bool) :
    ∃ h fs', handle unpack (.openRw p truncate) fs = (.ok h, fs') ∧ fs'.files p = some h ∧
      Sets fs fs' p (some (if truncate then [] else (fs.content p).getD [])) := by
  cases hf : fs.files p with
  | none =>
      refine ⟨fs.next, fs.create p [], ?_, Function.update_self _ _ _, ?_⟩
      · simp [handle, hp, hf]
      · have hc : fs.content p = none := content_eq_none_iff.mpr hf
        rw [hc, Option.getD_none, ite_self]
        exact Sets.create hwf hp []
  | some h =>
      have hc : fs.content p = some (fs.inodes h) := content_eq_some hf
      cases truncate with
      | true =>
          exact ⟨h, fs.setInode h [], by simp [handle, hp, hf], hf, Sets.setInode hwf hf []⟩
      | false =>
          exact ⟨h, fs, by simp [handle, hp, hf], hf, Frame.refl hwf _, by rw [hc]; rfl⟩

theorem handle_writeFile (hwf : fs.Wf) {p : Path} (hp : fs.room p = true) (b : Bytes) :
    ∃ fs', handle unpack (.writeFile p b) fs = (.ok (), fs') ∧ Sets fs fs' p (some b) := by
  cases hf : fs.files p with
  | none => exact ⟨fs.create p b, by simp [handle, hp, hf], Sets.create hwf hp b⟩
  | some h => exact ⟨fs.setInode h b, by simp [handle, hp, hf], Sets.setInode hwf hf b⟩

/-- A rename takes one name away and puts the same bytes under another. -/
theorem handle_rename (hwf : fs.Wf) {p q : Path} {b : Bytes} (hp : fs.content p = some b)
    (hq : fs.room q = true) :
    ∃ fs₁ fs', handle unpack (.rename p q) fs = (.ok (), fs') ∧ Sets fs fs₁ p none ∧
      Sets fs₁ fs' q (some b) := by
  obtain ⟨h, hf, rfl⟩ := Option.map_eq_some_iff.mp hp
  have hun := Sets.unlink hwf p
  -- once unlinked the file has no other name
  have hfresh : ∀ r, (fs.unlink p).files r ≠ some h := by
    intro r hr
    by_cases hrp : r = p
    · rw [hrp, content_eq_none_iff.mp hun.self] at hr
      cases hr
    · rw [hun.files r (by simpa using hrp)] at hr
      exact hrp (hwf.inj r p h hr hf)
  exact ⟨fs.unlink p, (fs.unlink p).link q h, by simp [handle, hf, hq], hun,
    Sets.link hun.wf ((hun.room q).trans hq) (hwf.bound p h hf) hfresh⟩

/-- Nothing is moved onto a directory. -/
theorem handle_rename_of_dir {p : Path} {b : Bytes} (hp : fs.content p = some b) {name : String}
    (hdir : fs.dirs name = true) :
    handle unpack (.rename p (.out name)) fs = (.error .isDirectory, fs) := by
  obtain ⟨h, hf, -⟩ := Option.map_eq_some_iff.mp hp
  simp [handle, hf, room, noRoom, hdir]

theorem handle_removeFile (hwf : fs.Wf) {p : Path} (hp : fs.content p ≠ none) :
    ∃ fs', handle unpack (.removeFile p) fs = (.ok (), fs') ∧ Sets fs fs' p none := by
  obtain ⟨h, hf⟩ := Option.ne_none_iff_exists'.mp (mt content_eq_none_iff.mpr hp)
  exact ⟨fs.unlink p, by simp [handle, hf], Sets.unlink hwf p⟩

end calls

end Fs
end B2p
