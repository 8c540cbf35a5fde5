import B2p.Stream.Spec
import B2p.Receive

/-!
# What a failed receive leaves behind

`recv_into` in a world where every message and every filesystem operation may fail. Until the rename
that puts the file in place nothing touches the destination; after it, the removal of the staging
directory and the sending of the reply can still fail, and then the caller is told of a failure.

* `answers`, `faulty` — what may be answered, and the run with its trace.
* `Fs.Spares` — the operations that leave the destination alone.
* `aftermath` — what the trace says of the rename and of what came after it.
* `reported_iff` — a run leaves the destination alone when it fails, and reports a placed file, exactly
  if nothing fails after the rename.
-/

namespace B2p

open Interaction Prog Fs

/-! ## Failing operations -/

/-- The answer is an error. -/
def FsOp.failed : (o : FsOp) → o.Res → Bool
  | .createDirAll _, r => !r.isOk
  | .read _, r => !r.isOk
  | .openRw _ _, r => !r.isOk
  | .setLen _ _, r => !r.isOk
  | .writeAt _ _ _, r => !r.isOk
  | .writeFile _ _, r => !r.isOk
  | .rename _ _, r => !r.isOk
  | .readDir _, r => !r.isOk
  | .removeFile _, r => !r.isOk
  | .removeDir _, r => !r.isOk
  | .pathExists _, _ => false
  | .unpackTar _, r => !r.isOk

namespace Fs

/-- The file at `p` is as it was, on a well-formed disk. -/
structure Keeps (p : Path) (fs fs' : Fs) : Prop where
  wf : fs'.Wf
  files : fs'.files p = fs.files p
  content : fs'.content p = fs.content p

/-- What an operation that failed may leave: anything in the staging directories, but every file of
the output directory as it was. In particular a rename that failed has not happened. -/
def Disturbed (fs fs' : Fs) : Prop := ∀ name, Keeps (.out name) fs fs'

/-- The operation does not touch the file at `p`. -/
def Spares (p : Path) (fs : Fs) : FsOp → Prop
  | .createDirAll _ | .read _ | .readDir _ | .removeDir _ | .pathExists _ => True
  | .openRw q _ | .writeFile q _ | .removeFile q => q ≠ p
  | .setLen h _ | .writeAt h _ _ => fs.files p ≠ some h
  | .rename q q' => q ≠ p ∧ q' ≠ p
  | .unpackTar _ => False

section Keeps

variable {p : Path} {fs fs' : Fs}

theorem Keeps.refl (hwf : fs.Wf) : Keeps p fs fs := ⟨hwf, rfl, rfl⟩

theorem Keeps.trans {fs'' : Fs} (h : Keeps p fs fs') (h' : Keeps p fs' fs'') : Keeps p fs fs'' :=
  ⟨h'.wf, h'.files.trans h.files, h'.content.trans h.content⟩

theorem Frame.keeps {ps : List Path} (h : Frame ps fs fs') (hp : p ∉ ps) : Keeps p fs fs' :=
  ⟨h.wf, h.files p hp, h.content p hp⟩

theorem Keeps.setInode (hwf : fs.Wf) {h : Handle} (hp : fs.files p ≠ some h) (b : Bytes) :
    Keeps p fs (fs.setInode h b) := by
  refine ⟨⟨hwf.bound, hwf.inj, hwf.inDir, hwf.order⟩, rfl, ?_⟩
  unfold Fs.content Fs.setInode
  cases hf : fs.files p with
  | none => rfl
  | some h' =>
      have hne : h' ≠ h := fun heq => hp (heq ▸ hf)
      simp [Function.update_of_ne hne]

/-- A directory that lists no file holds none. -/
theorem not_staged_of_entries (hwf : fs.Wf) {dir : String} (h : (fs.entries dir).isEmpty = true)
    (f : StagedFile) : fs.files (.staged dir f) = none := by
  have hmem : f ∈ fs.order := hwf.order.mem_iff.mpr (by cases f <;> simp)
  rw [List.isEmpty_iff, entries, List.filter_eq_nil_iff] at h
  simpa using h f hmem

theorem Keeps.removeDir (hwf : fs.Wf) {dir : String} (h : (fs.entries dir).isEmpty = true) :
    Keeps p fs (fs.setDir dir false) := by
  refine ⟨⟨hwf.bound, hwf.inj, ?_, hwf.order⟩, rfl, rfl⟩
  intro d f hf
  show Function.update fs.dirs dir false d = true
  by_cases hd : d = dir
  · subst hd
    rw [show (fs.setDir d false).files _ = _ from not_staged_of_entries hwf h f] at hf
    cases hf
  · rw [Function.update_of_ne hd]
    exact hwf.inDir d f hf

/-- **An operation that does not touch `p` keeps it.** -/
theorem handle_keeps (unpack : Bytes → Fs → Except IoError Unit × Fs) (hwf : fs.Wf) {o : FsOp}
    (ho : Spares p fs o) : Keeps p fs (handle unpack o fs).2 := by
  cases o with
  -- a directory is no file
  | createDirAll dir =>
      unfold handle
      dsimp only
      split
      · exact .refl hwf
      · exact ⟨hwf.setDir dir, rfl, rfl⟩
  | read q =>
      unfold handle
      dsimp only
      split <;> exact .refl hwf
  | openRw q truncate =>
      by_cases hq : fs.room q = true
      · obtain ⟨h, fs', heq, -, hset⟩ := handle_openRw unpack hwf hq truncate
        rw [heq]
        exact hset.toFrame.keeps (by simpa using Ne.symm ho)
      · simp only [handle, hq]
        exact .refl hwf
  -- the file behind the handle is another one
  | setLen h n => exact .setInode hwf ho _
  | writeAt h off b => exact .setInode hwf ho _
  | writeFile q b =>
      by_cases hq : fs.room q = true
      · obtain ⟨fs', heq, hset⟩ := handle_writeFile unpack hwf hq b
        rw [heq]
        exact hset.toFrame.keeps (by simpa using Ne.symm ho)
      · simp only [handle, hq]
        exact .refl hwf
  -- both ends spare the path
  | rename q q' =>
      cases hq : fs.content q with
      | none =>
          simp only [handle, content_eq_none_iff.mp hq]
          exact .refl hwf
      | some b =>
          by_cases hq' : fs.room q' = true
          · obtain ⟨fs₁, fs', heq, hset, hset'⟩ := handle_rename unpack hwf hq hq'
            rw [heq]
            exact (hset.toFrame.keeps (by simpa using Ne.symm ho.1)).trans
              (hset'.toFrame.keeps (by simpa using Ne.symm ho.2))
          · obtain ⟨h, hf, -⟩ := Option.map_eq_some_iff.mp hq
            simp only [handle, hf, hq']
            exact .refl hwf
  | readDir dir =>
      unfold handle
      dsimp only
      split <;> exact .refl hwf
  | removeFile q =>
      unfold handle
      dsimp only
      split
      · exact (Sets.unlink hwf q).toFrame.keeps (by simpa using Ne.symm ho)
      · exact .refl hwf
  | removeDir dir =>
      unfold handle
      dsimp only
      split
      · split
        · next h => exact .removeDir hwf h
        · exact .refl hwf
      · exact .refl hwf
  | pathExists q => exact .refl hwf
  | unpackTar q => exact ho.elim

end Keeps
end Fs

namespace Stream

variable (X : Externals) (sk : Key)

/-- What may be answered. The channel says anything, the filesystem does what it is asked or fails. -/
def Answers : (o : streamEffects.Op) → Fs → streamEffects.Res o → Fs → Prop
  | .loc (.fs o), fs, r, fs' => (r, fs') = X.handle o fs ∨ (o.failed r = true ∧ fs.Disturbed fs')
  | .loc (.seal_ domain index plaintext), fs, r, fs' =>
      r = X.cipher.seal_ sk domain index [] plaintext ∧ fs' = fs
  | _, fs, _, fs' => fs' = fs

/-- The unreliable world of the receiver, with the trace of the run. -/
def faulty : World streamEffects (Fs × List StreamAction) := fun o s r s' =>
  Answers X sk o s.1 r s'.1 ∧ s'.2 = s.2 ++ [⟨o, r⟩]

/-! ## The claim about a run -/

/-- `out_dir.join(safe_name(&manifest.name))`. -/
def dest (m : Manifest) : Path := .out (safeName m.name)

/-- The first message of the run is the offer of `m`. -/
def Offers (m : Manifest) (tr : List StreamAction) : Prop :=
  ∃ ct rest, tr = ⟨.recv, .ok ct⟩ :: rest ∧
    openVal X sk X.manifestJson .streamToReceiver 0 ct = .ok m

/-- The rename of `finalize_file`, performed. -/
def placing (m : Manifest) : StreamAction :=
  ⟨.loc (.fs (.rename (.staged (stagingDir (safeName m.name)) .data) (dest m))), .ok ()⟩

/-- The answer was an error: of the channel or of the filesystem. -/
def failed : StreamAction → Bool
  | ⟨.send _, r⟩ => !r.isOk
  | ⟨.recv, r⟩ => !r.isOk
  | ⟨.loc (.fs o), r⟩ => o.failed r
  | _ => false

/-- A failed receive leaves the destination alone, and a placed file is reported: the caller gets it
and does not arm the room again. -/
structure Reported (m : Manifest) (fs fs' : Fs) (tr : List StreamAction) (r : Except Anyhow String) :
    Prop where
  untouched : ∀ e, r = .error e → fs'.content (dest m) = fs.content (dest m)
  placed : placing m ∈ tr → ∃ desc, r = .ok desc
  stops : placing m ∈ tr → ∀ busyRetries, ∃ desc, Receive.next busyRetries r = .done desc

/-- Nothing fails once the file is in place. -/
def Settled (m : Manifest) (tr : List StreamAction) : Prop :=
  ∀ before later, tr = before ++ placing m :: later → ∀ a ∈ later, failed a = false

/-! ## Up to the rename -/

/-- The same world for a program that only touches the disk. -/
def faultyDisk : World fsEffects (Fs × List StreamAction) := fun o => faulty X sk (.loc (.fs o))

variable {X sk} {m : Manifest} {fs : Fs} {s s' : Fs × List StreamAction} {α : Type}

theorem safe_onDisk {C : Fs × List StreamAction → Prop}
    {Q : Except Anyhow α → Fs × List StreamAction → Prop} {p : FsProg α}
    (h : Safe (faultyDisk X sk) C Q p s) : Safe (faulty X sk) C Q (onDisk p) s := by
  induction p generalizing s with
  | ret a => exact h
  | fail e => exact h
  | step o k ih => exact ⟨h.1, fun r s' hR => ih r (h.2 r s' hR)⟩

/-- Nothing asked of a run but its outcome. -/
abbrev Ensures {E : Effects} (R : World E (Fs × List StreamAction))
    (Q : Except Anyhow α → Fs × List StreamAction → Prop) (p : Prog E Anyhow α)
    (s : Fs × List StreamAction) : Prop :=
  Safe R (fun _ => True) Q p s

/-- The `?` on an `io::Result`, then the rest. -/
theorem ensures_io {R : World fsEffects (Fs × List StreamAction)}
    {Q : Except Anyhow α → Fs × List StreamAction → Prop} {β : Type} {x : Except IoError β}
    {f : β → FsProg α} (herr : ∀ e, x = .error e → Q (.error (.io e)) s)
    (hok : ∀ b, x = .ok b → Ensures R Q (f b) s) : Ensures R Q (io x >>= f) s := by
  cases x with
  | error e => exact ⟨trivial, herr e rfl⟩
  | ok b => exact hok b rfl

/-- The destination has not been touched. -/
structure Quiet (m : Manifest) (fs : Fs) (s : Fs × List StreamAction) : Prop where
  keeps : Keeps (dest m) fs s.1
  before : placing m ∉ s.2

theorem Quiet.call {o : FsOp} {r : o.Res} (hq : Quiet m fs s) (hr : faultyDisk X sk o s r s')
    (ho : Spares (dest m) s.1 o) : Quiet m fs s' := by
  obtain ⟨hans, htr⟩ := hr
  refine ⟨hq.keeps.trans ?_, ?_⟩
  · rcases hans with hdone | ⟨-, hfail⟩
    · rw [show s'.1 = _ from congrArg Prod.snd hdone]
      exact handle_keeps X.unpackTar hq.keeps.wf ho
    · exact hfail (safeName m.name)
  · rw [htr]
    intro hmem
    rcases List.mem_append.mp hmem with hmem | hmem
    · exact hq.before hmem
    · -- it would be the rename onto the destination
      have hop := congrArg Action.op (List.mem_singleton.mp hmem)
      cases hop
      exact ho.2 rfl

/-- Whatever is not a filesystem operation leaves the disk alone. -/
theorem Quiet.other {o : streamEffects.Op} {r : streamEffects.Res o} (hq : Quiet m fs s)
    (hr : faulty X sk o s r s') (ho : ∀ c, o ≠ .loc (.fs c)) : Quiet m fs s' := by
  obtain ⟨hans, htr⟩ := hr
  have hsame : s'.1 = s.1 := by
    unfold Answers at hans
    split at hans
    · exact absurd rfl (ho _)
    · exact hans.2
    · exact hans
  refine ⟨hsame ▸ hq.keeps, ?_⟩
  rw [htr]
  intro hmem
  rcases List.mem_append.mp hmem with hmem | hmem
  · exact hq.before hmem
  · exact ho _ (congrArg Action.op (List.mem_singleton.mp hmem)).symm

theorem Quiet.persistState (hq : Quiet m fs s) (store : Store) :
    Ensures (faultyDisk X sk) (fun _ s' => Quiet m fs s') (store.persistState X) s := by
  refine ⟨trivial, fun r s₁ hr => ?_⟩
  have hq₁ := hq.call hr nofun
  apply ensures_io
  · exact fun _ _ => hq₁
  · intro _ _
    refine ⟨trivial, fun r s₂ hr => ?_⟩
    have hq₂ := hq₁.call hr ⟨nofun, nofun⟩
    cases r with
    | error e => exact ⟨trivial, hq₂⟩
    | ok u => exact ⟨trivial, hq₂⟩

/-- The store is the one of `m`, and writing to it does not touch the destination. -/
structure Aside (m : Manifest) (store : Store) (fs : Fs) : Prop where
  dir : store.dir = stagingDir (safeName m.name)
  file : fs.files (dest m) ≠ some store.file

theorem Aside.keeps {store : Store} {fs' : Fs} (h : Aside m store fs) (hk : Keeps (dest m) fs fs') :
    Aside m store fs' :=
  ⟨h.dir, hk.files ▸ h.file⟩

/-- A file opened elsewhere is not the destination. -/
theorem openRw_aside {q : Path} {truncate : Bool} {h : Handle} (hwf : s.1.Wf)
    (hr : faultyDisk X sk (.openRw q truncate) s (.ok h) s') (hq : q ≠ dest m) :
    s'.1.files (dest m) ≠ some h := by
  rcases hr.1 with hdone | ⟨hfail, -⟩
  · by_cases hp : s.1.room q = true
    · obtain ⟨h', fs', heq, hf, hset⟩ := handle_openRw X.unpackTar hwf hp truncate
      have heq' : (Except.ok h, s'.1) = (Except.ok h', fs') := hdone.trans heq
      cases heq'
      exact fun hd => hq (hset.wf.inj _ _ _ hf hd)
    · have hno : X.handle (.openRw q truncate) s.1 = (.error (noRoom q), s.1) := by
        simp [Externals.handle, Fs.handle, hp]
      rw [hno] at hdone
      cases hdone
  · cases hfail

theorem Quiet.openOrCreate (hq : Quiet m fs s) (transferId : String) (totalSize chunkSize : Nat) :
    Ensures (faultyDisk X sk) (fun r s' => Quiet m fs s' ∧ ∀ store, r = .ok store → Aside m store s'.1)
      (Store.openOrCreate X (safeName m.name) transferId totalSize chunkSize) s := by
  refine ⟨trivial, fun r s₁ hr => ?_⟩
  have hq₁ := hq.call hr trivial
  apply ensures_io
  · exact fun _ _ => ⟨hq₁, nofun⟩
  intro _ _
  refine ⟨trivial, fun bytes s₂ hr => ?_⟩
  have hq₂ := hq₁.call hr trivial
  refine ⟨trivial, fun r s₃ hr => ?_⟩
  have hq₃ := hq₂.call hr nofun
  apply ensures_io
  · exact fun _ _ => ⟨hq₃, nofun⟩
  rintro h rfl
  -- the data file is not the destination
  have hfile : s₃.1.files (dest m) ≠ some h := openRw_aside hq₂.keeps.wf hr nofun
  refine ⟨trivial, fun r s₄ hr => ?_⟩
  have hq₄ := hq₃.call hr hfile
  have hfile₄ : s₄.1.files (dest m) ≠ some h := by
    rw [hq₄.keeps.files, ← hq₃.keeps.files]
    exact hfile
  apply ensures_io
  · exact fun _ _ => ⟨hq₄, nofun⟩
  intro _ _
  apply Safe.bind
  refine (hq₄.persistState _).mono fun r s₅ _ hq₅ => ?_
  cases r with
  | error e => exact ⟨hq₅, nofun⟩
  | ok u =>
      refine ⟨trivial, hq₅, ?_⟩
      rintro store ⟨⟩
      refine ⟨rfl, ?_⟩
      rw [hq₅.keeps.files, ← hq₄.keeps.files]
      exact hfile₄

theorem Quiet.writeChunk {store : Store} (hq : Quiet m fs s) (hs : Aside m store s.1) (i : Nat)
    (plaintext : Bytes) :
    Ensures (faultyDisk X sk) (fun r s' => Quiet m fs s' ∧ ∀ p, r = .ok p → Aside m p.2 s'.1)
      (store.writeChunk X i plaintext) s := by
  unfold Store.writeChunk
  split
  -- an index out of range, or a wrong length
  · exact ⟨trivial, hq, by rintro _ ⟨⟩; exact hs⟩
  split
  · exact ⟨trivial, hq, by rintro _ ⟨⟩; exact hs⟩
  refine ⟨trivial, fun r s₁ hr => ?_⟩
  have hq₁ := hq.call hr hs.file
  have hs₁ : Aside m store s₁.1 := ⟨hs.dir, by rw [hq₁.keeps.files, ← hq.keeps.files]; exact hs.file⟩
  cases r with
  | error e => exact ⟨trivial, hq₁, by rintro _ ⟨⟩; exact hs₁⟩
  | ok u =>
      show Ensures _ _ (((store.record i).persistState X).attempt >>= fun persisted =>
        ret (persisted, store.record i)) s₁
      apply Safe.bind
      apply Safe.attempt
      refine (hq₁.persistState _).mono fun r s₂ _ hq₂ => ?_
      refine ⟨trivial, hq₂, ?_⟩
      rintro _ ⟨⟩
      exact ⟨hs.dir, by rw [hq₂.keeps.files, ← hq₁.keeps.files]; exact hs₁.file⟩

/-- The payload loop: chunk after chunk is written aside. -/
theorem Quiet.recvChunks {store : Store} (hq : Quiet m fs s) (hs : Aside m store s.1) (haves : List Nat)
    (chunks : List Nat) :
    Ensures (faulty X sk) (fun r s' => Quiet m fs s' ∧ ∀ store, r = .ok store → Aside m store s'.1)
      (recvChunks X sk haves store chunks) s := by
  induction chunks generalizing store s with
  | nil => exact ⟨trivial, hq, by rintro _ ⟨⟩; exact hs⟩
  | cons i rest ih =>
      unfold Stream.recvChunks
      split
      -- staged already, so no frame comes
      · exact ih hq hs
      refine ⟨trivial, fun r s₁ hr => ?_⟩
      have hq₁ := hq.other hr (by rintro _ ⟨⟩)
      have hs₁ : Aside m store s₁.1 :=
        ⟨hs.dir, by rw [hq₁.keeps.files, ← hq.keeps.files]; exact hs.file⟩
      cases r with
      -- the channel failed, or the chunk does not open
      | error e => exact ⟨trivial, hq₁, by rintro _ ⟨⟩⟩
      | ok ct =>
          dsimp only [Prog.ofExcept, Prog.bind]
          split
          · exact ⟨trivial, hq₁, by rintro _ ⟨⟩⟩
          · next plain _ =>
              apply Safe.bind
              apply safe_onDisk
              refine (hq₁.writeChunk hs₁ i plain).mono fun r s₂ _ hr => ?_
              cases r with
              | error e => exact ⟨hr.1, by rintro _ ⟨⟩⟩
              | ok p =>
                  obtain ⟨res, store⟩ := p
                  cases res with
                  | error e => exact ⟨trivial, hr.1, by rintro _ ⟨⟩⟩
                  | ok u => exact ih hr.1 (hr.2 _ rfl)

/-- Until the store is open the destination is left alone. -/
theorem Quiet.negotiate {ct : Bytes} (hq : Quiet m fs s) (hkind : m.kind = .file)
    (hct : openVal X sk X.manifestJson .streamToReceiver 0 ct = .ok m)
    {k : Except Anyhow Bytes → StreamProg (Manifest × Option Store)}
    (hk : negotiate X sk = .step .recv k) :
    Ensures (faulty X sk) (fun r s' => Quiet m fs s' ∧
      ∀ p, r = .ok p → p.1 = m ∧ ∃ store, p.2 = some store ∧ Aside m store s'.1) (k (.ok ct)) s := by
  -- every answer but the last is the same: sealed, sent, then an error
  have hrefuse : ∀ {s : Fs × List StreamAction} (e : Anyhow), Quiet m fs s →
      Ensures (faulty X sk) (fun r s' => Quiet m fs s' ∧ ∀ p, r = .ok p → p.1 = m ∧
        ∃ store, p.2 = some store ∧ Aside m store s'.1)
        (refuse X e : StreamProg (Manifest × Option Store)) s := by
    intro s e hq
    refine ⟨trivial, fun r s₁ hr => ⟨trivial, fun r' s₂ hr' => ?_⟩⟩
    have hq₂ := (hq.other hr nofun).other hr' nofun
    cases r' with
    | error e' => exact ⟨trivial, hq₂, nofun⟩
    | ok u => exact ⟨trivial, hq₂, nofun⟩
  unfold Stream.negotiate at hk
  obtain rfl : _ = k := (Prog.step.inj hk).2 |> eq_of_heq
  show Ensures _ _ (ofExcept (withContext _ (openVal X sk X.manifestJson .streamToReceiver 0 ct)) >>= _) s
  rw [hct]
  show Ensures _ _ (if m.version ≠ PROTOCOL_VERSION then _ else _) s
  split
  -- another version, or a text over the limit
  · exact hrefuse _ hq
  split
  · exact hrefuse _ hq
  refine ⟨trivial, fun accepted s₁ hr => ?_⟩
  have hq₁ := hq.other hr nofun
  show Ensures _ _ (if accepted = false then _ else _) s₁
  split
  · exact hrefuse _ hq₁
  rw [if_neg (by rw [hkind]; nofun)]
  apply Safe.bind
  apply safe_onDisk
  -- accepted: the store is opened, and the ack sent
  refine (hq₁.openOrCreate _ _ _).mono fun r s₂ _ hr => ?_
  cases r with
  | error e => exact ⟨hr.1, nofun⟩
  | ok store =>
      refine ⟨trivial, fun _ s₃ h₃ => ⟨trivial, fun r' s₄ h₄ => ?_⟩⟩
      have hq₃ := hr.1.other h₃ nofun
      have hq₄ := hq₃.other h₄ nofun
      cases r' with
      | error e => exact ⟨trivial, hq₄, nofun⟩
      | ok u =>
          refine ⟨trivial, hq₄, ?_⟩
          rintro _ ⟨⟩
          have hs := hr.2 store rfl
          refine ⟨rfl, store, rfl, hs.dir, ?_⟩
          rw [hq₄.keeps.files, ← hr.1.keeps.files]
          exact hs.file

/-! ## After the rename -/

/-- The file was put in place once, and whether everything since then went well. -/
def After (m : Manifest) (clean : Bool) (tr : List StreamAction) : Prop :=
  ∃ before later, tr = before ++ placing m :: later ∧ placing m ∉ before ∧ placing m ∉ later ∧
    (clean = true ↔ ∀ a ∈ later, failed a = false)

theorem After.snoc {clean : Bool} {tr : List StreamAction} {a : StreamAction} (h : After m clean tr)
    (ha : placing m ≠ a) : After m (clean && !failed a) (tr ++ [a]) := by
  obtain ⟨before, later, rfl, hbefore, hlater, hclean⟩ := h
  refine ⟨before, later ++ [a], by simp, hbefore, by simp [hlater, ha], ?_⟩
  rw [Bool.and_eq_true, hclean, List.forall_mem_append]
  simp

theorem After.call {clean : Bool} {o : FsOp} {r : o.Res} (h : After m clean s.2)
    (hr : faultyDisk X sk o s r s') (ho : ∀ q, o ≠ .rename q (dest m)) :
    After m (clean && !o.failed r) s'.2 := by
  rw [hr.2]
  apply h.snoc (a := ⟨.loc (.fs o), r⟩)
  intro heq
  have hop := congrArg Action.op heq
  cases hop
  exact ho _ rfl

theorem After.removeFiles (h : After m true s.2) (dir : String) (files : List StagedFile) :
    Ensures (faultyDisk X sk) (fun r s' => After m r.isOk s'.2) (Store.removeFiles dir files) s := by
  induction files generalizing s with
  | nil => exact ⟨trivial, h⟩
  | cons f files ih =>
      refine ⟨trivial, fun r s₁ hr => ?_⟩
      have h₁ := h.call hr nofun
      cases r with
      | error e => exact ⟨trivial, h₁⟩
      | ok u => exact ih h₁

/-- Removing the staging directory succeeds exactly if none of its calls fails. -/
theorem After.removeDirAll (h : After m true s.2) (dir : String) :
    Ensures (faultyDisk X sk) (fun r s' => After m r.isOk s'.2) (Store.removeDirAll dir) s := by
  refine ⟨trivial, fun r s₁ hr => ?_⟩
  have h₁ := h.call hr nofun
  cases r with
  | error e => exact ⟨trivial, h₁⟩
  | ok files =>
      show Ensures _ _ (Store.removeFiles dir files >>= _) s₁
      apply Safe.bind
      refine (h₁.removeFiles dir files).mono fun r s₂ _ h₂ => ?_
      cases r with
      | error e => exact h₂
      | ok u =>
          refine ⟨trivial, fun r s₃ hr => ?_⟩
          have h₃ := h₂.call hr nofun
          cases r with
          | error e => exact ⟨trivial, h₃⟩
          | ok u => exact ⟨trivial, h₃⟩

/-- Before or after the rename; after it, the outcome tells whether anything failed since. -/
def Ends (m : Manifest) (fs : Fs) (r : Except Anyhow α) (s : Fs × List StreamAction) : Prop :=
  Quiet m fs s ∨ After m r.isOk s.2

/-- A rename that reports an error has not happened. -/
theorem rename_error {p q : Path} {e : IoError} {fs' : Fs}
    (h : (.error e, fs') = X.handle (.rename p q) fs) : fs' = fs := by
  unfold Externals.handle Fs.handle at h
  dsimp only at h
  split at h
  · split at h
    · cases h
    · cases h
      rfl
  · cases h
    rfl

theorem Quiet.finalize {store : Store} (hq : Quiet m fs s) (hs : Aside m store s.1)
    (hkind : m.kind = .file) (commit : Commit) (outDir : String) :
    Ensures (faultyDisk X sk) (Ends m fs)
      (finalize X store m commit outDir (safeName m.name)) s := by
  unfold Stream.finalize
  split
  -- incomplete
  · exact ⟨trivial, .inl hq⟩
  refine ⟨trivial, fun r s₁ hr => ?_⟩
  have hq₁ := hq.call hr trivial
  cases r with
  | error e => exact ⟨trivial, .inl hq₁⟩
  | ok data =>
      show Ensures _ _ (if X.blake3 data ≠ commit.blake3Hex then _ else _) s₁
      split
      · exact ⟨trivial, .inl hq₁⟩
      rw [hkind]
      refine ⟨trivial, fun r s₂ hr => ?_⟩
      have hpath : store.dataPath = .staged (stagingDir (safeName m.name)) .data := by
        rw [Store.dataPath, hs.dir]
      cases r with
      | error e =>
          -- a rename that failed has not happened
          refine ⟨trivial, .inl ⟨hq₁.keeps.trans ?_, ?_⟩⟩
          · rcases hr.1 with hdone | ⟨-, hfail⟩
            · rw [rename_error hdone]
              exact .refl hq₁.keeps.wf
            · exact hfail (safeName m.name)
          · rw [hr.2]
            intro hmem
            rcases List.mem_append.mp hmem with hmem | hmem
            · exact hq₁.before hmem
            · cases congrArg failed (List.mem_singleton.mp hmem)
      | ok u =>
          -- the file is in place: from here on every failure counts
          have hafter : After m true s₂.2 := by
            refine ⟨s₁.2, [], ?_, hq₁.before, by simp, by simp⟩
            rw [hr.2, hpath]
            rfl
          apply Safe.bind
          refine (hafter.removeDirAll store.dir).mono fun r s₃ _ h₃ => ?_
          cases r with
          | error e => exact .inr h₃
          | ok u => exact ⟨trivial, .inr h₃⟩

/-- The reply to the commit is sent after the rename: when that fails, so does the whole. -/
theorem reply {res : Except Anyhow String} (h : Ends m fs res s) :
    Ensures (faulty X sk) (Ends m fs) (do
      let ack ← seal_ .streamToSender 1 (X.commitAckJson.toVec (commitAck res))
      send ack
      ofExcept res) s := by
  refine ⟨trivial, fun ack s₁ h₁ => ⟨trivial, fun r s₂ h₂ => ?_⟩⟩
  rcases h with hq | hafter
  · have hq₂ := (hq.other h₁ nofun).other h₂ nofun
    cases r with
    | error e => exact ⟨trivial, .inl hq₂⟩
    | ok u => cases res <;> exact ⟨trivial, .inl hq₂⟩
  -- placed, so `Ok` is right exactly if nothing has failed since
  · have hafter₂ : After m (res.isOk && r.isOk) s₂.2 := by
      have h := (hafter.snoc (a := ⟨.loc (.seal_ _ _ _), ack⟩) nofun).snoc
        (a := ⟨.send ack, r⟩) nofun
      rw [h₂.2, h₁.2]
      simpa [failed] using h
    cases r with
    | error e => cases res <;> exact ⟨trivial, .inr hafter₂⟩
    | ok u => cases res <;> exact ⟨trivial, .inr hafter₂⟩

/-- From the opened store to the reply to the commit. -/
theorem Quiet.receivePayload {store : Store} (hq : Quiet m fs s) (hs : Aside m store s.1)
    (hkind : m.kind = .file) (outDir : String) :
    Ensures (faulty X sk) (Ends m fs) (receivePayload X sk outDir m store) s := by
  apply Safe.bind
  refine (hq.recvChunks hs _ _).mono fun r s₁ _ hr => ?_
  cases r with
  | error e => exact .inl hr.1
  | ok store' =>
      obtain ⟨hq₁, hs₁⟩ := hr
      have hs₁ := hs₁ store' rfl
      refine ⟨trivial, fun r s₂ hr => ?_⟩
      have hq₂ := hq₁.other hr nofun
      have hs₂ : Aside m store' s₂.1 :=
        ⟨hs₁.dir, by rw [hq₂.keeps.files, ← hq₁.keeps.files]; exact hs₁.file⟩
      cases r with
      | error e => exact ⟨trivial, .inl hq₂⟩
      | ok ct =>
          show Ensures _ _ (ofExcept (openVal X sk X.commitJson _ _ ct) >>= _) s₂
          -- does the commit open?
          cases openVal X sk X.commitJson .streamToReceiver (1 + m.totalChunks) ct with
          | error e => exact ⟨trivial, .inl hq₂⟩
          | ok commit =>
              show Ensures _ _ (onDisk (Stream.finalize X store' m commit outDir
                (safeName m.name)).attempt >>= _) s₂
              apply Safe.bind
              apply safe_onDisk
              apply Safe.attempt
              exact (hq₂.finalize hs₂ hkind commit outDir).mono fun res s₃ _ h₃ => reply h₃

theorem ensures_recvInto (hwf : fs.Wf) (hkind : m.kind = .file) (outDir : String) {ct : Bytes}
    (hct : openVal X sk X.manifestJson .streamToReceiver 0 ct = .ok m)
    {k : Except Anyhow Bytes → StreamProg String} (hk : recvInto X sk outDir = .step .recv k) :
    Ensures (faulty X sk) (Ends m fs) (k (.ok ct)) (fs, [⟨.recv, .ok ct⟩]) := by
  have hq : Quiet m fs (fs, [⟨.recv, .ok ct⟩]) := by
    refine ⟨.refl hwf, ?_⟩
    intro hmem
    cases congrArg Action.op (List.mem_singleton.mp hmem)
  obtain rfl : _ = k := eq_of_heq (Prog.step.inj hk).2
  apply Safe.bind
  refine (hq.negotiate hkind hct rfl).mono fun r s _ hr => ?_
  cases r with
  | error e => exact .inl hr.1
  | ok p =>
      obtain ⟨rfl, store, hstore, hs⟩ := hr.2 p rfl
      obtain ⟨m, store?⟩ := p
      cases hstore
      exact hr.1.receivePayload hs hkind outDir

/-! ## Runs -/

/-- The trace only grows. -/
theorem prefix_of_runs {p q : StreamProg α} (h : Runs (faulty X sk) (p, s) (q, s')) : s.2 <+: s'.2 := by
  suffices hgen : ∀ c, Runs (faulty X sk) (p, s) c → s.2 <+: c.2.2 from hgen _ h
  intro c hc
  induction hc with
  | refl => exact List.prefix_refl _
  | tail _ hstep ih =>
      cases hstep with
      | mk hR =>
          apply ih.trans
          rw [hR.2]
          exact List.prefix_append _ _

theorem After.settled_iff {clean : Bool} {tr : List StreamAction} (h : After m clean tr) :
    Settled m tr ↔ clean = true := by
  obtain ⟨before, later, rfl, hbefore, hlater, hclean⟩ := h
  rw [hclean]
  constructor
  · exact fun hset => hset before later rfl
  · intro hall before' later' heq a ha
    -- the rename happens once, so there is one way to cut the trace at it
    obtain ⟨-, -, rfl⟩ := (List.append_cons_inj_of_notMem hbefore hlater).mp heq
    exact hall a ha

theorem Quiet.settled (hq : Quiet m fs s) : Settled m s.2 := by
  intro before later heq
  apply absurd _ hq.before
  simp [heq]

theorem ends_of_runs (hwf : fs.Wf) {outDir : String} {fs' : Fs} {tr : List StreamAction}
    {r : Except Anyhow String}
    (hrun : Runs (faulty X sk) (recvInto X sk outDir, (fs, [])) (ofExcept r, (fs', tr)))
    (hoffer : Offers X sk m tr) (hkind : m.kind = .file) : Ends m fs r (fs', tr) := by
  obtain ⟨ct, rest, rfl, hct⟩ := hoffer
  obtain ⟨k, hk⟩ : ∃ k, recvInto X sk outDir = .step .recv k := ⟨_, rfl⟩
  rw [hk] at hrun
  rcases Relation.ReflTransGen.cases_head hrun with heq | ⟨c, hstep, hruns⟩
  · cases congrArg (fun c => c.2.2) heq
  cases hstep with
  | @mk _ _ _ s₁ r₁ hR =>
      obtain ⟨fs₁, tr₁⟩ := s₁
      obtain ⟨rfl, rfl⟩ : fs₁ = fs ∧ tr₁ = [⟨.recv, r₁⟩] := hR
      -- the first message is the one the trace shows
      obtain rfl : r₁ = .ok ct := by
        have hhead := (List.cons_prefix_cons.mp (prefix_of_runs hruns)).1
        cases hhead
        rfl
      have hsafe := (ensures_recvInto hwf hkind outDir hct hk).of_runs hruns
      cases r with
      | error e => exact hsafe.2
      | ok desc => exact hsafe.2

theorem After.placed {clean : Bool} {tr : List StreamAction} (h : After m clean tr) :
    placing m ∈ tr := by
  obtain ⟨before, later, rfl, -⟩ := h
  simp

/-- **A failed receive leaves the destination alone and a placed file is reported, exactly if nothing
fails once the file is in place**: not the removal of the staging directory, and not the reply. -/
theorem reported_iff (hwf : fs.Wf) {outDir : String} {fs' : Fs} {tr : List StreamAction}
    {r : Except Anyhow String}
    (hrun : Runs (faulty X sk) (recvInto X sk outDir, (fs, [])) (ofExcept r, (fs', tr)))
    (hoffer : Offers X sk m tr) (hkind : m.kind = .file) :
    Reported m fs fs' tr r ↔ Settled m tr := by
  rcases ends_of_runs hwf hrun hoffer hkind with hq | hafter
  · refine ⟨fun _ => hq.settled, fun _ => ⟨fun _ _ => hq.keeps.content, ?_, ?_⟩⟩
    · exact fun hmem => absurd hmem hq.before
    · exact fun hmem => absurd hmem hq.before
  · rw [hafter.settled_iff]
    cases r with
    | error e =>
        refine ⟨fun hrep => ?_, nofun⟩
        obtain ⟨desc, hdesc⟩ := hrep.placed hafter.placed
        cases hdesc
    | ok desc =>
        exact ⟨fun _ => rfl, fun _ => ⟨nofun, fun _ => ⟨desc, rfl⟩, fun _ _ => ⟨desc, rfl⟩⟩⟩

/-! ## A reply that is lost -/

theorem runs_head {o : streamEffects.Op} {k : streamEffects.Res o → StreamProg α}
    {r : streamEffects.Res o} {fs' d : Fs} {past tr : List StreamAction} {q : StreamProg α}
    (hans : Answers X sk o fs r fs')
    (h : Runs (faulty X sk) (k r, (fs', past ++ [⟨o, r⟩])) (q, (d, past ++ [⟨o, r⟩] ++ tr))) :
    Runs (faulty X sk) (.step o k, (fs, past)) (q, (d, past ++ ⟨o, r⟩ :: tr)) := by
  rw [List.append_assoc] at h
  exact .head (.mk ⟨hans, rfl⟩) h

/-- What goes well is one of the things that may happen. -/
theorem runs_of_does {host host' : Host} {ms : List Bytes} {p q : StreamProg α}
    {past tr : List StreamAction} (h : Does (Host.handle X sk) host ms p tr q host') :
    Runs (faulty X sk) (p, (host.disk, past)) (q, (host'.disk, past ++ tr)) := by
  induction h generalizing past with
  | nil s p =>
      rw [List.append_nil]
  | send _ ih => exact runs_head rfl ih
  | recv _ ih => exact runs_head rfl ih
  | @loc s _ _ o _ _ _ _ ih =>
      apply runs_head _ ih
      cases o with
      | seal_ domain index plaintext => exact ⟨rfl, rfl⟩
      | readAt off len => rfl
      | readAll => rfl
      | accept m => rfl
      | fs o => exact .inl rfl

/-- A file, offered to a receiver with nothing on disk. -/
def aFile (content : Bytes) : Manifest :=
  streamManifest (.blob .file Kind.file_ne_text "a" [] content.length "t")

/-- What the receiver of a complete transfer is about to do last. -/
def lastReply (X : Externals) (sk : Key) (desc : String) : StreamProg String :=
  .step (.send (commitAckFrame X sk ⟨true, none⟩)) fun r => ofExcept r >>= fun _ => .ret desc

theorem runs_lastReply (desc : String) (past : List StreamAction) (answer : Except Anyhow Unit) :
    Runs (faulty X sk) (lastReply X sk desc, (fs, past)) (ofExcept (answer.map fun _ => desc),
      (fs, past ++ [⟨.send (commitAckFrame X sk ⟨true, none⟩), answer⟩])) := by
  refine runs_head (show Answers X sk (.send _) fs answer fs from rfl) ?_
  rw [List.append_nil]
  cases answer with
  | error e => exact .refl
  | ok u => exact .refl

variable (sk) in
theorem does_untilReply {tr : List StreamAction} {ms : List Bytes} {store store' : Store} {fs' fs'' : Fs}
    {file : Bytes} (hchunks : Does (Host.handle X sk) ⟨file, fs⟩ ms
      (recvChunks X sk store.haves store (List.range m.totalChunks)) tr (.ret store') ⟨file, fs'⟩)
    {outDir desc : String} {commit : Commit}
    (hfin : (finalize X store' m commit outDir (safeName m.name)).eval X.handle fs' = (.ok desc, fs'')) :
    ∃ tr', Does (Host.handle X sk) ⟨file, fs⟩
      (ms ++ [X.cipher.seal_ sk .streamToReceiver (1 + m.totalChunks) [] (X.commitJson.toVec commit)])
      (receivePayload X sk outDir m store) tr' (lastReply X sk desc) ⟨file, fs''⟩ := by
  -- the outcome is sealed before it is returned
  have hfin' : (finalize X store' m commit outDir (safeName m.name)).attempt.eval X.handle fs'
      = (.ok (.ok desc), fs'') := by
    rw [eval_attempt, hfin]
  obtain ⟨trEnd, htail⟩ : ∃ trEnd, Does (Host.handle X sk) ⟨file, fs'⟩ [] (do
      let res ← onDisk (finalize X store' m commit outDir (safeName m.name)).attempt
      let ack ← seal_ .streamToSender 1 (X.commitAckJson.toVec (commitAck res))
      send ack
      ofExcept res) trEnd (lastReply X sk desc) ⟨file, fs''⟩ :=
    ⟨_, (does_onDisk_ok X sk ⟨file, fs'⟩ hfin').andThen (.loc (.nil _ _))⟩
  refine ⟨tr ++ ⟨.recv, .ok (X.cipher.seal_ sk .streamToReceiver (1 + m.totalChunks) []
    (X.commitJson.toVec commit))⟩ :: trEnd, hchunks.andThen ?_⟩
  rw [recv_bind]
  refine .recv ?_
  rw [ofExcept_ok, ret_bind, openVal_seal_]
  exact htail

/-- The file is received and put in place; what becomes of the last reply is open. -/
theorem exists_placed (X : Externals) (sk : Key) (outDir : String) (content : Bytes)
    (answer : Except Anyhow Unit) :
    ∃ fs' tr, Runs (faulty X sk) (recvInto X sk outDir, (Fs.blank, [])) (ofExcept (answer.map fun _ =>
        "saved " ++ joinPath outDir (safeName (aFile content).name)), (fs', tr)) ∧
      Offers X sk (aFile content) tr ∧ fs'.content (dest (aFile content)) = some content := by
  have hblob : IsBlob (aFile content) := ⟨rfl, (nofun : Kind.file ≠ .text), rfl⟩
  have hholds : Store.Holds (PartOf (aFile content) content) (startData X (aFile content) Fs.blank)
      (startState X (aFile content) Fs.blank) := .of_isEmpty frameSize_pos (length_setLen _ _ _) rfl
  obtain ⟨store, fs₁, hopen, hst, hstate, hsame⟩ := Staged.open Fs.blank_wf (blank_clear _).makes hholds
  have hpart : ∀ i, i ∉ store.state.haves → PartOf (aFile content) content i (chunkOf content i) :=
    fun _ _ => rfl
  -- every chunk is written, as none was staged
  obtain ⟨tr, store', fs₂, hchunks, hst', hsame', hhaves, -⟩ := does_recvChunks (C := fun _ => True) sk
    (fun _ _ _ _ => trivial) hblob.chunkSize (show content.length = (aFile content).totalSize from rfl)
    store.state.haves hpart content (List.range (aFile content).totalChunks)
    (fun i hi => List.mem_range.mp hi) hst hsame
  have hnone : ∀ i, i ∉ store.state.haves := by
    intro i
    rw [hstate]
    exact SortedSet.not_mem_empty i
  have hall : ∀ i < (aFile content).totalChunks, i ∈ store'.state.haves :=
    fun i hi => (hhaves i).mpr (.inr (List.mem_filter.mpr ⟨List.mem_range.mpr hi, by simpa using hnone i⟩))
  obtain ⟨fs₃, hfin, -, hdest, -⟩ := eval_finalize_of_eq hst' hall (hst'.data_eq rfl hall) ⟨X.blake3 content⟩
    outDir (safeName (aFile content).name) rfl rfl ((blank_clear _).outside hsame').dest
  obtain ⟨tr', hpay⟩ := does_untilReply sk hchunks hfin
  have hdoes : Does (Host.handle X sk) ⟨content, Fs.blank⟩ _ (recvInto X sk outDir) _ _ ⟨content, fs₃⟩ :=
    (does_negotiate sk hblob content hopen).andThen hpay
  refine ⟨fs₃, _, (runs_of_does hdoes).trans (runs_lastReply _ _ answer), ⟨_, _, rfl, ?_⟩, hdest⟩
  exact openVal_seal_ X sk _ _ _ _

theorem reported_iff_oneByte : ∃ fs' tr desc,
    Runs (faulty (.ideal fun _ => "") []) (recvInto (.ideal fun _ => "") [] "out", (Fs.blank, []))
      (ofExcept (.ok desc), (fs', tr)) ∧
    fs'.content (dest (aFile [7])) = some [7] ∧ placing (aFile [7]) ∈ tr ∧
    Reported (aFile [7]) Fs.blank fs' tr (.ok desc) := by
  obtain ⟨fs', tr, hrun, hoffer, hdest⟩ := exists_placed (.ideal fun _ => "") [] "out" [7] (.ok ())
  have hplaced : After (aFile [7]) true tr := by
    rcases ends_of_runs Fs.blank_wf hrun hoffer rfl with hq | hafter
    · cases hdest.symm.trans hq.keeps.content
    · exact hafter
  exact ⟨fs', tr, _, hrun, hdest, hplaced.placed,
    (reported_iff Fs.blank_wf hrun hoffer rfl).mpr (hplaced.settled_iff.mpr rfl)⟩

/-- The connection ends just before the last reply: the file is in place, the caller is told that the
connection was lost, and the room is armed again. -/
theorem not_reported_replyLost : ∃ fs' tr,
    Runs (faulty (.ideal fun _ => "") []) (recvInto (.ideal fun _ => "") [] "out", (Fs.blank, []))
      (.fail (.transportLost (.msg "the other side disconnected")), (fs', tr)) ∧
    Offers (.ideal fun _ => "") [] (aFile []) tr ∧ placing (aFile []) ∈ tr ∧
    Fs.blank.content (dest (aFile [])) = none ∧ fs'.content (dest (aFile [])) = some [] ∧
    Receive.next 0 (.error (.transportLost (.msg "the other side disconnected"))) = .again 0 0 ∧
    ¬ Reported (aFile []) Fs.blank fs' tr
      (.error (.transportLost (.msg "the other side disconnected"))) := by
  obtain ⟨fs', tr, hrun, hoffer, hdest⟩ := exists_placed (.ideal fun _ => "") [] "out" []
    (.error (.transportLost (.msg "the other side disconnected")))
  have hplaced : placing (aFile []) ∈ tr := by
    rcases ends_of_runs Fs.blank_wf hrun hoffer rfl with hq | hafter
    · cases hdest.symm.trans hq.keeps.content
    · exact hafter.placed
  refine ⟨fs', tr, hrun, hoffer, hplaced, rfl, hdest, rfl, ?_⟩
  intro hrep
  obtain ⟨desc, hdesc⟩ := hrep.placed hplaced
  cases hdesc

end Stream
end B2p
