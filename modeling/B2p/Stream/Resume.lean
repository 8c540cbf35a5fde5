import B2p.Stream.Session
import B2p.Lib.Text

/-!
# Resuming a stream transfer

Attempt after attempt to send one file, each over a channel that may die at any message, and then one
over a channel that does not.

* `Ready` — what every attempt finds in the output directory and leaves there: if something is staged,
  it is part of this very file.
* `Ready.exists_complete`, `Ready.exists_failing` — a session with nothing in its way, and one that cannot
  succeed.
* `Ready.attempt` — an attempt keeps it, wherever its channel dies.
* `Delivered` — how the last attempt ends.
-/

namespace B2p

open Interaction Prog Fs

namespace Stream

variable (X : Externals)

/-! ## Between two attempts -/

/-- The staging directory, if there is a state in it, is for the transfer `m`, and every chunk it lists
is backed by the bytes of `content`. -/
structure Ready (m : Manifest) (content : Bytes) (fs : Fs) : Prop where
  wf : fs.Wf
  forThis : ∀ st, Store.persisted X fs (safeName m.name) = some st →
    st.transferId = m.transferId ∧ st.totalSize = m.totalSize ∧ st.chunkSize = m.chunkSize
  backed : ∀ st, Store.persisted X fs (safeName m.name) = some st → st.haves.isEmpty = false →
    ∃ data, fs.content (.staged (stagingDir (safeName m.name)) .data) = some data ∧
      Store.Holds (PartOf m content) data st

variable {X} {m : Manifest} {content : Bytes} {fs : Fs} {store : Store}

theorem Ready.of_none (hwf : fs.Wf)
    (hnone : fs.content (.staged (stagingDir (safeName m.name)) .stateJson) = none) :
    Ready X m content fs := by
  have hp : Store.persisted X fs (safeName m.name) = none := by
    rw [Store.persisted, hnone]
    rfl
  refine ⟨hwf, ?_, ?_⟩
  · intro st hst
    rw [hp] at hst
    cases hst
  · intro st hst
    rw [hp] at hst
    cases hst

theorem Ready.of_staged (h : Staged X m (PartOf m content) store fs) : Ready X m content fs := by
  refine ⟨h.live.wf, ?_, ?_⟩
  · intro st hst
    rw [h.persisted, Option.some.injEq] at hst
    subst hst
    exact ⟨h.transferId, h.totalSize, h.chunkSize⟩
  · intro st hst _
    rw [h.persisted, Option.some.injEq] at hst
    subst hst
    obtain ⟨data, hd, hb⟩ := h.holds
    rw [Store.dataPath, h.dir] at hd
    exact ⟨data, hd, hb⟩

/-- What an attempt resumes is part of the file. -/
theorem Ready.holds (h : Ready X m content fs) (hm : IsBlob m) :
    Store.Holds (PartOf m content) (startData X m fs) (startState X m fs) :=
  Store.holds_open (hm.chunkSize ▸ frameSize_pos) fun st hst _ hne => h.backed st hst hne

/-- What a receiver reports that finds a directory in the file's place. -/
def movingOntoDir (outDir name : String) : Anyhow :=
  .context ("moving download into place at " ++ joinPath outDir name) (.io .isDirectory)

section finalize

variable {fs₀ fs' : Fs} (h : Staged X m (PartOf m content) store fs) (hkind : m.kind = .file)
  (hsize : content.length = m.totalSize) (hall : ∀ i < m.totalChunks, i ∈ store.state.haves)
  {outDir : String} {res : Except Anyhow String}
  (heval : (finalize X store m ⟨X.blake3 content⟩ outDir (safeName m.name)).eval X.handle fs = (res, fs'))

include h hkind hsize hall heval

/-- Once every chunk is staged, the receiver's `finalize` moves the content into place and removes the
directory, unless it finds a directory there. -/
theorem finalize_cases :
    (fs.dirs (safeName m.name) = false ∧ res = .ok ("saved " ++ joinPath outDir (safeName m.name)) ∧
      Store.Gone (stagingDir (safeName m.name)) fs' ∧ fs'.content (.out (safeName m.name)) = some content ∧
      (∀ n, n ≠ safeName m.name → fs'.content (.out n) = fs.content (.out n)) ∧
      ∀ d, d ≠ stagingDir (safeName m.name) → fs'.dirs d = fs.dirs d) ∨
    (fs.dirs (safeName m.name) = true ∧ res = .error (movingOntoDir outDir (safeName m.name)) ∧ fs' = fs) := by
  have hdata := h.data_eq hsize hall
  cases hdest : fs.dirs (safeName m.name) with
  | false =>
      obtain ⟨fs₁, hok, hgone, hplaced, houts, hdirs⟩ :=
        eval_finalize_of_eq h hall hdata ⟨X.blake3 content⟩ outDir (safeName m.name) hkind rfl hdest
      obtain ⟨rfl, rfl⟩ := Prod.mk.inj (hok.symm.trans heval)
      rw [h.dir] at hgone hdirs
      exact .inl ⟨rfl, rfl, hgone, hplaced, houts, hdirs⟩
  -- a directory is in the way: the rename fails and nothing has changed
  | true =>
      have hno := eval_finalize_of_dir h hall hdata outDir (safeName m.name) hkind
        (show X.blake3 content = (⟨X.blake3 content⟩ : Commit).blake3Hex from rfl) hdest
      obtain ⟨rfl, rfl⟩ := Prod.mk.inj (hno.symm.trans heval)
      exact .inr ⟨rfl, rfl, rfl⟩

theorem finalize_of_staged (hdest : fs.dirs (safeName m.name) = false) :
    res = .ok ("saved " ++ joinPath outDir (safeName m.name)) ∧
      Store.Gone (stagingDir (safeName m.name)) fs' ∧
      fs'.content (.out (safeName m.name)) = some content := by
  rcases finalize_cases h hkind hsize hall heval with ⟨-, hres, hgone, hplaced, -⟩ | ⟨hdir, -⟩
  · exact ⟨hres, hgone, hplaced⟩
  · exact absurd (hdest.symm.trans hdir) nofun

end finalize

/-! ## One attempt -/

variable (X) in
/-- What an attempt that starts on `fs` keeps: the directory is ready, and there is nothing new in the way. -/
structure Stays (m : Manifest) (content : Bytes) (fs fs' : Fs) : Prop where
  ready : Ready X m content fs'
  clear : fs.Clear (safeName m.name) → fs'.Clear (safeName m.name)

theorem Stays.refl (h : Ready X m content fs) : Stays X m content fs fs := ⟨h, id⟩

theorem Stays.trans {fs' fs'' : Fs} (h : Stays X m content fs fs') (h' : Stays X m content fs' fs'') :
    Stays X m content fs fs'' :=
  ⟨h'.ready, fun hclear => h'.clear (h.clear hclear)⟩

theorem Stays.of_staged {fs' : Fs} (h : Staged X m (PartOf m content) store fs')
    (hsame : SameOutside (stagingDir (safeName m.name)) fs fs') : Stays X m content fs fs' :=
  ⟨.of_staged h, fun hclear => hclear.outside hsame⟩

theorem Stays.of_finalized {fs₁ fs' : Fs} {outDir : String} {res : Except Anyhow String}
    (h : Staged X m (PartOf m content) store fs₁) (hsame : SameOutside (stagingDir (safeName m.name)) fs fs₁)
    (hkind : m.kind = .file) (hsize : content.length = m.totalSize)
    (hall : ∀ i < m.totalChunks, i ∈ store.state.haves)
    (heval : (finalize X store m ⟨X.blake3 content⟩ outDir (safeName m.name)).eval X.handle fs₁ = (res, fs')) :
    Stays X m content fs fs' := by
  rcases finalize_cases h hkind hsize hall heval with ⟨-, -, hgone, -, houts, hdirs⟩ | ⟨-, -, rfl⟩
  · exact ⟨.of_none hgone.wf (hgone.files _), fun hclear => (hclear.outside hsame).placed houts hdirs⟩
  · exact .of_staged h hsame

section attempt

variable {name transferId outDir : String} {entries : List Entry} {content : Bytes} {sk : Key}
  (h : Ready X (streamManifest (fileSource name entries content transferId)) content fs)

include h

theorem Ready.exists_exchange (hmakes : fs.Makes (stagingDir (safeName name))) (sk : Key) (outDir : String) :
    ∃ log store fs' res, Complete X sk (fileSource name entries content transferId) outDir content fs
      (PartOf (streamManifest (fileSource name entries content transferId)) content)
      (Stays X (streamManifest (fileSource name entries content transferId)) content fs)
      log store fs' res ∧ got (own .right log) = sent (own .left log) ∧
      sent (own .right log) = [ackFrame X sk (openingAck (startState X (streamManifest
        (fileSource name entries content transferId)) fs)), commitAckFrame X sk (commitAck res)] :=
  Stream.exists_complete_exchange sk _ rfl outDir h.wf rfl hmakes (h.holds isBlob_blobSource)
    (fun _ _ => rfl) (.refl h) (fun _ _ hst hsame => .of_staged hst hsame)
    fun _ _ _ _ hst hsame hall heval => .of_finalized hst hsame rfl rfl hall heval

/-- **From a ready directory, an honest session can be completed**, and the directory is ready at
every message of it. -/
theorem Ready.exists_complete (hmakes : fs.Makes (stagingDir (safeName name))) (sk : Key) (outDir : String) :
    ∃ log store fs' res, Complete X sk (fileSource name entries content transferId) outDir content fs
      (PartOf (streamManifest (fileSource name entries content transferId)) content)
      (Stays X (streamManifest (fileSource name entries content transferId)) content fs)
      log store fs' res := by
  obtain ⟨log, store, fs', res, hc, -⟩ := h.exists_exchange hmakes sk outDir
  exact ⟨log, store, fs', res, hc⟩

/-- Onto a directory nothing is delivered: a session that nothing interrupts fails on both sides. -/
theorem Ready.exists_onto_dir (hmakes : fs.Makes (stagingDir (safeName name)))
    (hdir : fs.dirs (safeName name) = true) (sk : Key) (outDir : String) :
    ∃ log, Session X sk False (fileSource name entries content transferId) outDir content fs log
        (pick (ofExcept (senderOutcome (.error (movingOntoDir outDir (safeName name)))))
          (.fail (movingOntoDir outDir (safeName name)))) ∧
      AtMessages (Host.handle X sk) (fun host => Stays X (streamManifest (fileSource name entries content
        transferId)) content fs host.disk) ⟨content, fs⟩ (own .right log) ∧
      Stays X (streamManifest (fileSource name entries content transferId)) content fs
        (diskAfter X sk content fs log) := by
  obtain ⟨log, store, fs', res, hc⟩ := h.exists_complete hmakes sk outDir
  have hdir' : fs'.dirs (safeName name) = true := (hc.outside.dirs _ (stagingDir_ne _).symm).trans hdir
  rcases finalize_cases hc.staged rfl rfl hc.all hc.finalized with ⟨hno, -⟩ | ⟨-, rfl, -⟩
  · exact absurd (hno.symm.trans hdir') nofun
  · exact ⟨log, hc.run, hc.atMessages, .of_finalized hc.staged hc.outside rfl rfl hc.all hc.finalized⟩

/-- **Where something is in the way, a session comes to rest and no side has returned.** -/
theorem Ready.exists_failing
    (hno : ¬ (fs.Makes (stagingDir (safeName name)) ∧ fs.dirs (safeName name) = false)) (sk : Key)
    (outDir : String) :
    ∃ log qs, Session X sk False (fileSource name entries content transferId) outDir content fs log qs ∧
      AtRest log qs ∧ (∀ p desc, qs p ≠ .ret desc) ∧
      AtMessages (Host.handle X sk) (fun host => Stays X (streamManifest (fileSource name entries content
        transferId)) content fs host.disk) ⟨content, fs⟩ (own .right log) ∧
      Stays X (streamManifest (fileSource name entries content transferId)) content fs
        (diskAfter X sk content fs log) := by
  -- it fails at the open, or with every chunk there at the rename
  by_cases hmakes : fs.Makes (stagingDir (safeName name))
  · have hdir : fs.dirs (safeName name) = true := Bool.eq_true_of_not_eq_false fun hfree => hno ⟨hmakes, hfree⟩
    obtain ⟨log, hrun, hat, hstays⟩ := h.exists_onto_dir hmakes hdir sk outDir
    exact ⟨log, _, hrun, .of_leaf (by rintro (_ | _) <;> trivial), by rintro (_ | _) <;> nofun, hat, hstays⟩
  · obtain ⟨log, qs, hrun, hrest, hright, ⟨k, hleft⟩, hdisk, hat⟩ :=
      exists_blocked (C := Stays X (streamManifest
      (fileSource name entries content transferId)) content fs) sk _ rfl outDir rfl
      (Store.eval_openOrCreate_of_file X hmakes _ _ _) (.refl h)
    refine ⟨log, qs, hrun, hrest, ?_, hat, by rw [hdisk]; exact .refl h⟩
    rintro (_ | _) desc
    · rw [hleft]
      nofun
    · rw [hright]
      nofun

omit h

variable (X) in
/-- One attempt with a fresh key, over a channel that may die: the receiver starts on `fs` and leaves
`fs'`. -/
def Attempt (source : Source) (outDir : String) (content : Bytes) (fs fs' : Fs) : Prop :=
  ∃ sk log qs, Session X sk True source outDir content fs log qs ∧ IsLeaf (qs .right) ∧
    fs' = diskAfter X sk content fs log

theorem failsFast_party (source : Source) (p : Side) : FailsFast (party X sk source outDir p) := by
  cases p with
  | left => exact failsFast_sendSource X sk source
  | right => exact failsFast_recvInto X sk outDir

theorem isLeaf_ofExcept {α : Type} (x : Except Anyhow α) : IsLeaf (ofExcept x : StreamProg α) := by
  cases x <;> trivial

theorem isLeaf_pick (a b : Except Anyhow String) (p : Side) :
    IsLeaf (pick (β := fun _ => StreamProg String) (ofExcept a) (ofExcept b) p) := by
  cases p <;> exact isLeaf_ofExcept _

include h

/-- Some session comes to rest, on whatever disk. -/
theorem Ready.exists_rest (sk : Key) (outDir : String) :
    ∃ log qs, Session X sk False (fileSource name entries content transferId) outDir content fs log qs ∧
      AtRest log qs ∧
      AtMessages (Host.handle X sk) (fun host => Stays X (streamManifest (fileSource name entries content
        transferId)) content fs host.disk) ⟨content, fs⟩ (own .right log) ∧
      Stays X (streamManifest (fileSource name entries content transferId)) content fs
        (diskAfter X sk content fs log) := by
  by_cases hfree : fs.Makes (stagingDir (safeName name)) ∧ fs.dirs (safeName name) = false
  · obtain ⟨log, store, fs', res, hc⟩ := h.exists_complete hfree.1 sk outDir
    exact ⟨log, _, hc.run, .of_leaf (isLeaf_pick _ _), hc.atMessages,
      .of_finalized hc.staged hc.outside rfl rfl hc.all hc.finalized⟩
  · obtain ⟨log, qs, hrun, hrest, -, hat, hstays⟩ := h.exists_failing hfree sk outDir
    exact ⟨log, qs, hrun, hrest, hat, hstays⟩

/-- **Wherever the channel dies, the directory is left ready**, and nothing new in the way. -/
theorem Ready.attempt {fs' : Fs}
    (ha : Attempt X (fileSource name entries content transferId) outDir content fs fs') :
    Stays X (streamManifest (fileSource name entries content transferId)) content fs fs' := by
  obtain ⟨sk, log, qs, hrun, hleaf, rfl⟩ := ha
  obtain ⟨log₀, qs₀, hrun₀, hrest, hat, hstays⟩ := h.exists_rest sk outDir
  have htracks := tracks hrun₀ hrest (failsFast_party _) hrun .right
  exact htracks.holds (C := fun host : Host => Stays X _ content fs host.disk) (hrun₀.follows .right)
    (hrun.follows .right) hleaf hat hstays

omit h

end attempt

/-! ## The last attempt -/

variable (X) in
/-- The chunks the staging directory's state lists. -/
def stagedChunks (fs : Fs) (name : String) : SortedSet Nat :=
  ((Store.persisted X fs name).map State.haves).getD .empty

theorem Ready.startState_haves (h : Ready X m content fs) :
    (startState X m fs).haves = stagedChunks X fs (safeName m.name) := by
  rw [startState, Store.stateOn_eq, stagedChunks]
  cases hp : Store.persisted X fs (safeName m.name) with
  | none => rfl
  | some st =>
      dsimp only
      rw [if_pos (h.forThis st hp)]
      rfl

theorem Ready.stagedChunks_lt (h : Ready X m content fs) (hm : IsBlob m) :
    ∀ i ∈ stagedChunks X fs (safeName m.name), i < m.totalChunks := by
  intro i hi
  have hgeo := Store.stateOn_geometry X (safeName m.name) fs m.transferId m.totalSize
    m.chunkSize
  have hchunk := ((h.holds hm).chunks i (h.startState_haves ▸ hi)).1
  rwa [startState, hgeo.2.1, hgeo.2.2] at hchunk

variable (X) in
/-- How a session that nothing interrupts ends, for the file `content` under `name`: both sides return
`Ok`, the file is in place and the staging directory gone; the sender sealed and sent, and the receiver
wrote, exactly the chunks that were not staged before. -/
structure Delivered (sk : Key) (source : Source) (outDir : String) (content : Bytes) (fs : Fs)
    (log : List (Side × StreamAction)) (qs : (p : Side) → StreamProg String) : Prop where
  sender : qs .left = .ret "transfer complete"
  receiver : qs .right = .ret ("saved " ++ joinPath outDir (safeName (streamManifest source).name))
  dest : (diskAfter X sk content fs log).content (.out (safeName (streamManifest source).name))
    = some content
  gone : Store.Gone (stagingDir (safeName (streamManifest source).name)) (diskAfter X sk content fs log)
  sealed : sealed (own .left log) = 0 :: (missing (streamManifest source).totalChunks
    (stagedChunks X fs (safeName (streamManifest source).name))).map (1 + ·)
      ++ [1 + (streamManifest source).totalChunks]
  written : written (own .right log) = missing (streamManifest source).totalChunks
    (stagedChunks X fs (safeName (streamManifest source).name))
  frames : sent (own .left log) = manifestFrame X sk (streamManifest source) ::
    (missing (streamManifest source).totalChunks
      (stagedChunks X fs (safeName (streamManifest source).name))).map (chunkFrame X sk content)
      ++ [commitFrame X sk (streamManifest source).totalChunks content]
  count : (missing (streamManifest source).totalChunks
      (stagedChunks X fs (safeName (streamManifest source).name))).length
    + (stagedChunks X fs (safeName (streamManifest source).name)).card
    = (streamManifest source).totalChunks

section last

variable {name transferId outDir : String} {entries : List Entry} {content : Bytes} {sk : Key}

theorem Ready.delivered {log : List (Side × StreamAction)} {qs : (p : Side) → StreamProg String}
    (h : Ready X (streamManifest (fileSource name entries content transferId)) content fs)
    (hclear : fs.Clear (safeName name))
    (hrun : Session X sk False (fileSource name entries content transferId) outDir content fs log qs)
    (hleaf : ∀ p, IsLeaf (qs p)) :
    Delivered X sk (fileSource name entries content transferId) outDir content fs log qs := by
  obtain ⟨log₀, store, fs₁, res, hc⟩ := h.exists_complete hclear.makes sk outDir
  -- any run that ends is a reordering of the complete one
  have hown : ∀ p, own p log = own p log₀ := fun p =>
    own_eq_of_isLeaf hc.run (isLeaf_pick _ _) (failsFast_party _) hrun (hleaf p)
  have hqs := fun p => eq_of_isLeaf hc.run (isLeaf_pick _ _) (failsFast_party _) hrun (hleaf p)
  have hdisk : diskAfter X sk content fs log = diskAfter X sk content fs log₀ := by
    rw [diskAfter, diskAfter, hown]
  obtain ⟨rfl, hgone, hdest⟩ :=
    finalize_of_staged hc.staged rfl rfl hc.all hc.finalized (hclear.outside hc.outside).dest
  have hframes := hc.frames
  have hsealed := hc.sealed
  have hwritten := hc.written
  rw [h.startState_haves, ← hown] at hframes hsealed hwritten
  refine ⟨hqs .left, hqs .right, ?_, ?_, hsealed, hwritten, hframes, ?_⟩
  · rw [hdisk]
    exact hdest
  · rw [hdisk]
    exact hgone
  · exact SortedSet.length_filter_not_mem (h.stagedChunks_lt isBlob_blobSource)

theorem stateJson_of_noDir (hwf : fs.Wf) {dir : String} (hnone : fs.dirs dir = false) :
    fs.content (.staged dir .stateJson) = none := by
  rw [content_eq_none_iff]
  by_contra hf
  have hin := hwf.inDir _ _ (Option.isSome_iff_ne_none.mpr hf)
  exact Bool.false_ne_true (hnone.symm.trans hin)

/-- **Resume correctness.** Start from an output directory without a staging directory for the name, with
nothing in the file's way. After any number of attempts over channels that die anywhere, a session over a
channel that does not die ends, cannot get stuck before, and delivers the file, transferring exactly the
chunks that were not staged before it. -/
theorem resume_delivers (name transferId outDir : String) (entries : List Entry) (content : Bytes)
    {fs₀ fs : Fs} (hwf : fs₀.Wf) (hclear : fs₀.Clear (safeName name))
    (hnone : fs₀.dirs (stagingDir (safeName name)) = false)
    (hattempts : Relation.ReflTransGen
      (Attempt X (fileSource name entries content transferId) outDir content) fs₀ fs) (sk : Key) :
    (∃ n, ∀ log qs, Session X sk False (fileSource name entries content transferId) outDir content fs
      log qs → log.length ≤ n) ∧
    (∀ log qs, Session X sk False (fileSource name entries content transferId) outDir content fs
      log qs → (∃ p, ¬ IsLeaf (qs p)) → ∃ x qs', Session X sk False
        (fileSource name entries content transferId) outDir content fs (log ++ [x]) qs') ∧
    ∀ log qs, Session X sk False (fileSource name entries content transferId) outDir content fs
      log qs → (∀ p, IsLeaf (qs p)) →
      Delivered X sk (fileSource name entries content transferId) outDir content fs log qs := by
  -- an attempt leaves the disk ready for the next, and nothing in the way
  have hstays : Stays X (streamManifest (fileSource name entries content transferId)) content fs₀ fs := by
    induction hattempts with
    | refl => exact .refl (.of_none hwf (stateJson_of_noDir hwf hnone))
    | tail _ ha ih => exact ih.trans (ih.ready.attempt ha)
  have hclear' : fs.Clear (safeName name) := hstays.clear hclear
  obtain ⟨log₀, store, fs₁, res, hc⟩ := hstays.ready.exists_complete hclear'.makes sk outDir
  refine ⟨⟨log₀.length, ?_⟩, ?_, ?_⟩
  · intro log qs hrun
    exact length_le hc.run (isLeaf_pick _ _) (failsFast_party _) hrun
  · intro log qs hrun hnot
    exact Run.progress hc.run (isLeaf_pick _ _) (failsFast_party _) hrun hnot
  · intro log qs hrun hleaf
    exact hstays.ready.delivered hclear' hrun hleaf

/-! ## An attempt that is cut off -/

/-- The channel may die wherever the receiver waits for a message. -/
theorem SessionAt.attempt {source : Source} {l r : List StreamAction} {pl : StreamProg String}
    {k : Bytes → StreamProg String} {sl sr : Host}
    (h : SessionAt X sk source outDir content fs l r pl (recv >>= k) sl sr) :
    Attempt X source outDir content fs sr.disk := by
  obtain ⟨log, hrun, hown⟩ := h.reached
  have hcut := hrun.of_reliable.extend (i := .right) (r := .error (.transportLost (.msg "closed")))
    (recv_bind k) trivial
  refine ⟨sk, _, _, hcut, ?_, ?_⟩
  · rw [Function.update_self]
    trivial
  · rw [diskAfter, own_snoc_self, hown .right, after_append]
    exact congrArg Host.disk h.right.symm

/-- It may die when every chunk is staged and the commit has yet to come. -/
theorem Ready.exists_cutOff
    (h : Ready X (streamManifest (fileSource name entries content transferId)) content fs)
    (hmakes : fs.Makes (stagingDir (safeName name))) (sk : Key) (outDir : String) :
    ∃ fs', Attempt X (fileSource name entries content transferId) outDir content fs fs' ∧
      ∀ i < (streamManifest (fileSource name entries content transferId)).totalChunks,
        i ∈ stagedChunks X fs' (safeName name) := by
  set m := streamManifest (fileSource name entries content transferId) with hm
  obtain ⟨store, fs₁, hopen, hst, hstate, -⟩ := Staged.open h.wf hmakes (h.holds isBlob_blobSource)
  obtain ⟨l, hat, hgot, hframes, -⟩ := exists_offered sk rfl rfl hst hopen hstate outDir
  have hpart : ∀ i, i ∉ store.state.haves → PartOf m content i (chunkOf content i) := fun _ _ => rfl
  obtain ⟨tr, store', fs₂, hchunks, hst', -, hhaves, -⟩ := does_recvChunks (C := fun _ => True) sk
    (fun _ _ _ _ => trivial) rfl (show content.length = m.totalSize from rfl) store.state.haves hpart content
    (List.range m.totalChunks) (fun i hi => List.mem_range.mp hi) hst (.refl _ fs₁)
  -- the receiver runs on to its last chunk, and the sender does nothing
  have hcut := hat.runRight sk hchunks.bind (by
    rw [hframes, (does_negotiate sk isBlob_blobSource content hopen).got_eq, hstate]
    exact List.prefix_append _ _)
  refine ⟨fs₂, hcut.attempt, fun i hi => ?_⟩
  rw [stagedChunks, show safeName name = safeName m.name from rfl, hst'.persisted]
  refine (hhaves i).mpr ?_
  by_cases hin : i ∈ store.state.haves
  · exact .inl hin
  · exact .inr (List.mem_filter.mpr ⟨List.mem_range.mpr hi, by simpa using hin⟩)

theorem safeName_a : safeName "a" = "a" := by
  rw [safeName, components, show "/" = String.singleton '/' from rfl, Text.splitOn_singleton]
  decide

/-- An attempt to send three bytes is cut off when they are staged; the next one sends none of them again and
delivers the file. -/
theorem resume_delivers_afterStaged : ∃ fs, Attempt (.ideal fun _ => "") (fileSource "a" [] [7, 8, 9] "t") "out"
      [7, 8, 9] Fs.blank fs ∧ 0 ∈ stagedChunks (.ideal fun _ => "") fs "a" ∧
    ∀ log qs, Session (.ideal fun _ => "") [] False (fileSource "a" [] [7, 8, 9] "t") "out"
      [7, 8, 9] fs log qs →
      (∀ p, IsLeaf (qs p)) →
      Delivered (.ideal fun _ => "") [] (fileSource "a" [] [7, 8, 9] "t") "out" [7, 8, 9] fs log qs ∧
        written (own .right log) = [] := by
  have hready : Ready (.ideal fun _ => "") (streamManifest (fileSource "a" [] [7, 8, 9] "t"))
    [7, 8, 9] Fs.blank :=
    Ready.of_none blank_wf rfl
  obtain ⟨fs, hattempt, hstaged⟩ := hready.exists_cutOff (blank_clear _).makes [] "out"
  refine ⟨fs, hattempt, safeName_a ▸ hstaged 0 (by decide), fun log qs hrun hleaf => ?_⟩
  have hdelivered := (resume_delivers "a" "t" "out" [] [7, 8, 9] blank_wf (blank_clear _) rfl
    (.single hattempt) []).2.2 log qs hrun hleaf
  refine ⟨hdelivered, hdelivered.written.trans (List.filter_eq_nil_iff.mpr fun i hi => ?_)⟩
  exact mt of_decide_eq_true (not_not.mpr (hstaged i (List.mem_range.mp hi)))

/-- With a directory `a` where the file `a` should go, nothing is staged and the channel does not die, and
still both sides fail. -/
theorem not_delivered_directory :
    (blank.setDir "a" true).Wf ∧ (blank.setDir "a" true).dirs (stagingDir (safeName "a")) = false ∧
    ∃ log qs, Session (.ideal fun _ => "") [] False (fileSource "a" [] [7, 8, 9] "t") "out" [7, 8, 9]
        (blank.setDir "a" true) log qs ∧ (∀ p, IsLeaf (qs p)) ∧
      (∃ e, qs .left = .fail e) ∧ ∃ e, qs .right = .fail e := by
  have hready : Ready (.ideal fun _ => "") (streamManifest (fileSource "a" [] [7, 8, 9] "t")) [7, 8, 9]
      (blank.setDir "a" true) := Ready.of_none (blank_wf.setDir "a") rfl
  obtain ⟨log, hrun, -⟩ := hready.exists_onto_dir (.inr rfl) (by rw [safeName_a]; rfl) [] "out"
  refine ⟨blank_wf.setDir "a", by rw [safeName_a]; rfl, log, _, hrun, ?_, ⟨_, rfl⟩, ⟨_, rfl⟩⟩
  intro p
  cases p <;> trivial

end last

end Stream
end B2p
