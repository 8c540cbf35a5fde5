import B2p.Stream.Resume

/-!
# Trying again after a hash mismatch, on the stream path

A transfer id does not depend on the bytes of a file, so what is staged under it may be other bytes. The
commit then finds a hash mismatch. Nothing is removed after one, so the next attempt finds the same
chunks, and now all of them, keeps them, and ends the same way.

* `Recovers` — an attempt after a hash mismatch delivers the file.
* `recovers_iff` — it does exactly when there is no mismatch in the first place.
-/

namespace B2p

open Interaction Prog Fs

namespace Stream

variable (X : Externals)

/-- The receiver has put `content` in its place: a file moved, an archive unpacked. -/
def PutInPlace (m : Manifest) (content : Bytes) (tr : List StreamAction) (fs : Fs) : Prop :=
  match m.kind with
  | .file => fs.content (.out (safeName m.name)) = some content
  | _ => ∃ p, (⟨.loc (.fs (.read p)), .ok content⟩ : StreamAction) ∈ tr ∧
      (⟨.loc (.fs (.unpackTar p)), .ok ()⟩ : StreamAction) ∈ tr

/-- After an uninterrupted attempt that ended with a hash mismatch at the receiver, every next one, under
any key, succeeds on both sides and delivers the content. -/
def Recovers (source : Source) (outDir : String) (content : Bytes) (fs : Fs) : Prop :=
  ∀ sk log qs, Session X sk False source outDir content fs log qs → (∀ p, IsLeaf (qs p)) →
    qs .right = .fail hashMismatch →
    ∀ sk' log' qs', Session X sk' False source outDir content (diskAfter X sk content fs log) log' qs' →
      (∀ p, IsLeaf (qs' p)) → qs' .left = .ret "transfer complete" ∧ (∃ desc, qs' .right = .ret desc) ∧
        PutInPlace (streamManifest source) content (own .right log')
          (diskAfter X sk' content (diskAfter X sk content fs log) log')

variable {X} {kind : Kind} {hkind : kind ≠ .text} {name transferId outDir : String} {entries : List Entry}
  {content : Bytes} {source : Source} (hsource : source = blobSource kind hkind name entries content transferId)
  {fs : Fs} {st : State}

include hsource in
/-- An attempt, whatever is staged: it completes the file of what is staged and the rest of the content. -/
theorem exists_attempt (sk : Key) (outDir : String) (h : Resumes X (streamManifest source) fs st) :
    ∃ log store fs' res, Complete X sk source outDir content fs (Mixed (streamManifest source)
          (startState X (streamManifest source) fs).haves (startData X (streamManifest source) fs) content)
        (fun _ => True) log store fs' res ∧
      fs'.content store.dataPath = some (kept (streamManifest source) st.haves
        (stagedBytes (streamManifest source) fs) content) := by
  have hm : (streamManifest source).chunkSize = STREAM_FRAME_SIZE := by rw [hsource]; rfl
  have hsize : content.length = (streamManifest source).totalSize := by rw [hsource]; rfl
  have hc : 0 < (streamManifest source).chunkSize := hm ▸ frameSize_pos
  have hnew : ∀ i, i ∉ (startState X (streamManifest source) fs).haves → Mixed (streamManifest source)
      (startState X (streamManifest source) fs).haves (startData X (streamManifest source) fs) content i
      (chunkOf content i) := by
    intro i hi
    have hblock : chunkOf content i = blockOf (streamManifest source) content i := by
      rw [blockOf, hm]
      rfl
    rw [hblock]
    exact mixed_new hi
  obtain ⟨log, store, fs', res, hcomplete⟩ := Stream.exists_complete (C := fun _ => True) sk source hsource
    outDir h.wf rfl h.makes (h.holds hc content) hnew trivial (fun _ _ _ _ => trivial)
    fun _ _ _ _ _ _ _ _ => trivial
  exact ⟨log, store, fs', res, hcomplete, h.data_eq hcomplete.staged hsize hcomplete.all⟩

/-- With the content's own hash, a complete data file of that hash is not found to differ. -/
theorem finalize_ne_mismatch {m : Manifest} {want : Nat → Bytes → Prop} {store : Store} {data : Bytes}
    {name : String} {fs' : Fs} (hst : Staged X m want store fs) (hkind : m.kind ≠ .text)
    (hall : ∀ i < m.totalChunks, i ∈ store.state.haves) (hd : fs.content store.dataPath = some data)
    (hhash : X.blake3 data = X.blake3 content) :
    (finalize X store m ⟨X.blake3 content⟩ outDir name).eval X.handle fs ≠ (.error hashMismatch, fs') := by
  intro hfin
  rw [finalize, if_neg (by rw [hst.isComplete hall]; decide), eval_bind_ok _ (Store.eval_fileHash X hd),
    if_neg (not_not.mpr hhash)] at hfin
  refine (FailsWith.of_eval (F := FromDisk) X.handle ?_ hfin).ne_hashMismatch rfl
  split
  · exact .bind (failsWith_finalizeFile _ _ _) fun _ => trivial
  · exact .bind (failsWith_unpackTar _) fun _ => .bind (failsWith_removeDirAll _) fun _ => trivial
  · next htext => exact absurd htext hkind

include hsource in
/-- If what is staged does harm, every attempt ends with a mismatch, and leaves what will make the next one
end so. -/
theorem fails_of_not_harmless (sk : Key) (outDir : String) (h : Resumes X (streamManifest source) fs st)
    (hne : ¬ Harmless X (streamManifest source) fs st content) :
    ∃ log qs st', Session X sk False source outDir content fs log qs ∧ (∀ p, IsLeaf (qs p)) ∧
      qs .right = .fail hashMismatch ∧ Resumes X (streamManifest source) (diskAfter X sk content fs log) st' ∧
      ¬ Harmless X (streamManifest source) (diskAfter X sk content fs log) st' content := by
  obtain ⟨log, store, fs', res, hc, hd⟩ := exists_attempt hsource sk outDir h
  have hfin : (finalize X store (streamManifest source) ⟨X.blake3 content⟩ outDir
      (safeName (streamManifest source).name)).eval X.handle fs' = _ :=
    eval_finalize_of_ne hc.staged hc.all hd outDir _ hne
  rw [hc.finalized, Prod.mk.injEq] at hfin
  obtain ⟨rfl, hdisk⟩ := hfin
  refine ⟨log, _, store.state, hc.run, isLeaf_pick _ _, rfl, ?_, ?_⟩
  · rw [hdisk]
    exact hc.staged.resumes
  · rw [hdisk, Harmless, hc.staged.kept_again hd hc.all]
    exact hne

include hsource in
/-- If it does none, no attempt ends with a mismatch. -/
theorem noMismatch_of_harmless (h : Resumes X (streamManifest source) fs st)
    (hharmless : Harmless X (streamManifest source) fs st content) {sk : Key}
    {log : List (Side × StreamAction)} {qs : (p : Side) → StreamProg String}
    (hrun : Session X sk False source outDir content fs log qs) (hleaf : ∀ p, IsLeaf (qs p)) :
    qs .right ≠ .fail hashMismatch := by
  obtain ⟨log₀, store, fs', res, hc, hd⟩ := exists_attempt hsource sk outDir h
  have hqs : qs .right = ofExcept res :=
    eq_of_isLeaf hc.run (isLeaf_pick _ _) (failsFast_party _) hrun (hleaf .right)
  have hblob : (streamManifest source).kind ≠ .text := by rw [hsource]; exact hkind
  rw [hqs]
  intro hfail
  cases res with
  | ok desc => cases hfail
  | error e =>
      cases hfail
      exact finalize_ne_mismatch hc.staged hblob hc.all hd hharmless hc.finalized

include hsource in
/-- **The next attempt delivers the file exactly if the first one does not end with a mismatch.** -/
theorem recovers_iff (h : Resumes X (streamManifest source) fs st) :
    Recovers X source outDir content fs ↔ Harmless X (streamManifest source) fs st content := by
  constructor
  · intro hrec
    by_contra hne
    obtain ⟨log, qs, st', hrun, hleaf, hfail, hres, hne'⟩ := fails_of_not_harmless hsource [] outDir h hne
    obtain ⟨log', qs', -, hrun', hleaf', hfail', -⟩ := fails_of_not_harmless hsource [] outDir hres hne'
    obtain ⟨-, ⟨desc, hdesc⟩, -⟩ := hrec [] log qs hrun hleaf hfail [] log' qs' hrun' hleaf'
    rw [hdesc] at hfail'
    cases hfail'
  · intro hharmless sk log qs hrun hleaf hfail
    exact absurd hfail (noMismatch_of_harmless hsource h hharmless hrun hleaf)

end Stream
end B2p
