import B2p.Tunnel.Commit
import B2p.Tunnel.Nonces
import B2p.Stream.Retry

/-!
# Trying again after a hash mismatch, through the tunnel

The same as on the stream path, with the requests of a call in any order `try_for_each_concurrent` allows:
the chunks the receiver has are kept, the others are uploaded, and a mismatch at the commit removes
nothing.

* `Transfer.held` — the data file is made of what was staged and of the content, at any time of a transfer.
* `exists_transfer` — a transfer whose commit ends with a mismatch.
* `Recovers`, `recovers_iff` — as on the stream path.
-/

namespace B2p

open Interaction Prog Fs

namespace Tunnel

open Server

variable {X : Externals} {link : Link} {source : Source} {content : Bytes} {app : App}
  {log : List (Thread × SendAction)} {qs : (t : Thread) → SendProg t.Out} {m : Manifest}

/-! ## What is staged during a transfer -/

variable (X link) in
/-- The server's `finalize` has failed with a hash mismatch. -/
def Mismatched (app : App) (log : List (Thread × SendAction)) : Prop :=
  ∃ before later req r active commit fs',
    log = before ++ (.main, (⟨.http req, r⟩ : SendAction)) :: later ∧ req.endpoint = .commit ∧
    ¬ TooLarge req ∧ (appAfter X link app before).transfer = some active ∧
    openJson X link.key X.commitJson .commit (asBytes active.manifest.transferId) req.body
      = some commit ∧
    (Server.finalize X link.cfg active commit).eval X.handle (appAfter X link app before).disk
      = (.error hashMismatch, fs')

variable (X) in
/-- The active transfer, if there is one, is of `m`, and has staged what `want` allows. -/
def Held (m : Manifest) (want : Nat → Bytes → Prop) (app : App) : Prop :=
  ∀ active, app.transfer = some active → active.manifest = m ∧ Staged X m want active.store app.disk

section steps

variable {want : Nat → Bytes → Prop}

theorem Held.of_none (h : app.transfer = none) : Held X m want app := by
  intro active hactive
  rw [h] at hactive
  cases hactive

/-- A request for which there is no active transfer leaves none. -/
theorem held_of_none (hnone : app.transfer = none) (req : Request)
    (htoken : req.token = link.target.token)
    (hreq : (∃ i, req.endpoint = .chunk i) ∨ req.endpoint = .commit) :
    Held X m want (link.serve X req app).2 := by
  obtain ⟨_, app', heq, hnone', -⟩ := serve_none X hnone req htoken hreq
  rw [heq]
  exact .of_none hnone'

/-- An offer, from a disk on which what is staged is allowed. It is answered with what is there. -/
theorem held_offer (hacc : link.Accepting) (hv : m.version = PROTOCOL_VERSION) (hkind : m.kind ≠ .text)
    (hwf : app.disk.Wf) (hmakes : app.disk.Makes (stagingDir (Stream.safeName m.name)))
    (hb : Store.Holds want (startData X m app.disk) (startState X m app.disk))
    (hfits : ¬ TooLarge (offerRequest X link m)) :
    ∃ app', link.serve X ⟨.manifest, link.target.token,
        X.cipher.seal_ link.key .manifest 0 [] (X.manifestJson.toVec m)⟩ app
        = (⟨200, X.manifestAckJson.toVec ⟨true, false, (startState X m app.disk).haves.toList⟩⟩, app') ∧
      Held X m want app' ∧
      ∃ store, app'.transfer = some ⟨m, store⟩ ∧ store.state = startState X m app.disk := by
  obtain ⟨store, fs', hopen, hst, hstate, -⟩ := Staged.open hwf hmakes hb
  obtain ⟨app', heq, htr, hdisk⟩ := serve_manifest X hacc hv hkind hopen hfits
  refine ⟨app', ?_, ?_, store, htr, hstate⟩
  · rw [heq, Store.haves, hstate]
  · intro active hactive
    rw [htr, Option.some.injEq] at hactive
    subst hactive hdisk
    exact ⟨rfl, hst⟩

theorem Held.serve_chunk (h : Held X m want app) {i : Nat} (hi : i < m.totalChunks)
    (hsize : content.length = m.totalSize) (hchunk : m.chunkSize = CHUNK_SIZE)
    (hwant : want i (blockOf m content i)) :
    Held X m want (link.serve X ⟨.chunk i, link.target.token, X.cipher.seal_ link.key .data i
      (asBytes m.transferId) (blockOf m content i)⟩ app).2 := by
  cases htr : app.transfer with
  | none => exact held_of_none htr _ rfl (.inl ⟨i, rfl⟩)
  | some active =>
      obtain ⟨hm, hst⟩ := h active htr
      obtain ⟨fs', hwrite, hst', -⟩ := hst.writeChunk hi (length_blockOf hsize i) hwant
      obtain ⟨app', heq, htr', hdisk⟩ := Tunnel.serve_chunk X link htr hwrite
        (length_blockOf_le hsize hchunk i)
      rw [hm] at heq
      rw [heq]
      intro active' hactive'
      rw [htr', Option.some.injEq] at hactive'
      subst hactive' hdisk
      exact ⟨hm, hst'⟩

theorem Held.serve_commit (h : Held X m want app) (commit : Commit) :
    Held X m want (link.serve X ⟨.commit, link.target.token, X.cipher.seal_ link.key .commit 0
      (asBytes m.transferId) (X.commitJson.toVec commit)⟩ app).2 := by
  cases htr : app.transfer with
  | none => exact held_of_none htr _ rfl (.inr rfl)
  | some active =>
      obtain ⟨hm, -⟩ := h active htr
      rw [← hm]
      by_cases hlarge : TooLarge ⟨.commit, link.target.token, X.cipher.seal_ link.key .commit 0
          (asBytes active.manifest.transferId) (X.commitJson.toVec commit)⟩
      · rw [serve_tooLarge X _ rfl hlarge, hm]
        exact h
      · obtain ⟨app', heq, htr', -⟩ := Tunnel.serve_commit X link htr commit rfl hlarge
        rw [heq]
        exact .of_none htr'

end steps

/-- What can be read of a file of the announced size is the chunk. -/
theorem blockOf_of_chunkAt (hsize : content.length = m.totalSize) (hchunk : m.chunkSize = CHUNK_SIZE)
    {i : Nat} {b : Bytes} (h : chunkAt m.totalSize content i = some b) : b = blockOf m content i := by
  rw [blockOf, hchunk, (read_of_chunkAt h).2]
  refine slice_eq_slice_of_min ?_
  rw [hsize]
  omega

/-! ### The chunks that are uploaded -/

variable (X) in
/-- The offer is answered with these chunks. -/
def OfferedWith (haves : List Nat) : (o : SendOp) → o.Res → Prop
  | .http req, r => req.endpoint = .manifest →
      r = .ok ⟨200, X.manifestAckJson.toVec ⟨true, false, haves⟩⟩
  | _, _ => True

/-- No upload is of one of these chunks. -/
def UploadsOthers (haves : List Nat) : SendOp → Prop
  | .uploads chunks => ∀ i ∈ chunks, i ∉ haves
  | _ => True

theorem given_send_others (haves : List Nat) :
    Given (OfferedWith X haves) (UploadsOthers haves) (fun _ => True) (send X link.target source) := by
  refine .op trivial fun _ _ => .ofExcept fun _ _ => .op trivial fun body _ =>
    .op trivial fun resp hresp => .ofExcept fun ack hack => ?_
  rw [hresp rfl, readAck_ok] at hack
  cases hack
  split
  · trivial
  · split
    · trivial
    · split
      · refine .op ?_ fun _ _ => .ofExcept fun _ _ => ?_
        · intro i hi
          simpa using List.of_mem_filter hi
        · have hfile : Given (OfferedWith X haves) (UploadsOthers haves) (fun _ => True) (blake3File X) :=
            ⟨trivial, fun _ _ => .ofExcept fun _ _ => trivial⟩
          refine hfile.bind fun _ _ => .op trivial fun _ _ => .op trivial fun _ _ =>
            .ofExcept fun _ _ => .ofExcept fun _ _ => ?_
          split <;> trivial
      · trivial

section invariant

variable {want : Nat → Bytes → Prop} (hm : m = buildManifest source) (hkind : m.kind ≠ .text)
  (hacc : link.Accepting) (hwf : app.disk.Wf) (hmakes : app.disk.Makes (stagingDir (Stream.safeName m.name)))
  (hb : Store.Holds want (startData X m app.disk) (startState X m app.disk))
  (hfits : ¬ TooLarge (offerRequest X link m))

include hm hkind hacc hwf hmakes hb hfits

/-- The first request is answered with what is staged at the start. -/
theorem Transfer.offeredWith (h : Transfer X link source content app log qs) :
    ∀ a ∈ own .main log, OfferedWith X (startState X m app.disk).haves.toList a.op a.res := by
  rintro ⟨o, r⟩ ha
  cases o with
  | http req =>
      intro hend
      obtain ⟨before, later, rfl⟩ := List.append_of_mem (mem_own.mp ha)
      have hproper := h.call.proper (t := .main) (a := ⟨.http req, r⟩) (by simp)
      obtain ⟨qs₁, hrun₁⟩ : ∃ qs',
          Transfer X link source content app (before ++ [(.main, ⟨.http req, r⟩)]) qs' := by
        rw [List.append_cons] at h
        exact h.take
      obtain ⟨qs₂, hrun, hallowed, k, hk, -⟩ := hrun₁.snoc
      have hv : m.version = PROTOCOL_VERSION := by
        subst hm
        cases source <;> rfl
      rcases (send_order (hk ▸ hrun.follows .main)).1 req rfl with ⟨-, hfirst⟩ | hcommit
      -- the first request is the offer, and the server had seen none
      · have hanswer : r = .ok (link.serve X req (appAfter X link app before)).1 := hallowed.2
        rw [appAfter_of_noHttp (Transfer.noHttp hrun hfirst)] at hanswer
        rcases hproper with rfl | rfl
        · obtain ⟨app', heq, -⟩ := held_offer hacc hv hkind hwf hmakes hb hfits
          rw [hanswer, ← hm, heq]
        · cases hend
      · rw [hend] at hcommit
        cases hcommit
  | _ => trivial

/-- **What is uploaded was not staged before.** -/
theorem Transfer.waits_new (h : Transfer X link source content app log qs) {chunks : List Nat}
    (hw : Waits X link.target source log chunks) : ∀ i ∈ chunks, i ∉ (startState X m app.disk).haves := by
  obtain ⟨k, hk⟩ := hw
  have hoffered := Transfer.offeredWith hm hkind hacc hwf hmakes hb hfits h
  have hnew := ((given_send_others _).follows hk hoffered).2.1
  exact fun i hi hmem => hnew i hi (SortedSet.mem_def.mp hmem)

variable (hsize : content.length = m.totalSize) (hnone : app.transfer = none)
  (hwant : ∀ i, i ∉ (startState X m app.disk).haves → want i (blockOf m content i))

include hsize hnone hwant

/-- **At any time of a transfer, what is staged is what was staged at the start, and chunks of the
content.** -/
theorem Transfer.held (h : Transfer X link source content app log qs) :
    Held X m want (appAfter X link app log) := by
  have hv : m.version = PROTOCOL_VERSION := by
    rw [hm]
    cases source <;> rfl
  induction log using List.reverseRecOn generalizing qs with
  | nil => exact .of_none hnone
  | append_singleton log x ih =>
      obtain ⟨t, ⟨o, r⟩⟩ := x
      have hproper := h.call.proper (t := t) (a := ⟨o, r⟩) (by simp)
      obtain ⟨qs', hrun, hallowed, k, hk, -⟩ := h.snoc
      have hheld := ih hrun
      rw [appAfter_append]
      cases o with
      | http req =>
          show Held X _ want (link.serve X req (appAfter X link app log)).2
          cases t with
          -- a chunk that was not staged
          | upload i =>
              obtain ⟨chunks, hw, hi, -⟩ := hallowed.1
              have hnew := Transfer.waits_new hm hkind hacc hwf hmakes hb hfits hrun hw i hi
              obtain ⟨b, ⟨hlt, -, hchunk⟩, rfl⟩ := hproper
              rw [← hm] at hlt hchunk ⊢
              obtain rfl := blockOf_of_chunkAt hsize (hm ▸ chunkSize_buildManifest) hchunk
              exact hheld.serve_chunk hlt hsize (hm ▸ chunkSize_buildManifest) (hwant i hnew)
          -- the offer, or the commit
          | main =>
              have horder := (send_order (hk ▸ hrun.follows .main)).1 req rfl
              rcases hproper with rfl | rfl
              · rcases horder with ⟨-, hfirst⟩ | hcommit
                · rw [appAfter_of_noHttp (Transfer.noHttp hrun hfirst), ← hm]
                  obtain ⟨app', heq, hoffered, -⟩ := held_offer hacc hv hkind hwf hmakes hb hfits
                  rw [heq]
                  exact hoffered
                · cases hcommit
              · rw [← hm]
                exact hheld.serve_commit _
      | _ => exact hheld

end invariant

/-! ## No mismatch -/

/-- With the content's own hash, `finalize` does not find a complete file of that hash to differ. -/
theorem finalize_ne_mismatch {want : Nat → Bytes → Prop} {cfg : ServerCfg} {active : ActiveTransfer}
    {fs fs' : Fs}
    (hst : Staged X m want active.store fs) (hkind : active.manifest.kind ≠ .text)
    (hhash : (∀ i < m.totalChunks, i ∈ active.store.state.haves) → ∃ data,
      fs.content active.store.dataPath = some data ∧ X.blake3 data = X.blake3 content) :
    (Server.finalize X cfg active ⟨X.blake3 content⟩).eval X.handle fs ≠ (.error hashMismatch, fs') := by
  intro hfin
  rw [Server.finalize] at hfin
  split at hfin
  · next hinc =>
      rw [eval_fail, Prod.mk.injEq, Except.error.injEq, hashMismatch, Anyhow.msg.injEq] at hfin
      -- the other refusal has another text: their first letters differ
      have hhead := congrArg (fun s : String => s.toList.head?) hfin.1
      simp only [String.toList_append, List.append_assoc, List.head?_append] at hhead
      have hfirst : (toString "transfer incomplete: ").toList.head? = some 't' := by decide
      have hother : "integrity check failed: hash mismatch".toList.head? = some 'i' := by decide
      rw [hfirst, hother] at hhead
      cases hhead
  · next hinc =>
      obtain ⟨data, hd, heq⟩ := hhash (hst.all_of_isComplete (by simpa using hinc))
      rw [eval_bind_ok _ (Store.eval_fileHash X hd), if_neg (not_not.mpr heq)] at hfin
      -- the hash is right, and what comes after it fails with errors of the disk
      refine (FailsWith.of_eval (F := FromDisk) X.handle ?_ hfin).ne_hashMismatch rfl
      split
      · exact .bind (failsWith_finalizeFile _ _ _) fun _ => trivial
      · exact .bind (failsWith_unpackTar _) fun _ => .bind (failsWith_removeDirAll _) fun _ => trivial
      · next htext => exact absurd htext hkind

section resumes

variable {st : State} (hm : m = buildManifest source) (hkind : m.kind ≠ .text) (hacc : link.Accepting)
  (hsize : content.length = m.totalSize) (h : Resumes X m app.disk st) (hnone : app.transfer = none)
  (hfits : ¬ TooLarge (offerRequest X link m))

include hm hkind hacc hsize h hnone hfits

/-- What is staged during a transfer is as `Mixed` has it. -/
theorem Transfer.held_mixed (hrun : Transfer X link source content app log qs) :
    Held X m (Mixed m (startState X m app.disk).haves (startData X m app.disk) content)
      (appAfter X link app log) := by
  have hc : 0 < m.chunkSize := by
    rw [hm, chunkSize_buildManifest]
    decide
  exact Transfer.held hm hkind hacc h.wf h.makes (h.holds hc content) hfits hsize hnone
    (fun i hi => mixed_new hi) hrun

/-- If what is staged does no harm, no commit ends with a mismatch. -/
theorem Transfer.noMismatch (hharmless : Harmless X m app.disk st content)
    (hrun : Transfer X link source content app log qs) : ¬ Mismatched X link app log := by
  rintro ⟨before, later, req, r, active, commit, fs', rfl, hend, -, htr, hopen, hfin⟩
  have hproper := hrun.call.proper (t := .main) (a := ⟨.http req, r⟩) (by simp)
  obtain ⟨qs', hbefore⟩ := hrun.take
  obtain ⟨hman, hst⟩ := Transfer.held_mixed hm hkind hacc hsize h hnone hfits hbefore active htr
  obtain rfl : commit = ⟨X.blake3 content⟩ := by
    rcases hproper with rfl | rfl
    · cases hend
    · rw [hman, hm, openJson, Cipher.open_seal_, Option.bind_some, Codec.fromSlice_toVec] at hopen
      exact (Option.some.inj hopen).symm
  exact finalize_ne_mismatch hst (by rw [hman]; exact hkind)
    (fun hall => ⟨_, h.data_eq hst hsize hall, hharmless⟩) hfin

end resumes

/-! ## Bodies that are too large -/

/-- An offer that is too large reaches no handler, and the slot stays empty. -/
theorem Transfer.idle (hlarge : TooLarge (offerRequest X link (buildManifest source)))
    (hnone : app.transfer = none) (h : Transfer X link source content app log qs) :
    (appAfter X link app log).transfer = none := by
  induction log using List.reverseRecOn generalizing qs with
  | nil => exact hnone
  | append_singleton log x ih =>
      obtain ⟨t, ⟨o, r⟩⟩ := x
      have hproper := h.call.proper (t := t) (a := ⟨o, r⟩) (by simp)
      obtain ⟨qs', hrun⟩ := h.take
      have hidle := ih hrun
      rw [appAfter_append]
      cases o with
      | http req =>
          show (link.serve X req (appAfter X link app log)).2.transfer = none
          cases t with
          | upload i =>
              obtain ⟨b, -, rfl⟩ := hproper
              obtain ⟨_, app', heq, hnone', -⟩ := serve_none X hidle
                ⟨.chunk i, link.target.token, _⟩ rfl (.inl ⟨i, rfl⟩)
              rw [heq]
              exact hnone'
          | main =>
              rcases hproper with rfl | rfl
              -- 413, and no transfer
              · show (link.serve X (offerRequest X link (buildManifest source)) _).2.transfer = none
                rw [serve_tooLarge X _ rfl hlarge]
                exact hidle
              · obtain ⟨_, app', heq, hnone', -⟩ := serve_none X hidle
                  ⟨.commit, link.target.token, _⟩ rfl (.inr rfl)
                rw [heq]
                exact hnone'
      | _ => exact hidle

/-- With an offer or a commit that is too large, no commit ends with a mismatch: none reaches its handler
while a transfer is active. -/
theorem Transfer.noMismatch_of_tooLarge (hlarge : ¬ Admissible X link (buildManifest source) content)
    (hnone : app.transfer = none) (hrun : Transfer X link source content app log qs) :
    ¬ Mismatched X link app log := by
  rintro ⟨before, later, req, r, active, commit, fs', rfl, hend, hfits, htr, -⟩
  have hproper := hrun.call.proper (t := .main) (a := ⟨.http req, r⟩) (by simp)
  obtain ⟨qs', hbefore⟩ := hrun.take
  have hoffer : ¬ TooLarge (offerRequest X link (buildManifest source)) := by
    intro hoffer
    rw [Transfer.idle hoffer hnone hbefore] at htr
    cases htr
  rcases hproper with rfl | rfl
  · cases hend
  · exact hlarge ⟨hoffer, hfits⟩

/-! ## An attempt -/

theorem answers_readAt {totalSize i : Nat} {b : Bytes} (h : chunkAt totalSize content i = some b) :
    Answers X link content app (.readAt (i * CHUNK_SIZE) (min CHUNK_SIZE (totalSize - i * CHUNK_SIZE)))
      (.ok b) := by
  obtain ⟨hle, rfl⟩ := read_of_chunkAt h
  exact (if_pos hle).symm

section attempt

variable (X link content) in
/-- `main` from the end of the uploads up to the commit. -/
def hashActions (chunks : List Nat) (transferId : String) : List SendAction :=
  [⟨.uploads chunks, .ok ()⟩, ⟨.readAll, .ok content⟩,
    ⟨.seal_ .commit 0 (asBytes transferId) (X.commitJson.toVec ⟨X.blake3 content⟩),
      X.cipher.seal_ link.key .commit 0 (asBytes transferId) (X.commitJson.toVec ⟨X.blake3 content⟩)⟩]

variable (X link content) in
/-- The commit, answered with `ack`. -/
def commitAction (transferId : String) (ack : CommitAck) : SendAction :=
  ⟨.http (commitRequest X link content transferId), .ok ⟨200, X.commitAckJson.toVec ack⟩⟩

/-- A commit that fails. -/
theorem follows_failedCommit (haves : List Nat) (transferId error : String) :
    Follows (sendBlob X link.target m haves transferId)
      (hashActions X link content (missing m haves) transferId ++
        [commitAction X link content transferId ⟨false, some error⟩])
      (.fail (.msg ("receiver failed to finalize: " ++ error))) := by
  refine .cons (.cons (.cons (.cons ?_)))
  show Follows (ofExcept (json X.commitAckJson ⟨200, _⟩) >>= _) [] _
  rw [json, Codec.fromSlice_toVec]
  exact .nil _

variable {kind : Kind} {hkind : kind ≠ .text} {name transferId : String} {entries : List Entry}
  (hsource : source = Stream.blobSource kind hkind name entries content transferId)
  {want : Nat → Bytes → Prop} {haves : SortedSet Nat}

variable (X link source content app transferId want haves) in
/-- `main` waits for the uploads, and those of `done` are through: the receiver has them and `haves`. -/
structure Uploading (done : List Nat) (log : List (Thread × SendAction)) (qs : (t : Thread) → SendProg t.Out)
    (store : Store) : Prop where
  run : Transfer X link source content app log qs
  main : qs .main = sendBlob X link.target (buildManifest source) haves.toList transferId
  ended : ∀ j ∈ done, qs (.upload j) = .ret ()
  fresh : ∀ j, j ∉ done → own (.upload j) log = []
  active : (appAfter X link app log).transfer = some ⟨buildManifest source, store⟩
  staged : Staged X (buildManifest source) want store (appAfter X link app log).disk
  haves : ∀ i, i ∈ store.state.haves ↔ i ∈ haves ∨ i ∈ done

include hsource

/-- The thread of chunk `i`, from the start to the end. -/
theorem follows_upload {i : Nat} {b : Bytes} :
    Follows (uploadOf X link.target source i)
      (chunkActions X link.key content.length transferId i b ++
        [⟨.http ⟨.chunk i, link.target.token, X.cipher.seal_ link.key .data i (asBytes transferId) b⟩,
          .ok (status 200)⟩]) (.ret ()) := by
  subst hsource
  exact .cons (.cons (.cons (.nil _)))

/-- One more chunk is uploaded. -/
theorem Uploading.chunk {done rest : List Nat} {i : Nat} {store : Store}
    (h : Uploading X link source content app transferId want haves done log qs store)
    (hsplit : missing (buildManifest source) haves.toList = done ++ i :: rest)
    (hwant : want i (blockOf (buildManifest source) content i)) :
    ∃ log' qs' store', Uploading X link source content app transferId want haves
      (done ++ [i]) log' qs' store' := by
  have hsize : content.length = (buildManifest source).totalSize := by rw [hsource]; rfl
  have htid : (buildManifest source).transferId = transferId := by rw [hsource]; rfl
  have hchunk : (buildManifest source).chunkSize = CHUNK_SIZE := chunkSize_buildManifest
  have hnodup : (missing (buildManifest source) haves.toList).Nodup := List.nodup_range.filter _
  have hi : i < (buildManifest source).totalChunks := by
    have hmem : i ∈ missing (buildManifest source) haves.toList := by simp [hsplit]
    exact List.mem_range.mp (List.mem_of_mem_filter hmem)
  have hnot : i ∉ done := by
    rw [hsplit] at hnodup
    intro hmem
    exact (List.nodup_append.mp hnodup).2.2 i hmem i List.mem_cons_self rfl
  -- what the thread reads, and what the server does with it
  obtain ⟨b, hb⟩ : ∃ b, chunkAt content.length content i = some b := by
    have hoff := (lt_divCeil_iff (hchunk ▸ (by decide : 0 < CHUNK_SIZE))).mp hi
    rw [hchunk, ← hsize] at hoff
    exact ⟨_, if_pos (by omega)⟩
  obtain rfl := blockOf_of_chunkAt hsize hchunk (hsize ▸ hb)
  obtain ⟨fs', hwrite, hst', -⟩ := h.staged.writeChunk hi (length_blockOf hsize i) hwant
  obtain ⟨app', hserve, htr, hdisk⟩ := serve_chunk X link h.active hwrite (length_blockOf_le hsize hchunk i)
  rw [htid] at hserve
  obtain ⟨tr, htr'⟩ : ∃ tr, tr = chunkActions X link.key content.length transferId i
      (blockOf (buildManifest source) content i) ++ [⟨.http ⟨.chunk i, link.target.token,
        X.cipher.seal_ link.key .data i (asBytes transferId) (blockOf (buildManifest source) content i)⟩,
          .ok (status 200)⟩] := ⟨_, rfl⟩
  have hpath : Follows (uploadOf X link.target source i) tr (.ret ()) := htr' ▸ follows_upload hsource
  have hmain : Follows (send X link.target source) (own .main log)
      (sendBlob X link.target (buildManifest source) haves.toList transferId) := h.main ▸ h.run.follows .main
  rw [sendBlob] at hmain
  have hprog : uploadOf X link.target source i = qs (.upload i) := by
    have hfresh := h.run.follows (.upload i)
    rw [h.fresh i hnot] at hfresh
    exact hfresh.of_nil
  have hown : ∀ t, t ≠ .upload i →
      ∀ pre : List SendAction, own t (log ++ pre.map fun a => (.upload i, a)) = own t log := by
    intro t ht pre
    rw [own_append, own_map_of_ne (Ne.symm ht), List.append_nil]
  -- its turn comes: those before it have ended
  have hsched : ∀ pre a post, tr = pre ++ a :: post →
      Scheduled X link.target source (log ++ pre.map fun a => (.upload i, a)) (.upload i, a) :=
    fun pre a post => scheduled_alone ⟨_, hmain⟩ hsplit hnodup
      (fun j hj => h.ended j hj ▸ h.run.follows (.upload j)) h.fresh (uploadOf_eq_step hsource) hpath
  have hadm : Admits (fun log x => Scheduled X link.target source log x ∧
      Answers X link content (appAfter X link app log) x.2.op x.2.res) log
        (tr.map fun a => (.upload i, a)) := by
    subst htr'
    refine ⟨⟨?_, ?_⟩, ⟨?_, rfl⟩, ⟨?_, ?_⟩, trivial⟩
    · simpa using hsched [] _ _ rfl
    · exact answers_readAt hb
    · simpa using hsched [_] _ _ rfl
    · simpa using hsched [_, _] _ _ rfl
    · rw [appAfter_append, appAfter_append]
      show Except.ok (status 200) = .ok (link.serve X _ (appAfter X link app log)).1
      rw [hserve]
  have hrun := h.run.alone (i := .upload i) (by rw [← hprog]; exact hpath) hadm
  have happ : appAfter X link app (log ++ tr.map fun a => (.upload i, a)) = app' := by
    rw [appAfter_append, htr']
    show (link.serve X _ (appAfter X link app log)).2 = app'
    rw [hserve]
  -- this upload has ended, and the chunk is recorded
  refine ⟨_, _, store.record i, hrun, ?_, ?_, ?_, ?_, ?_, ?_⟩
  · exact (Function.update_of_ne (by simp) _ _).trans h.main
  · intro j hj
    by_cases hji : j = i
    · subst hji
      rw [Function.update_self]
    · rw [Function.update_of_ne (by rintro ⟨⟩; exact hji rfl)]
      rcases List.mem_append.mp hj with hj | hj
      · exact h.ended j hj
      · exact absurd (List.mem_singleton.mp hj) hji
  · intro j hj
    rw [List.mem_append, List.mem_singleton, not_or] at hj
    rw [hown _ (by rintro ⟨⟩; exact hj.2 rfl), h.fresh j hj.1]
  · rw [happ, htr]
  · rw [happ, hdisk]
    exact hst'
  · intro j
    rw [List.mem_append, List.mem_singleton]
    have hrec : (store.record i).state.haves = store.state.haves.insert i := rfl
    rw [hrec, SortedSet.mem_insert, h.haves j]
    tauto

/-- All the others are. -/
theorem Uploading.all {done rest : List Nat} {store : Store}
    (h : Uploading X link source content app transferId want haves done log qs store)
    (hsplit : missing (buildManifest source) haves.toList = done ++ rest)
    (hwant : ∀ i, i ∉ haves → want i (blockOf (buildManifest source) content i)) :
    ∃ log' qs' store', Uploading X link source content app transferId want haves
      (missing (buildManifest source) haves.toList) log' qs' store' := by
  induction rest generalizing done log qs store with
  | nil =>
      rw [List.append_nil] at hsplit
      exact ⟨log, qs, store, hsplit ▸ h⟩
  | cons i rest ih =>
      have hnew : i ∉ haves := by
        have hmem : i ∈ missing (buildManifest source) haves.toList := by simp [hsplit]
        rw [SortedSet.mem_def]
        simpa using List.of_mem_filter hmem
      obtain ⟨log', qs', store', h'⟩ := h.chunk hsource hsplit (hwant i hnew)
      exact ih h' (by rw [hsplit, List.append_assoc]; rfl)

/-- The offer. -/
theorem exists_uploading (hacc : link.Accepting) (hwf : app.disk.Wf)
    (hmakes : app.disk.Makes (stagingDir (Stream.safeName (buildManifest source).name)))
    (hfits : ¬ TooLarge (offerRequest X link (buildManifest source)))
    (hb : Store.Holds want (startData X (buildManifest source) app.disk)
      (startState X (buildManifest source) app.disk)) :
    ∃ log qs store, Uploading X link source content app transferId want
      (startState X (buildManifest source) app.disk).haves [] log qs store := by
  have hkind' : (buildManifest source).kind ≠ .text := by rw [hsource]; exact hkind
  have hv : (buildManifest source).version = PROTOCOL_VERSION := by rw [hsource]; rfl
  obtain ⟨app', hserve, hheld, store, htr, hstate⟩ := held_offer hacc hv hkind' hwf hmakes hb hfits
  have hstart : Transfer X link source content app [] (threads X link.target source) :=
    ⟨fun t => .nil _, trivial⟩
  have hpath := follows_ackActions X link.target link.key
    (startState X (buildManifest source) app.disk).haves.toList hsource
  -- `main` up to its uploads, in which it waits
  have hrun := hstart.alone (i := .main) hpath ⟨⟨trivial, rfl⟩, ⟨trivial, rfl⟩, ⟨trivial, by
    show Except.ok _ = Except.ok (link.serve X _ app).1
    rw [hserve]⟩, trivial⟩
  rw [List.nil_append] at hrun
  have happ : appAfter X link app ((ackActions X link.target link.key source
      ⟨true, false, (startState X (buildManifest source) app.disk).haves.toList⟩).map fun a => (.main, a))
      = app' := by
    show (link.serve X _ app).2 = app'
    rw [hserve]
  refine ⟨_, _, store, hrun, Function.update_self _ _ _, nofun, ?_, ?_, ?_, ?_⟩
  · exact fun j _ => own_map_of_ne (by simp) _
  · rw [happ, htr]
  · rw [happ]
    exact (hheld _ htr).2
  · intro i
    rw [hstate]
    simp

omit hsource in
/-- With another hash, the disk is left as it is. -/
theorem eval_finalize_of_ne {cfg : ServerCfg} {active : ActiveTransfer} {commit : Commit} {fs : Fs}
    {data : Bytes}
    (hcomplete : active.store.isComplete = true) (hd : fs.content active.store.dataPath = some data)
    (hne : X.blake3 data ≠ commit.blake3Hex) :
    (Server.finalize X cfg active commit).eval X.handle fs = (.error hashMismatch, fs) := by
  rw [Server.finalize, if_neg (by rw [hcomplete]; decide), eval_bind_ok _ (Store.eval_fileHash X hd),
    if_pos hne]
  rfl

/-- **If what is staged does harm, there is an attempt that ends with a mismatch**, and it leaves what makes
the next one end so. -/
theorem exists_transfer {st : State} (hacc : link.Accepting) (h : Resumes X (buildManifest source) app.disk st)
    (hadm : Admissible X link (buildManifest source) content)
    (hne : ¬ Harmless X (buildManifest source) app.disk st content) :
    ∃ log qs e st', Transfer X link source content app log qs ∧ qs .main = .fail e ∧
      Mismatched X link app log ∧ (appAfter X link app log).transfer = none ∧
      Resumes X (buildManifest source) (appAfter X link app log).disk st' ∧
      ¬ Harmless X (buildManifest source) (appAfter X link app log).disk st' content := by
  have hsize : content.length = (buildManifest source).totalSize := by rw [hsource]; rfl
  have htid : (buildManifest source).transferId = transferId := by rw [hsource]; rfl
  have hc : 0 < (buildManifest source).chunkSize := by
    rw [chunkSize_buildManifest]
    decide
  obtain ⟨log₀, qs₀, store₀, h₀⟩ := exists_uploading hsource hacc h.wf h.makes hadm.offer (h.holds hc content)
  obtain ⟨log, qs, store, hup⟩ := h₀.all hsource (List.nil_append _).symm fun i hi => mixed_new hi
  -- everything is staged
  have hall : ∀ i < (buildManifest source).totalChunks, i ∈ store.state.haves := by
    intro i hi
    rw [hup.haves, missing, List.mem_filter, List.mem_range, decide_eq_true_iff, ← SortedSet.mem_def]
    tauto
  have hd := h.data_eq hup.staged hsize hall
  have hfin : (Server.finalize X link.cfg ⟨buildManifest source, store⟩ ⟨X.blake3 content⟩).eval X.handle
      (appAfter X link app log).disk = (.error hashMismatch, (appAfter X link app log).disk) :=
    eval_finalize_of_ne (hup.staged.isComplete hall) hd hne
  obtain ⟨app', hserve, htr, hdisk⟩ := serve_commit X link hup.active ⟨X.blake3 content⟩ hfin hadm.commit
  rw [htid] at hserve
  replace hserve : link.serve X (commitRequest X link content transferId) (appAfter X link app log) = _ :=
    hserve
  -- `main` goes on to the end
  obtain ⟨haves, hhaves⟩ : ∃ haves, haves = (startState X (buildManifest source) app.disk).haves.toList :=
    ⟨_, rfl⟩
  have hmain := hup.main
  rw [← hhaves] at hmain
  have hpath : Follows (sendBlob X link.target (buildManifest source) haves transferId)
      (hashActions X link content (missing (buildManifest source) haves) transferId ++
        [commitAction X link content transferId ⟨false, some hashMismatch.toString⟩]) _ :=
    follows_failedCommit haves transferId hashMismatch.toString
  rw [← hmain] at hpath
  have hended : ∀ i ∈ missing (buildManifest source) haves,
      Follows (uploadOf X link.target source i) (own (.upload i) log) (.ret ()) := by
    intro i hi
    exact hup.ended i (hhaves ▸ hi) ▸ hup.run.follows (.upload i)
  obtain ⟨before, hlog⟩ : ∃ before, before = log ++ (hashActions X link content
      (missing (buildManifest source) haves) transferId).map fun a => (Thread.main, a) := ⟨_, rfl⟩
  have hbefore : appAfter X link app before = appAfter X link app log := by
    rw [hlog, appAfter_append]
    rfl
  have hrun := hup.run.alone hpath
    ⟨⟨hended, trivial⟩, ⟨trivial, rfl⟩, ⟨trivial, rfl⟩, ⟨trivial, ?_⟩, trivial⟩
  · have happ : appAfter X link app (log ++ (hashActions X link content (missing (buildManifest source) haves)
        transferId ++ [commitAction X link content transferId ⟨false, some hashMismatch.toString⟩]).map
          fun a => (.main, a)) = app' := by
      rw [appAfter_append]
      show (link.serve X _ (appAfter X link app log)).2 = app'
      rw [hserve]
    refine ⟨_, _, _, store.state, hrun, Function.update_self _ _ _, ?_, ?_, ?_, ?_⟩
    · refine ⟨before, [], commitRequest X link content transferId, .ok ⟨200, X.commitAckJson.toVec
        ⟨false, some hashMismatch.toString⟩⟩, ⟨buildManifest source, store⟩, ⟨X.blake3 content⟩,
        (appAfter X link app log).disk, ?_, rfl, htid ▸ hadm.commit, ?_, ?_, ?_⟩
      · rw [hlog, List.map_append, ← List.append_assoc]
        rfl
      · rw [hbefore, hup.active]
      · rw [commitRequest, openJson, htid, Cipher.open_seal_, Option.bind_some, Codec.fromSlice_toVec]
      · rw [hbefore]
        exact hfin
    · rw [happ, htr]
    · rw [happ, hdisk]
      exact hup.staged.resumes
    · rw [happ, hdisk, Harmless, hup.staged.kept_again hd hall]
      exact hne
  · show Except.ok _ = Except.ok (link.serve X _ (appAfter X link app (log ++ [_] ++ [_] ++ [_]))).1
    rw [appAfter_append, appAfter_append, appAfter_append]
    show Except.ok _ = Except.ok (link.serve X _ (appAfter X link app log)).1
    rw [hserve]
    rfl

end attempt

/-! ## The next attempt -/

variable (X link) in
/-- The receiver has finalized `content`: it was the complete data file, and `finalize` succeeded. -/
def PutInPlace (content : Bytes) (app : App) (log : List (Thread × SendAction)) : Prop :=
  ∃ before later req r active commit desc fs',
    log = before ++ (.main, (⟨.http req, r⟩ : SendAction)) :: later ∧ req.endpoint = .commit ∧
    ¬ TooLarge req ∧ (appAfter X link app before).transfer = some active ∧
    openJson X link.key X.commitJson .commit (asBytes active.manifest.transferId) req.body = some commit ∧
    (appAfter X link app before).disk.content active.store.dataPath = some content ∧
    (Server.finalize X link.cfg active commit).eval X.handle (appAfter X link app before).disk = (.ok desc, fs')

variable (X link) in
/-- After an uninterrupted call that ended with a hash mismatch at the receiver, every next one, to a
receiver on the disk it left, succeeds and delivers the content. -/
def Recovers (source : Source) (content : Bytes) (fs : Fs) : Prop :=
  ∀ app log qs, app.disk = fs → app.transfer = none → Transfer X link source content app log qs →
    (∃ r, qs .main = ofExcept r) → Mismatched X link app log →
    ∀ app' log' qs', app'.disk = (appAfter X link app log).disk → app'.transfer = none →
      Transfer X link source content app' log' qs' → (∃ r, qs' .main = ofExcept r) →
      qs' .main = .ret "transfer complete" ∧ PutInPlace X link content app' log'

/-- A receiver that has just been started. -/
def freshApp (fs : Fs) : App := ⟨none, fs, 0, false, []⟩

/-- **The next attempt delivers the file exactly if the first one does not end with a mismatch**: what is
staged does no harm, or no commit gets as far. -/
theorem recovers_iff {kind : Kind} {hkind : kind ≠ .text} {name transferId : String} {entries : List Entry}
    (hsource : source = Stream.blobSource kind hkind name entries content transferId) (hacc : link.Accepting)
    {fs : Fs} {st : State} (h : Resumes X (buildManifest source) fs st) :
    Recovers X link source content fs ↔
      ¬ Admissible X link (buildManifest source) content ∨ Harmless X (buildManifest source) fs st content := by
  constructor
  · intro hrec
    by_contra hno
    obtain ⟨hadm, hne⟩ := not_or.mp hno
    rw [not_not] at hadm
    have hfresh : Resumes X (buildManifest source) (freshApp fs).disk st := h
    obtain ⟨log, qs, e, st', hrun, hend, hmis, hnone, hres, hne'⟩ :=
      exists_transfer hsource hacc hfresh hadm hne
    obtain ⟨log', qs', e', -, hrun', hend', -⟩ := exists_transfer hsource hacc hres hadm hne'
    have hnext := (hrec _ log qs rfl rfl hrun ⟨.error e, hend⟩ hmis _ log' qs' rfl hnone hrun'
      ⟨.error e', hend'⟩).1
    rw [hend'] at hnext
    cases hnext
  · rintro hor app log qs rfl hnone hrun - hmis
    have hblob : (buildManifest source).kind ≠ .text := by rw [hsource]; exact hkind
    have hsize : content.length = (buildManifest source).totalSize := by rw [hsource]; rfl
    by_cases hadm : Admissible X link (buildManifest source) content
    · have hharmless := hor.resolve_left (not_not.mpr hadm)
      exact absurd hmis (Transfer.noMismatch rfl hblob hacc hsize h hnone hadm.offer hharmless hrun)
    · exact absurd hmis (Transfer.noMismatch_of_tooLarge hadm hnone hrun)

end Tunnel

/-! ## Both paths -/

/-- **A staging directory is poisoned, or it is not**: after an attempt that ended with a hash mismatch the
next one delivers the file exactly if what was staged does no harm, and so there was no mismatch. On both
paths; through the tunnel there is none either if the manifest is longer than the router takes. -/
theorem recovers_iff_harmless (X : Externals) (link : Tunnel.Link) (hacc : link.Accepting) (kind : Kind)
    (hkind : kind ≠ .text) (name transferId outDir : String) (entries : List Entry) (content : Bytes) :
    (∀ fs st,
      Resumes X (Stream.streamManifest (Stream.blobSource kind hkind name entries content transferId)) fs st →
      (Stream.Recovers X (Stream.blobSource kind hkind name entries content transferId) outDir content fs ↔
        Harmless X (Stream.streamManifest (Stream.blobSource kind hkind name entries content transferId)) fs st
          content)) ∧
    ∀ fs st,
      Resumes X (Tunnel.buildManifest (Stream.blobSource kind hkind name entries content transferId)) fs st →
      (Tunnel.Recovers X link (Stream.blobSource kind hkind name entries content transferId) content fs ↔
        ¬ Tunnel.Admissible X link
            (Tunnel.buildManifest (Stream.blobSource kind hkind name entries content transferId)) content ∨
          Harmless X (Tunnel.buildManifest (Stream.blobSource kind hkind name entries content transferId)) fs st
            content) :=
  ⟨fun _ _ h => Stream.recovers_iff rfl h, fun _ _ h => Tunnel.recovers_iff rfl hacc h⟩

/-! ### A file that was edited -/

/-- A hash that tells files apart. -/
def spelled (b : Bytes) : String := String.ofList (b.map fun x => Char.ofNat x.toNat)

/-- The one chunk of a file was staged, and then the attempt broke off. Since then the file was edited. -/
theorem exists_stale (X : Externals) {m : Manifest} (hsize : m.totalSize = 1) (hc : 0 < m.chunkSize) :
    ∃ fs st, Resumes X m fs st ∧ ∀ content, kept m st.haves (stagedBytes m fs) content = [8] := by
  have hnone : Store.persisted X Fs.blank (Stream.safeName m.name) = none := rfl
  have hfresh : Store.Holds (PartOf m [8]) (startData X m Fs.blank) (startState X m Fs.blank) :=
    Store.holds_open hc fun st hst => by
      rw [hnone] at hst
      cases hst
  obtain ⟨store, fs, -, hst, -⟩ := Staged.open Fs.blank_wf (Fs.blank_clear _).makes hfresh
  have hlen : ([8] : Bytes).length = m.totalSize := hsize.symm
  have hone : ∀ i < m.totalChunks, i = 0 := by
    intro i hi
    have hoff := (lt_divCeil_iff hc).mp hi
    rw [hsize, Nat.lt_one_iff, Nat.mul_eq_zero] at hoff
    omega
  have hzero : 0 < m.totalChunks := (lt_divCeil_iff hc).mpr (by omega)
  obtain ⟨fs', -, hst', -⟩ := hst.writeChunk hzero (length_blockOf hlen 0) rfl
  have hall : ∀ i < m.totalChunks, i ∈ (store.record 0).state.haves := by
    intro i hi
    rw [hone i hi]
    exact SortedSet.mem_insert.mpr (.inl rfl)
  exact ⟨fs', _, hst'.resumes, hst'.kept_again (hst'.data_eq hlen hall) hall⟩

/-- Libraries that write the manifest and the commit of such a file in a few bytes. -/
def oneByteWorld : Externals :=
  { Externals.ideal spelled with
    manifestJson := .brief (Tunnel.buildManifest (Stream.fileSource "a" [] [7] "t")) (.unary _)
    commitJson := .brief ⟨spelled [7]⟩ (.unary _) }

theorem admissible_oneByte : Tunnel.Admissible oneByteWorld Server.lenient
    (Tunnel.buildManifest (Stream.fileSource "a" [] [7] "t")) [7] :=
  ⟨Tunnel.not_tooLarge_sealed (by decide), Tunnel.not_tooLarge_sealed (by decide)⟩

/-- **An edited file that kept its size and its time can never be delivered** from the stale chunk, on
either path: every attempt ends with a mismatch. -/
theorem not_recovers_stale :
    (∃ fs st, Resumes oneByteWorld (Stream.streamManifest (Stream.fileSource "a" [] [7] "t")) fs st ∧
      ¬ Stream.Recovers oneByteWorld (Stream.fileSource "a" [] [7] "t") "out" [7] fs) ∧
    ∃ fs st, Resumes oneByteWorld (Tunnel.buildManifest (Stream.fileSource "a" [] [7] "t")) fs st ∧
      ¬ Tunnel.Recovers oneByteWorld Server.lenient (Stream.fileSource "a" [] [7] "t") [7] fs := by
  have hne : spelled [8] ≠ spelled [7] := by decide
  have hacc : Server.lenient.Accepting := rfl
  constructor
  · obtain ⟨fs, st, h, hkept⟩ := exists_stale oneByteWorld
      (m := Stream.streamManifest (Stream.fileSource "a" [] [7] "t")) rfl (by decide)
    refine ⟨fs, st, h, ?_⟩
    rw [Stream.recovers_iff rfl h, Harmless, hkept]
    exact hne
  · obtain ⟨fs, st, h, hkept⟩ := exists_stale oneByteWorld
      (m := Tunnel.buildManifest (Stream.fileSource "a" [] [7] "t")) rfl (by decide)
    refine ⟨fs, st, h, ?_⟩
    rw [Tunnel.recovers_iff rfl hacc h, Harmless, hkept, not_or, not_not]
    exact ⟨admissible_oneByte, hne⟩

/-- What it says of such a file. -/
theorem recovers_iff_harmless_stale :
    (∃ fs st, Resumes oneByteWorld (Stream.streamManifest (Stream.fileSource "a" [] [7] "t")) fs st ∧
      (Stream.Recovers oneByteWorld (Stream.fileSource "a" [] [7] "t") "out" [7] fs ↔
        Harmless oneByteWorld (Stream.streamManifest (Stream.fileSource "a" [] [7] "t")) fs st [7])) ∧
    ∃ fs st, Resumes oneByteWorld (Tunnel.buildManifest (Stream.fileSource "a" [] [7] "t")) fs st ∧
      Tunnel.Admissible oneByteWorld Server.lenient
        (Tunnel.buildManifest (Stream.fileSource "a" [] [7] "t")) [7] ∧
      (Tunnel.Recovers oneByteWorld Server.lenient (Stream.fileSource "a" [] [7] "t") [7] fs ↔
        ¬ Tunnel.Admissible oneByteWorld Server.lenient
            (Tunnel.buildManifest (Stream.fileSource "a" [] [7] "t")) [7] ∨
          Harmless oneByteWorld (Tunnel.buildManifest (Stream.fileSource "a" [] [7] "t")) fs st [7]) := by
  obtain ⟨hstream, htunnel⟩ := recovers_iff_harmless oneByteWorld Server.lenient rfl .file
    Kind.file_ne_text "a" "t" "out" [] [7]
  constructor
  · obtain ⟨fs, st, h, -⟩ := exists_stale oneByteWorld
      (m := Stream.streamManifest (Stream.fileSource "a" [] [7] "t")) rfl (by decide)
    exact ⟨fs, st, h, hstream fs st h⟩
  · obtain ⟨fs, st, h, -⟩ := exists_stale oneByteWorld
      (m := Tunnel.buildManifest (Stream.fileSource "a" [] [7] "t")) rfl (by decide)
    exact ⟨fs, st, h, admissible_oneByte, htunnel fs st h⟩

end B2p
