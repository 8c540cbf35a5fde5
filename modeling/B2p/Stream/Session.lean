import B2p.Stream.Spec

/-!
# A whole stream session

`exists_complete` puts the parts of `Stream.Spec` together: from any disk, an honest session over the
reliable channel can be completed, and the two sides end as `finalize` decides. With the determinacy of
such pairs (`Lib.Duplex`), what holds of that one session holds of every one.
-/

namespace B2p

open Interaction Prog Fs

namespace Stream

variable {X : Externals} (sk : Key) {m : Manifest} {want : Nat → Bytes → Prop} {store : Store} {fs : Fs}

/-- A file or an archive as a source. -/
abbrev blobSource (kind : Kind) (hkind : kind ≠ .text) (name : String) (entries : List Entry)
    (content : Bytes) (transferId : String) : Source :=
  .blob kind hkind name entries content.length transferId

/-- A single file as a source. -/
abbrev fileSource (name : String) (entries : List Entry) (content : Bytes) (transferId : String) :
    Source :=
  blobSource .file Kind.file_ne_text name entries content transferId

variable (X) in
/-- The two programs of a session: the sender on the left. -/
def party (source : Source) (outDir : String) : (p : Side) → StreamProg String :=
  pick (sendSource X sk source) (recvInto X sk outDir)

variable (X) in
/-- A run of one session, the sender with `content` and the receiver on `fs`. -/
abbrev Session (lossy : Prop) (source : Source) (outDir : String) (content : Bytes) (fs : Fs)
    (log : List (Side × StreamAction)) (qs : (p : Side) → StreamProg String) : Prop :=
  Run (β := fun _ => String) (party X sk source outDir)
    (Prog.Fifo lossy (fun _ => Host.handle X sk) (fun _ => ⟨content, fs⟩)) log qs

variable (X) in
/-- The receiver's disk after a session. -/
def diskAfter (content : Bytes) (fs : Fs) (log : List (Side × StreamAction)) : Fs :=
  (after (Host.handle X sk) ⟨content, fs⟩ (own .right log)).disk

variable (X) in
/-- A point of a session over the reliable channel: what each side has done, what it goes on with, and
its host. -/
structure SessionAt (source : Source) (outDir : String) (content : Bytes) (fs : Fs)
    (l r : List StreamAction) (pl pr : StreamProg String) (sl sr : Host) : Prop where
  reached : Reached (β := fun _ => String) (party X sk source outDir) (fun _ => Host.handle X sk)
    (fun _ => ⟨content, fs⟩) (pick l r) (pick pl pr)
  left : after (Host.handle X sk) ⟨content, fs⟩ l = sl
  right : after (Host.handle X sk) ⟨content, fs⟩ r = sr

section SessionAt

variable {source : Source} {outDir : String} {content : Bytes} {l r tr : List StreamAction}
  {pl pr q : StreamProg String} {sl sr st : Host} {ms : List Bytes}
  (hat : SessionAt X sk source outDir content fs l r pl pr sl sr)

theorem SessionAt.start (source : Source) (outDir : String) (content : Bytes) (fs : Fs) :
    SessionAt X sk source outDir content fs [] [] (sendSource X sk source) (recvInto X sk outDir)
      ⟨content, fs⟩ ⟨content, fs⟩ :=
  ⟨Reached.init, rfl, rfl⟩

include hat

theorem SessionAt.runLeft (hd : Does (Host.handle X sk) sl ms pl tr q st)
    (hin : ms <+: (sent r).drop (got l).length) :
    SessionAt X sk source outDir content fs (l ++ tr) r q pr st sr :=
  ⟨hat.reached.left (by rw [hat.left]; exact hd) hin,
    by rw [after_append, hat.left, hd.after_eq], hat.right⟩

theorem SessionAt.runRight (hd : Does (Host.handle X sk) sr ms pr tr q st)
    (hin : ms <+: (sent l).drop (got r).length) :
    SessionAt X sk source outDir content fs l (r ++ tr) pl q sl st :=
  ⟨hat.reached.right (by rw [hat.right]; exact hd) hin, hat.left,
    by rw [after_append, hat.right, hd.after_eq]⟩

end SessionAt

/-- How the sender ends, given how the receiver does. -/
def senderOutcome : Except Anyhow String → Except Anyhow String
  | .ok _ => .ok "transfer complete"
  | .error e => .error (.msg ("receiver failed to finalize: " ++ e.toString))

theorem does_awaitCommit (host : Host) (res : Except Anyhow String) :
    Does (Host.handle X sk) host [commitAckFrame X sk (commitAck res)] (awaitCommit X sk)
      [⟨.recv, .ok (commitAckFrame X sk (commitAck res))⟩] (ofExcept (senderOutcome res)) host := by
  rw [awaitCommit, recv_bind]
  refine .recv ?_
  rw [ofExcept_ok, ret_bind, commitAckFrame, openVal_seal_]
  cases res with
  | ok s => exact .nil _ _
  | error e => exact .nil _ _

section session

variable {kind : Kind} {hkind : kind ≠ .text} {name transferId : String} {entries : List Entry}
  {content : Bytes}

theorem isBlob_blobSource :
    IsBlob (streamManifest (blobSource kind hkind name entries content transferId)) := ⟨rfl, hkind, rfl⟩

variable (X) in
/-- A complete session for `m` from the disk `fs`: just before its `finalize` the receiver has `store`
on the disk `fs'`, and `res` is the outcome. -/
structure Complete (source : Source) (outDir : String) (content : Bytes) (fs : Fs)
    (want : Nat → Bytes → Prop) (C : Fs → Prop) (log : List (Side × StreamAction))
    (store : Store) (fs' : Fs) (res : Except Anyhow String) : Prop where
  run : Session X sk False source outDir content fs log
    (pick (ofExcept (senderOutcome res)) (ofExcept res))
  staged : Staged X (streamManifest source) want store fs'
  outside : SameOutside (stagingDir (safeName (streamManifest source).name)) fs fs'
  all : ∀ i < (streamManifest source).totalChunks, i ∈ store.state.haves
  finalized : (finalize X store (streamManifest source) ⟨X.blake3 content⟩ outDir
    (safeName (streamManifest source).name)).eval X.handle fs' = (res, diskAfter X sk content fs log)
  frames : sent (own .left log) = manifestFrame X sk (streamManifest source) ::
    (missing (streamManifest source).totalChunks (startState X (streamManifest source) fs).haves).map
      (chunkFrame X sk content) ++ [commitFrame X sk (streamManifest source).totalChunks content]
  sealed : sealed (own .left log) = 0 ::
    (missing (streamManifest source).totalChunks (startState X (streamManifest source) fs).haves).map
      (1 + ·) ++ [1 + (streamManifest source).totalChunks]
  written : written (own .right log)
    = missing (streamManifest source).totalChunks (startState X (streamManifest source) fs).haves
  atMessages : AtMessages (Host.handle X sk) (fun host => C host.disk) ⟨content, fs⟩ (own .right log)

/-- The reply to a manifest whose store opens in the state `st`. -/
def openingAck (st : State) : StreamManifestAck :=
  ⟨true, st.haves.card == divCeil st.totalSize st.chunkSize, runsFromSorted st.haves.toList⟩

/-- Where the receiver cannot open its store, it says nothing, and the sender waits for its reply. -/
theorem exists_blocked (source : Source)
    (hsource : source = blobSource kind hkind name entries content transferId) (outDir : String)
    (hm : m = streamManifest source) {e : Anyhow} {fs' : Fs}
    (heval : (Store.openOrCreate X (safeName m.name) m.transferId m.totalSize m.chunkSize).eval X.handle fs
      = (.error e, fs')) {C : Fs → Prop} (hC : C fs) :
    ∃ log qs, Session X sk False source outDir content fs log qs ∧ AtRest log qs ∧ qs .right = .fail e ∧
      (∃ k, qs .left = .step .recv k) ∧ diskAfter X sk content fs log = fs' ∧
      AtMessages (Host.handle X sk) (fun host => C host.disk) ⟨content, fs⟩ (own .right log) := by
  subst hm hsource
  set m := streamManifest (blobSource kind hkind name entries content transferId) with hm
  have hoffer := does_sealAndSend X sk ⟨content, fs⟩ .streamToReceiver 0 (X.manifestJson.toVec m)
  have h₁ : SessionAt X sk (blobSource kind hkind name entries content transferId) outDir content fs _ [] _ _
      ⟨content, fs⟩ ⟨content, fs⟩ :=
    (SessionAt.start sk _ outDir content fs).runLeft sk hoffer.bind List.nil_prefix
  have h₂ := h₁.runRight sk (does_negotiate_of_error sk isBlob_blobSource content heval).bind
    (List.prefix_refl _)
  obtain ⟨log, hrun, hown⟩ := h₂.reached
  have hright : own .right log = blockedActions X sk m fs := hown .right
  refine ⟨log, _, hrun, ?_, rfl, ⟨_, rfl⟩, ?_, ?_⟩
  · rintro (_ | _)
    · refine .inr ⟨⟨_, rfl⟩, ?_⟩
      rw [show own Side.left.peer log = _ from hright, sent_blockedActions, hown]
      exact hoffer.got_eq
    · exact .inl trivial
  · rw [diskAfter, hright]
    exact congrArg Host.disk h₂.right
  · rw [hright]
    exact ⟨hC, atMessages_diskTrace X sk ⟨content, fs⟩ _⟩

section offered

variable {source : Source} (hsource : source = blobSource kind hkind name entries content transferId)
  (hm : m = streamManifest source) {fs₁ : Fs} (hst : Staged X m want store fs₁)
  (hopen : (Store.openOrCreate X (safeName m.name) m.transferId m.totalSize m.chunkSize).eval X.handle fs
    = (.ok store, fs₁)) (hstate : store.state = startState X m fs)

include hsource hm hst hopen hstate

/-- A session up to where the sender waits for the reply to its commit and the receiver has yet to read its
first chunk. -/
theorem exists_offered (outDir : String) : ∃ l,
    SessionAt X sk source outDir content fs l (negotiateActions X sk m store fs) (awaitCommit X sk)
      (receivePayload X sk outDir m store) ⟨content, fs⟩ ⟨content, fs₁⟩ ∧
    got l = [ackFrame X sk (ackFor store)] ∧
    sent l = manifestFrame X sk m :: (missing m.totalChunks (startState X m fs).haves).map
      (chunkFrame X sk content) ++ [commitFrame X sk m.totalChunks content] ∧
    sealed l = 0 :: (missing m.totalChunks (startState X m fs).haves).map (1 + ·) ++ [1 + m.totalChunks] := by
  subst hm hsource
  set m := streamManifest (blobSource kind hkind name entries content transferId) with hm
  have hblob : IsBlob m := isBlob_blobSource
  have hskip : ((List.range m.totalChunks).filter fun i => !skips (ackFor store) i)
      = missing m.totalChunks (startState X m fs).haves := by
    rw [← hst.totalChunks, filter_skips_ackFor hst.lt, hstate]
  obtain ⟨l₁, hl₁⟩ : ∃ l, l = sealAndSend X sk .streamToReceiver 0 (X.manifestJson.toVec m) :=
    ⟨_, rfl⟩
  obtain ⟨l₂, hl₂⟩ : ∃ l, l = payloadActions X sk content
    (missing m.totalChunks (startState X m fs).haves) m.totalChunks := ⟨_, rfl⟩
  have hoffer : Does (Host.handle X sk) ⟨content, fs⟩ [] (offer X m) l₁ (.ret ()) ⟨content, fs⟩ :=
    hl₁ ▸ does_sealAndSend X sk ⟨content, fs⟩ .streamToReceiver 0 (X.manifestJson.toVec m)
  have hpayload : Does (Host.handle X sk) ⟨content, fs⟩ [] (sendPayload X m (ackFor store)) l₂
      (.ret ()) ⟨content, fs⟩ := by
    rw [hl₂, ← hskip]
    exact does_sendPayload X sk ⟨content, fs⟩ rfl rfl (ackFor store)
  -- offer, reply, payload, in the order in which their messages allow them
  have h₁ : SessionAt X sk (blobSource kind hkind name entries content transferId) outDir content fs l₁ [] _ _
      ⟨content, fs⟩ ⟨content, fs⟩ :=
    (SessionAt.start sk _ outDir content fs).runLeft sk hoffer.bind List.nil_prefix
  have h₂ : SessionAt X sk _ outDir content fs l₁ (negotiateActions X sk m store fs) _ _
      ⟨content, fs⟩ ⟨content, fs₁⟩ :=
    h₁.runRight sk (does_negotiate sk hblob content hopen).bind (by rw [hl₁]; exact List.prefix_refl _)
  have h₃ : SessionAt X sk _ outDir content fs (l₁ ++ ⟨.recv, .ok (ackFrame X sk (ackFor store))⟩ :: l₂)
      (negotiateActions X sk m store fs) (awaitCommit X sk) _ ⟨content, fs⟩ ⟨content, fs₁⟩ :=
    h₂.runLeft sk (by
      rw [ret_bind, recv_bind]
      refine .recv ?_
      rw [ofExcept_ok, ret_bind, ackFrame, openVal_seal_, withContext_ok, ofExcept_ok, ret_bind,
        if_neg (by simp [ackFor]), if_neg hblob.kind]
      exact hpayload.bind) (show [ackFrame X sk (ackFor store)] <+: _ by
      rw [sent_negotiateActions, hoffer.got_eq]
      exact List.prefix_refl _)
  refine ⟨_, h₃, ?_, ?_, ?_⟩
  · rw [got_append, hoffer.got_eq]
    exact congrArg (_ :: ·) hpayload.got_eq
  · rw [sent_append, hl₁, hl₂]
    exact congrArg (manifestFrame X sk m :: ·) (sent_payloadActions X sk content _ m.totalChunks)
  · rw [sealed_append, hl₁, hl₂]
    exact congrArg (0 :: ·) (sealed_payloadActions X sk content _ m.totalChunks)

end offered

/-- An honest session over the reliable channel can be completed. The receiver then has read every frame, and
replied twice. -/
theorem exists_complete_exchange (source : Source)
    (hsource : source = blobSource kind hkind name entries content transferId) (outDir : String)
    (hwf : fs.Wf) (hm : m = streamManifest source) (hmakes : fs.Makes (stagingDir (safeName m.name)))
    (hb : Store.Holds want (startData X m fs) (startState X m fs))
    (hwant : ∀ i, i ∉ (startState X m fs).haves → want i (chunkOf content i))
    {C : Fs → Prop} (hstart : C fs) (hC : ∀ store fs', Staged X m want store fs' →
      SameOutside (stagingDir (safeName m.name)) fs fs' → C fs')
    (hend : ∀ store fs₁ res fs', Staged X m want store fs₁ →
      SameOutside (stagingDir (safeName m.name)) fs fs₁ → (∀ i < m.totalChunks, i ∈ store.state.haves) →
      (finalize X store m ⟨X.blake3 content⟩ outDir (safeName m.name)).eval X.handle fs₁ = (res, fs') →
      C fs') :
    ∃ log store fs' res, Complete X sk source outDir content fs want C log store fs' res ∧
      got (own .right log) = sent (own .left log) ∧
      sent (own .right log) =
        [ackFrame X sk (openingAck (startState X m fs)), commitAckFrame X sk (commitAck res)] := by
  subst hm hsource
  set m := streamManifest (blobSource kind hkind name entries content transferId) with hm
  have hblob : IsBlob m := isBlob_blobSource
  obtain ⟨store, fs₁, hopen, hst, hstate, hsame⟩ := Staged.open hwf hmakes hb
  have hneg := does_negotiate sk hblob content hopen
  obtain ⟨tr, store', fs₂, hchunks, hst', hsame', hhaves, hsent, hwritten, hat⟩ := does_recvChunks sk hC
    hblob.chunkSize (show content.length = m.totalSize from rfl) (startState X m fs).haves hwant content
    (List.range m.totalChunks) (fun i hi => List.mem_range.mp hi) hst hsame
  obtain ⟨res, fs₃, hfin⟩ : ∃ res fs₃, (finalize X store' m ⟨X.blake3 content⟩ outDir
      (safeName m.name)).eval X.handle fs₂ = (res, fs₃) := ⟨_, _, rfl⟩
  rw [← show store.haves = (startState X m fs).haves.toList from congrArg (·.haves.toList) hstate] at hchunks
  have hpay := does_receivePayload sk hchunks hfin
  obtain ⟨l, h₃, hgot, hframes, hsealed⟩ := exists_offered sk rfl rfl hst hopen hstate outDir
  have h₄ := h₃.runRight sk hpay (by
    rw [hframes, hneg.got_eq]
    exact List.prefix_refl _)
  have h₅ := h₄.runLeft sk (does_awaitCommit sk ⟨content, fs⟩ res) (by
    rw [sent_append, sent_append, sent_negotiateActions, hsent, sent_finalActions, hgot]
    exact List.prefix_refl _)
  obtain ⟨log, hrun, hown⟩ := h₅.reached
  have hright : own .right log = negotiateActions X sk m store fs ++
      (tr ++ finalActions X sk store' m ⟨X.blake3 content⟩ outDir fs₂ res) := hown .right
  have hall : ∀ i < m.totalChunks, i ∈ store'.state.haves := by
    intro i hi
    rw [hhaves, List.mem_filter, hstate, List.mem_range, decide_eq_true_iff]
    by_cases h : i ∈ (startState X m fs).haves
    · exact .inl h
    · exact .inr ⟨hi, h⟩
  refine ⟨log, store', fs₂, res, ⟨hrun, hst', hsame', hall, ?_, ?_, ?_, ?_, ?_⟩, ?_, ?_⟩
  · rw [diskAfter, hright, h₅.right]
    exact hfin
  · rw [hown, pick, sent_append, hframes]
    exact List.append_nil _
  · rw [hown, pick, sealed_append, hsealed]
    exact List.append_nil _
  · rw [hright, written_append, written_append, written_negotiateActions, hwritten,
      written_finalActions, List.nil_append, List.append_nil]
    rfl
  · rw [hright, atMessages_append, atMessages_append, hneg.after_eq, hchunks.after_eq]
    exact ⟨atMessages_negotiateActions sk hopen hstart (hC _ _ hst hsame), hat,
      atMessages_finalActions sk hfin (hC _ _ hst' hsame') (hend _ _ _ _ hst' hsame' hall hfin)⟩
  · rw [hright, hown, pick, sent_append, hframes, got_append, hneg.got_eq, hpay.got_eq]
    exact (List.append_nil _).symm
  · rw [hright, sent_append, sent_append, sent_negotiateActions, hsent, sent_finalActions, ← hstate]
    rfl

/-- **An honest session over the reliable channel can be completed**, whatever is staged. -/
theorem exists_complete (source : Source)
    (hsource : source = blobSource kind hkind name entries content transferId) (outDir : String)
    (hwf : fs.Wf) (hm : m = streamManifest source) (hmakes : fs.Makes (stagingDir (safeName m.name)))
    (hb : Store.Holds want (startData X m fs) (startState X m fs))
    (hwant : ∀ i, i ∉ (startState X m fs).haves → want i (chunkOf content i))
    {C : Fs → Prop} (hstart : C fs) (hC : ∀ store fs', Staged X m want store fs' →
      SameOutside (stagingDir (safeName m.name)) fs fs' → C fs')
    (hend : ∀ store fs₁ res fs', Staged X m want store fs₁ →
      SameOutside (stagingDir (safeName m.name)) fs fs₁ → (∀ i < m.totalChunks, i ∈ store.state.haves) →
      (finalize X store m ⟨X.blake3 content⟩ outDir (safeName m.name)).eval X.handle fs₁ = (res, fs') →
      C fs') :
    ∃ log store fs' res, Complete X sk source outDir content fs want C log store fs' res := by
  obtain ⟨log, store, fs', res, hc, -⟩ := exists_complete_exchange sk source hsource outDir hwf hm hmakes hb
    hwant hstart hC hend
  exact ⟨log, store, fs', res, hc⟩

end session

end Stream
end B2p
