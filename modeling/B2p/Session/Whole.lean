import B2p.Session.Calls
import B2p.Handshake.Agreement

/-!
# What two calls come to

Two calls over one channel (`Session.Calls`), the channel reliable or not. The parts of each are known: the
handshake, the transfer from a ready directory, and the parting. Put together they are one complete run, and
every run tracks it.

* `Meeting.exists_whole`, `Meeting.exists_mismatch` — the complete run, with one password and with two.
* `calls_deliver` — with one password the calls deliver, whatever went wrong before.
* `ok_means_delivered` — if either of them returns `Ok`, the file is in place.
* `calls_mismatch` — with two passwords nothing is touched, and the receiver waits on.
-/

namespace B2p

open Interaction Prog
open B2p.Stream (streamManifest)
open Handshake (KIND_PAKE KIND_CONFIRM roleByte other encodeFrame decodeFrame skipUntil recvKind sendFrame)

namespace Session

variable {P : PakeLib}

/-! ## The calls give up at the first refusal -/

section refusals

variable (X : Externals) (streamKey : P.SessionKey → Key) (budget : Nat)

theorem failsFast_recvKind (e : Anyhow) (kind role : UInt8) :
    FailsFast ((recvKind e budget kind role : HsProg P Bytes).interp overHs) := by
  rw [recvKind]
  induction budget with
  | zero => trivial
  | succ budget ih =>
      rw [skipUntil, interp_bind]
      refine FailsFast.bind ⟨fun e => ⟨e, rfl⟩, fun r => by cases r <;> trivial⟩ fun frame => ?_
      split
      · split
        · trivial
        · exact ih
      · exact ih

theorem failsFast_handshakeOver (topic : String) (password : Bytes) (role : Pake.Role) :
    FailsFast (handshakeOver (P := P) budget topic password role) := by
  refine fun own => ⟨fun e => ⟨e, rfl⟩, ?_⟩
  intro r
  cases r with
  | error e => trivial
  | ok u =>
      show FailsFast ((afterStart P budget topic password role own).interp overHs)
      rw [afterStart, interp_bind]
      refine (failsFast_recvKind budget ..).bind fun peerMsg => ?_
      rw [interp_bind, interp_ofExcept]
      refine FailsFast.bind (by cases Pake.finish P password topic own peerMsg <;> trivial) fun key => ?_
      refine fun tag => ⟨fun e => ⟨e, rfl⟩, ?_⟩
      intro r
      cases r with
      | error e => trivial
      | ok u =>
          show FailsFast ((afterConfirm budget role key).interp overHs)
          rw [afterConfirm, interp_bind]
          refine (failsFast_recvKind budget ..).bind fun mac => ?_
          split <;> trivial

/-- The readers send nothing. -/
theorem sends_recvKind (e : Anyhow) (kind role : UInt8) :
    ((recvKind e budget kind role : HsProg P Bytes).interp overHs).Sends 0 := by
  rw [recvKind]
  induction budget with
  | zero => trivial
  | succ budget ih =>
      rw [skipUntil, interp_bind]
      refine Sends.bind₀ (fun r => by cases r <;> trivial) fun frame => ?_
      split
      · split
        · trivial
        · exact ih
      · exact ih

/-- A handshake sends its message and its confirmation. -/
theorem sends_handshakeOver (topic : String) (password : Bytes) (role : Pake.Role) :
    (handshakeOver (P := P) budget topic password role).Sends 2 := by
  refine ⟨fun _ => trivial, fun own => ⟨Nat.two_pos, ?_⟩⟩
  intro r
  cases r with
  | error e => trivial
  | ok u =>
      show ((afterStart P budget topic password role own).interp overHs).Sends 1
      rw [afterStart, interp_bind]
      refine (sends_recvKind budget ..).bind Nat.one_pos fun peerMsg => ?_
      rw [interp_bind, interp_ofExcept]
      refine Sends.bind (m := 0) (by cases Pake.finish P password topic own peerMsg <;> trivial)
        Nat.one_pos fun key => ?_
      refine ⟨fun _ => trivial, fun tag => ⟨Nat.one_pos, ?_⟩⟩
      intro r
      cases r with
      | error e => trivial
      | ok u =>
          show ((afterConfirm budget role key).interp overHs).Sends 0
          rw [afterConfirm, interp_bind]
          refine (sends_recvKind budget ..).bind₀ fun mac => ?_
          split <;> trivial

theorem sends_onDisk {α : Type} (p : FsProg α) : (Stream.onDisk p).Sends 0 := by
  induction p with
  | ret a => trivial
  | fail e => trivial
  | step o k ih => exact ⟨fun _ => trivial, ih⟩

theorem sends_ofExcept {α : Type} (x : Except Anyhow α) : (ofExcept x : StreamProg α).Sends 0 := by
  cases x <;> trivial

theorem sends_recv : Stream.recv.Sends 0 := fun r => sends_ofExcept r

theorem sends_recvChunks (sk : Key) (haves : List Nat) (store : Store) (todo : List Nat) :
    (Stream.recvChunks X sk haves store todo).Sends 0 := by
  induction todo generalizing store with
  | nil => trivial
  | cons i rest ih =>
      rw [Stream.recvChunks]
      split
      · exact ih store
      · refine sends_recv.bind₀ fun ct => ?_
        split
        · trivial
        · refine (sends_onDisk _).bind₀ fun x => ?_
          exact (sends_ofExcept _).bind₀ fun _ => ih _

theorem sends_replyAck (ack : StreamManifestAck) : (Stream.replyAck X ack).Sends 1 :=
  ⟨fun _ => trivial, fun _ => ⟨Nat.one_pos, fun r => sends_ofExcept r⟩⟩

theorem sends_negotiate (sk : Key) : (Stream.negotiate X sk).Sends 1 := by
  have hrefuse : ∀ {α : Type} (e : Anyhow), (Stream.refuse X e : StreamProg α).Sends 1 :=
    fun e => Settles.bind₀ (sends_replyAck X _) fun _ => trivial
  rw [Stream.negotiate]
  refine sends_recv.bind₀ fun ct => ?_
  refine (sends_ofExcept _).bind₀ fun m => ?_
  split
  · exact hrefuse _
  split
  · exact hrefuse _
  refine ⟨fun _ => trivial, fun accepted => ?_⟩
  show Sends (if accepted = false then _ else _) 1
  split
  · exact hrefuse _
  split
  · exact Settles.bind₀ (sends_replyAck X _) fun _ => trivial
  · refine (sends_onDisk _).bind₀ fun store => ?_
    exact Settles.bind₀ (sends_replyAck X _) fun _ => trivial

/-- The receiver's last word is its reply to the commit. -/
theorem settles_recvInto (sk : Key) (outDir : String) :
    (Stream.recvInto X sk outDir).Settles (fun _ => False) 2 := by
  rw [Stream.recvInto]
  refine (sends_negotiate X sk).bind Nat.one_pos ?_
  rintro ⟨m, store?⟩
  cases store? with
  | none => trivial
  | some store =>
      show (Stream.receivePayload X sk outDir m store).Settles _ (0 + 1)
      rw [Stream.receivePayload]
      refine (sends_recvChunks X sk ..).bind Nat.one_pos fun store' => ?_
      refine sends_recv.bind Nat.one_pos fun ct => ?_
      refine Sends.bind (m := 0) (sends_ofExcept _) Nat.one_pos fun commit => ?_
      refine Sends.bind (m := 0) (sends_onDisk _) Nat.one_pos fun res => ?_
      refine ⟨nofun, fun ct => ⟨Nat.one_pos, fun r => ?_⟩⟩
      cases r with
      | error e => trivial
      | ok u =>
          show (ofExcept res : StreamProg String).Settles _ 0
          cases res <;> trivial

theorem takes_recv : Stream.recv.Takes 1 := ⟨fun _ => rfl, fun _ => trivial⟩

/-- The sender of a payload returns once it has read both replies. -/
theorem takes_sendSource (sk : Key) {source : Source} (hkind : (streamManifest source).kind ≠ .text) :
    (Stream.sendSource X sk source).Takes 2 := by
  rw [Stream.sendSource]
  refine Takes.bind (n := 2) (takes_zero _) fun _ => ?_
  refine takes_recv.bind (n := 1) fun ct => ?_
  refine Takes.bind (n := 1) (takes_zero _) fun ack => ?_
  split
  · trivial
  refine Takes.bind (n := 1) (takes_zero _) fun _ => ?_
  rw [Stream.awaitCommit]
  exact takes_recv.bind (n := 0) fun _ => takes_zero _

/-- What a call does once its transfer is over leaves the disk alone. -/
def AfterTransfer : CallOp P → Prop
  | .linger => True
  | .close => True
  | _ => False

theorem afterTransfer_host {o : CallOp P} (ho : AfterTransfer o) (s : End) :
    (End.handle X o s).2.host = s.host := by
  cases o with
  | linger => rfl
  | close => rfl
  | start _ _ => exact ho.elim
  | confirm _ _ => exact ho.elim
  | host _ _ => exact ho.elim

variable (x : Meeting)

theorem failsFast_party (p : Side) : FailsFast (x.party X streamKey p) := by
  cases p with
  | left =>
      show FailsFast ((Call.sendRelay x.source).over X streamKey _ x.topic x.passwordS)
      rw [sendRelay_over]
      refine (failsFast_handshakeOver _ x.topic x.passwordS .sender).attempt_bind ?_ fun e => ⟨_, rfl⟩
      intro key
      exact (Stream.failsFast_sendSource X (streamKey key) x.source).within.bind fun _ => fun _ => trivial
  | right =>
      show FailsFast ((Call.receiveRelay x.outDir).over X streamKey _ x.topic x.passwordR)
      rw [receiveRelay_over]
      refine (failsFast_handshakeOver _ x.topic x.passwordR .receiver).attempt_bind ?_ fun e => ⟨_, rfl⟩
      intro key
      exact (Stream.failsFast_recvInto X (streamKey key) x.outDir).within.bind fun _ => fun _ _ => trivial

/-- The receiver sends four messages, and its disk stays as it is from the last of them on. -/
theorem settles_receiver : (x.party X streamKey .right).Settles AfterTransfer 4 := by
  show ((Call.receiveRelay x.outDir).over X streamKey _ x.topic x.passwordR).Settles _ _
  rw [receiveRelay_over]
  refine Sends.bind (n := 2) (sends_handshakeOver _ x.topic x.passwordR .receiver).attempt Nat.two_pos ?_
  intro r
  cases r with
  | error e => trivial
  | ok key =>
      show ((Stream.recvInto X (streamKey key) x.outDir).within (hosted (streamKey key)) >>=
        afterReceive).Settles _ _
      refine Settles.bind₀ ((settles_recvInto X (streamKey key) x.outDir).within fun _ h => h.elim) ?_
      exact fun desc => ⟨fun _ => trivial, fun _ => ⟨fun _ => trivial, fun _ => trivial⟩⟩

end refusals

/-! ## The whole of the two calls -/

section whole

variable {X : Externals} {streamKey : P.SessionKey → Key} {x : Meeting} {keyS keyR : P.SessionKey} {fs : Fs}

theorem verified_same (key : P.SessionKey) (role : Pake.Role) :
    verified key role (Pake.confirmation P key role) = .ok key :=
  if_pos (beq_self_eq_true _)

theorem verified_apart {key key' : P.SessionKey} {role : Pake.Role}
    (hne : Pake.confirmation P key role ≠ Pake.confirmation P key' role) :
    verified key role (Pake.confirmation P key' role) = .error .codeMismatch :=
  if_neg (by rwa [Pake.verifyConfirmation, beq_iff_eq])

variable (X streamKey) in
/-- Two calls with different passwords both end with the handshake. -/
theorem Meeting.exists_mismatch (hx : x.Exchanged P keyS keyR) (hne : x.passwordS ≠ x.passwordR) (fs : Fs) :
    ∃ log, x.Calls X streamKey False fs log
        (pick (β := fun _ => OverProg P String) (.fail .codeMismatch) (.fail .codeMismatch)) ∧
      ∀ p, own p log = x.greeting keyS keyR p := by
  have h := Meeting.reached_greeting X streamKey hx fs
  rw [verified_apart (hx.apart hne .receiver), verified_apart (hx.apart hne .sender).symm] at h
  exact h

/-- What the receiver returns of a file it has placed. -/
def Meeting.saved (x : Meeting) : String :=
  "saved " ++ joinPath x.outDir (Stream.safeName (streamManifest x.source).name)

/-- Both have their outcome. -/
def Meeting.leaving (x : Meeting) : Side → OverProg P String :=
  pick (β := fun _ => OverProg P String) (afterSend "transfer complete") (afterReceive x.saved)

/-- Both calls returned `Ok`. -/
def Meeting.ended (x : Meeting) : Side → OverProg P String :=
  pick (β := fun _ => OverProg P String) (.ret "transfer complete") (.ret x.saved)

/-- The parting. -/
def farewell : List (Side × OverAction P) :=
  [(.right, ⟨.loc .linger, ()⟩), (.left, ⟨.loc .close, ()⟩), (.right, ⟨.loc .close, ()⟩)]

/-- What a session over the reliable channel leaves on the disk. -/
structure Meeting.Placed (x : Meeting) (fs : Fs) : Prop where
  dest : fs.content (.out (Stream.safeName (streamManifest x.source).name)) = some x.content
  gone : Store.Gone (stagingDir (Stream.safeName (streamManifest x.source).name)) fs

variable (X streamKey) in
/-- All that either end sends, with the key `key`: its part of the handshake, then the manifest, the chunks
that are not staged and the commit; or the two replies. -/
def Meeting.frames (x : Meeting) (key : P.SessionKey) (fs : Fs) : Side → List Bytes :=
  let m := streamManifest x.source
  let st := startState X m fs
  pick (β := fun _ => List Bytes)
    ([encodeFrame KIND_PAKE .sender x.drawS,
        encodeFrame KIND_CONFIRM .sender (Pake.confirmation P key .sender)] ++
      (Stream.manifestFrame X (streamKey key) m ::
        (missing m.totalChunks st.haves).map (Stream.chunkFrame X (streamKey key) x.content) ++
        [Stream.commitFrame X (streamKey key) m.totalChunks x.content]))
    [encodeFrame KIND_PAKE .receiver x.drawR,
      encodeFrame KIND_CONFIRM .receiver (Pake.confirmation P key .receiver),
      Stream.ackFrame X (streamKey key) (Stream.openingAck st),
      Stream.commitAckFrame X (streamKey key) (Stream.commitAck (.ok x.saved))]

variable (X streamKey) in
/-- **Two calls with one password, up to their parting**: all frames are sent and read, the receiver's disk
is ready at each of them, and the file is in place. -/
structure Meeting.Whole (x : Meeting) (key : P.SessionKey) (fs : Fs) (log : List (Side × OverAction P)) :
    Prop where
  run : x.Calls X streamKey False fs log x.leaving
  placed : x.Placed (x.diskAfter X fs log)
  stays : AtMessages (End.handle X)
    (fun s => Stream.Stays X (streamManifest x.source) x.content fs s.host.disk) (x.start fs .right)
    (own .right log)
  left : Stream.Stays X (streamManifest x.source) x.content fs (x.diskAfter X fs log)
  frames : ∀ p, sent (own p log) = x.frames X streamKey key fs p
  read : ∀ p, got (own p log) = sent (own p.peer log)
  staying : ∀ p, (⟨.loc .close, ()⟩ : OverAction P) ∉ own p log

theorem Meeting.staying_greeting (p : Side) :
    (⟨.loc .close, ()⟩ : OverAction P) ∉ x.greeting keyS keyR p := by
  intro hm
  cases p <;> simp [Meeting.greeting, pick] at hm

theorem staying_hosted (sk : Key) (tr : List StreamAction) :
    (⟨.loc .close, ()⟩ : OverAction P) ∉ tr.map (hosted (P := P) sk).action := by
  intro hm
  obtain ⟨⟨o, r⟩, -, heq⟩ := List.mem_map.mp hm
  cases o <;> cases heq

section transfer

variable {source : Source} {log₀ : List (Side × StreamAction)} {qs₀ : Side → StreamProg String}

variable (X streamKey) in
/-- A session within the two calls, behind their handshake. -/
structure Meeting.Carries (x : Meeting) (key : P.SessionKey) (fs : Fs) (log₀ : List (Side × StreamAction))
    (qs₀ : Side → StreamProg String) (log : List (Side × OverAction P)) : Prop where
  run : x.Calls X streamKey False fs log fun p => (qs₀ p).within (hosted (streamKey key)) >>=
    pick (β := fun _ => String → OverProg P String) afterSend afterReceive p
  own : ∀ p, own p log = x.greeting key key p ++ (own p log₀).map (hosted (streamKey key)).action
  disk : x.diskAfter X fs log = Stream.diskAfter X (streamKey key) x.content fs log₀

variable (X streamKey) in
/-- **With one password there is such a run**, whatever the session comes to. -/
theorem Meeting.exists_carries (hx : x.Exchanged P keyS keyR) (hpw : x.passwordS = x.passwordR)
    (hrun₀ : Stream.Session X (streamKey keyS) False x.source x.outDir x.content fs log₀ qs₀) :
    ∃ log, x.Carries X streamKey keyS fs log₀ qs₀ log := by
  have hgreet := Meeting.reached_greeting X streamKey hx fs
  obtain rfl := hx.same hpw
  rw [verified_same, verified_same] at hgreet
  -- the transfer, from where both ends enter it
  have henter : Reached (x.party X streamKey) (fun _ => End.handle X) (x.start fs) (x.greeting keyS keyS)
      fun p => (Stream.party X (streamKey keyS) x.source x.outDir p).within (hosted (streamKey keyS)) >>=
        pick (β := fun _ => String → OverProg P String) afterSend afterReceive p := by
    convert hgreet using 1
    funext p
    cases p <;> rfl
  have hunder := hosted_under (P := P) X (streamKey keyS)
  obtain ⟨log, hrun, hown⟩ := henter.stage (h := fun _ => Host.handle X (streamKey keyS))
    (s := fun _ => ⟨x.content, fs⟩) (π := fun _ => End.host) (fun _ => hunder) (by rintro (_ | _) <;> rfl)
    (by rintro (_ | _) <;> rfl) hrun₀
  refine ⟨log, hrun, hown, ?_⟩
  rw [Meeting.diskAfter, hown, after_append]
  exact congrArg Host.disk (hunder.after_map _ _)

variable {key : P.SessionKey} {log : List (Side × OverAction P)}

/-- What holds of the disk at every message of the session holds of it at every message of the call. -/
theorem Meeting.Carries.atMessages {C : Fs → Prop} (hl : x.Carries X streamKey key fs log₀ qs₀ log) (hC : C fs)
    (hat : AtMessages (Host.handle X (streamKey key)) (fun host => C host.disk) ⟨x.content, fs⟩
      (Prog.own .right log₀)) :
    AtMessages (End.handle X) (fun s => C s.host.disk) (x.start fs .right) (Prog.own .right log) := by
  have hmap : AtMessages (End.handle X) (fun s => C s.host.disk) (x.start fs .right)
      ((Prog.own .right log₀).map (hosted (streamKey key)).action) :=
    (hosted_under (P := P) X (streamKey key)).atMessages_map (C := fun host : Host => C host.disk) hat
  rw [hl.own, atMessages_append]
  exact ⟨⟨hC, hC, hC, hC, trivial⟩, hmap⟩

/-- A session at rest leaves the calls at rest, and if no side has returned, no call ever does. -/
theorem Meeting.Carries.atRest (hl : x.Carries X streamKey key fs log₀ qs₀ log) (hrest : AtRest log₀ qs₀)
    (hnone : ∀ p desc, qs₀ p ≠ .ret desc) :
    AtRest log (fun p => (qs₀ p).within (hosted (streamKey key)) >>=
        pick (β := fun _ => String → OverProg P String) afterSend afterReceive p) ∧
      ∀ p desc, (qs₀ p).within (hosted (streamKey key)) >>=
        pick (β := fun _ => String → OverProg P String) afterSend afterReceive p ≠ .ret desc := by
  refine ⟨fun p => ?_, fun p desc => ?_⟩
  swap
  -- a transfer that has not returned has nothing after it
  · have hno := hnone p
    generalize qs₀ p = q at hno ⊢
    cases q with
    | ret d => exact absurd rfl (hno d)
    | fail e =>
        intro hret
        cases hret
    | step o k => cases o <;> exact nofun
  rcases hrest p with hend | ⟨⟨k, hwait⟩, hread⟩
  -- the transfer is over on this side
  · left
    have hno := hnone p
    show IsLeaf ((qs₀ p).within (hosted (streamKey key)) >>= _)
    generalize qs₀ p = q at hend hno ⊢
    cases q with
    | ret desc => exact absurd rfl (hno desc)
    | fail e => trivial
    | step o k => exact hend.elim
  -- or waits for a frame that is not coming
  · right
    refine ⟨⟨fun r => (k r).within (hosted (streamKey key)) >>=
      pick (β := fun _ => String → OverProg P String) afterSend afterReceive p, ?_⟩, ?_⟩
    · show (qs₀ p).within _ >>= _ = _
      rw [hwait]
      rfl
    · rw [hl.own, hl.own, got_append, sent_append, Inside.got_map_action, Inside.sent_map_action, hread]
      cases p <;> rfl

end transfer

variable (X streamKey) in
/-- **There is such a run**: the handshake, then the transfer. -/
theorem Meeting.exists_whole {name transferId : String} {entries : List Entry}
    (hx : x.Exchanged P keyS keyR) (hpw : x.passwordS = x.passwordR)
    (hsource : x.source = Stream.fileSource name entries x.content transferId)
    (hready : Stream.Ready X (streamManifest x.source) x.content fs)
    (hmakes : fs.Makes (stagingDir (Stream.safeName name))) (hdest : fs.dirs (Stream.safeName name) = false) :
    ∃ log, x.Whole X streamKey keyS fs log := by
  have hc : ∃ log₀ store fs' res, Stream.Complete X (streamKey keyS) x.source x.outDir x.content fs
      (PartOf (streamManifest x.source) x.content)
      (Stream.Stays X (streamManifest x.source) x.content fs) log₀ store fs' res ∧
      got (own .right log₀) = sent (own .left log₀) ∧ sent (own .right log₀) =
        [Stream.ackFrame X (streamKey keyS) (Stream.openingAck (startState X (streamManifest x.source) fs)),
          Stream.commitAckFrame X (streamKey keyS) (Stream.commitAck res)] := by
    rw [hsource] at hready ⊢
    exact hready.exists_exchange hmakes _ _
  obtain ⟨log₀, store, fs', res, hc, hgot, hsent⟩ := hc
  -- nothing is in the way of the file, so it is placed
  have hfree : fs'.dirs (Stream.safeName (streamManifest x.source).name) = false := by
    rw [hc.outside.dirs _ (Fs.stagingDir_ne _).symm, hsource]
    exact hdest
  obtain ⟨rfl, hgone, hplaced⟩ := Stream.finalize_of_staged hc.staged (by rw [hsource]; rfl)
    (by rw [hsource]; rfl) hc.all hc.finalized hfree
  have hleft := Stream.Stays.of_finalized hc.staged hc.outside (by rw [hsource]; rfl) (by rw [hsource]; rfl)
    hc.all hc.finalized
  obtain ⟨log, hl⟩ := Meeting.exists_carries X streamKey hx hpw hc.run
  -- the greeting, and then the frames of the session
  have hframes : ∀ p, sent (own p log) = x.frames X streamKey keyS fs p := by
    intro p
    obtain rfl := hx.same hpw
    rw [hl.own, sent_append, Inside.sent_map_action]
    cases p with
    | left => exact congrArg (sent (x.greeting keyS keyS .left) ++ ·) hc.frames
    | right => exact congrArg (sent (x.greeting keyS keyS .right) ++ ·) hsent
  refine ⟨log, ?_, ⟨hl.disk ▸ hplaced, hl.disk ▸ hgone⟩, hl.atMessages (.refl hready) hc.atMessages,
    hl.disk ▸ hleft, hframes, ?_, ?_⟩
  · convert hl.run using 1
    funext p
    cases p <;> rfl
  · intro p
    cases p with
    | right =>
        rw [hl.own, got_append, Inside.got_map_action, hgot, hl.own, sent_append, Inside.sent_map_action]
        rfl
    | left =>
        -- the sender has read two replies, and there were no more
        have hkind : (streamManifest x.source).kind ≠ .text := by
          rw [hsource]
          exact Kind.file_ne_text
        have htakes := (takes_sendSource X (streamKey keyS) hkind).got_le (hc.run.follows .left)
        refine (Run.got_initial hl.run .left).eq_of_length_le ?_
        rw [hl.own, hl.own, got_append, sent_append, Inside.got_map_action, Inside.sent_map_action,
          List.length_append, List.length_append]
        show (sent (x.greeting keyS keyS .right)).length + (sent (own .right log₀)).length ≤ _
        rw [hsent]
        exact Nat.add_le_add_left htakes 2
  · intro p hm
    rw [hl.own] at hm
    rcases List.mem_append.mp hm with hm | hm
    · exact Meeting.staying_greeting p hm
    · exact staying_hosted _ _ hm

variable {key : P.SessionKey} {log : List (Side × OverAction P)}

/-- The parting ends both calls. -/
theorem Meeting.Whole.ended (hw : x.Whole X streamKey key fs log) :
    x.Calls X streamKey False fs (log ++ farewell) x.ended := by
  have h₁ := hw.run.extend (i := .right) (o := .loc .linger) rfl (r := ()) rfl
  have h₂ := h₁.extend (i := .left) (o := .loc .close) rfl (r := ()) rfl
  have h₃ := h₂.extend (i := .right) (o := .loc .close) rfl (r := ()) rfl
  rw [List.append_assoc, List.append_assoc] at h₃
  convert h₃ using 1
  · rfl
  · funext p
    cases p <;> rfl

theorem own_farewell (p : Side) : own p (log ++ farewell (P := P)) = own p log ++
    pick (β := fun _ => List (OverAction P)) [⟨.loc .close, ()⟩] [⟨.loc .linger, ()⟩, ⟨.loc .close, ()⟩] p := by
  rw [own_append]
  cases p <;> rfl

/-! ## What any run comes to -/

variable {log : List (Side × OverAction P)} {qs : Side → OverProg P String} {lossy : Prop}

/-- Operations that are not the transfer's leave the host as it was. -/
theorem host_after_of_not_mem {tr : List (OverAction P)}
    (htr : ∀ sk o r, (⟨.loc (.host sk o), r⟩ : OverAction P) ∉ tr) (s : End) :
    (after (End.handle X) s tr).host = s.host := by
  induction tr generalizing s with
  | nil => rfl
  | cons a tr ih =>
      have htl := ih fun sk o r hm => htr sk o r (List.mem_cons_of_mem _ hm)
      obtain ⟨o, r⟩ := a
      cases o with
      | send m => exact htl s
      | recv => exact htl s
      | loc o =>
          cases o with
          | host sk o => exact absurd List.mem_cons_self (htr sk o r)
          | start _ _ => exact htl s
          | confirm _ _ => exact htl s
          | linger => exact htl s
          | close => exact htl s

theorem Meeting.not_host_of_mem_greeting {p : Side} {sk : Key} {o : HostOp} {r : o.Res} :
    (⟨.loc (.host sk o), r⟩ : OverAction P) ∉ x.greeting keyS keyR p := by
  intro hm
  cases p <;> simp [Meeting.greeting, pick] at hm

/-- **A receiver that has another password is left as it was**, wherever the run stands and whatever the
channel refused. -/
theorem Meeting.diskAfter_mismatch (hx : x.Exchanged P keyS keyR) (hne : x.passwordS ≠ x.passwordR)
    (hrun : x.Calls X streamKey lossy fs log qs) : x.diskAfter X fs log = fs := by
  obtain ⟨log₀, hrun₀, hown⟩ := Meeting.exists_mismatch X streamKey hx hne fs
  have ht := tracks hrun₀ (.of_leaf (by rintro (_ | _) <;> trivial)) (failsFast_party X streamKey x) hrun .right
  rw [Meeting.diskAfter, host_after_of_not_mem]
  · rfl
  · intro sk o r hm
    rcases ht.mem hm with hm | hl
    · rw [hown] at hm
      exact Meeting.not_host_of_mem_greeting hm
    · cases hl

theorem Meeting.follows_greeting (hx : x.Exchanged P keyS keyR) :
    Follows (handshakeOver (x.budgetR + 1) x.topic x.passwordR .receiver) (x.greeting keyS keyR .right)
      (ofExcept (verified keyR .sender (Pake.confirmation P keyS .sender))) :=
  ((does_start (Externals.ideal fun _ => "") ⟨x.drawR, ⟨x.content, Fs.blank⟩⟩ _ x.topic x.passwordR
    .receiver).append ((does_confirm _ _ x.budgetR .receiver hx.receiver).append
      (does_verify _ _ x.budgetR .receiver keyR _))).follows

/-- The receiver's handshake does not return. -/
theorem Meeting.not_key_of_mismatch (hx : x.Exchanged P keyS keyR) (hne : x.passwordS ≠ x.passwordR)
    (hrun : x.Calls X streamKey lossy fs log qs) {tr t : List (OverAction P)} (htr : own .right log = tr ++ t)
    {key : P.SessionKey} :
    ¬ Follows (handshakeOver (x.budgetR + 1) x.topic x.passwordR .receiver) tr (.ret key) := by
  intro hf
  obtain ⟨log₀, hrun₀, hown⟩ := Meeting.exists_mismatch X streamKey hx hne fs
  have ht := tracks hrun₀ (.of_leaf (by rintro (_ | _) <;> trivial)) (failsFast_party X streamKey x) hrun .right
  rw [htr, hown] at ht
  have hff := failsFast_handshakeOver (P := P) (x.budgetR + 1) x.topic x.passwordR .receiver
  have hend := (ht.of_append.eq_of_ret hff (Meeting.follows_greeting hx) hf).2
  rw [verified_apart (hx.apart hne .sender).symm] at hend
  cases hend

/-- Whatever the handshake failed with, the receiver waits on. -/
theorem next_peersDoing (e : Anyhow) :
    ∃ pause, ∀ busyRetries, Receive.next busyRetries (.error (peersDoing e)) = .again 0 pause := by
  cases hr : e.root with
  | codeMismatch =>
      refine ⟨2, fun n => ?_⟩
      rw [peersDoing, hr]
      simp only [Receive.next, hr]
  | transportLost c =>
      refine ⟨0, fun n => ?_⟩
      rw [peersDoing, hr]
      simp only [Receive.next, hr]
  | _ =>
      refine ⟨0, fun n => ?_⟩
      rw [peersDoing, hr]
      rfl

/-- … and so it does after a call with another password. -/
theorem Meeting.rearms_mismatch (hx : x.Exchanged P keyS keyR) (hne : x.passwordS ≠ x.passwordR)
    (hrun : x.Calls X streamKey lossy fs log qs) (hleaf : IsLeaf (qs .right)) :
    ∃ e pause, qs .right = .fail e ∧
      ∀ busyRetries, Receive.next busyRetries (.error e) = .again 0 pause := by
  have hf : Follows ((Call.receiveRelay x.outDir).over X streamKey (x.budgetR + 1) x.topic x.passwordR)
    (own .right log) (qs .right) := hrun.follows .right
  rw [receiveRelay_over] at hf
  -- with two passwords the handshake gives no key
  have hno : ∀ {tr t : List (OverAction P)} {r : Except Anyhow P.SessionKey}, own .right log = tr ++ t →
      Follows (handshakeOver (x.budgetR + 1) x.topic x.passwordR .receiver).attempt tr (.ret r) →
      ∃ e, r = .error e := by
    intro tr t r htr hr
    cases r with
    | error e => exact ⟨e, rfl⟩
    | ok key => exact absurd hr.attempt_inv (Meeting.not_key_of_mismatch hx hne hrun htr)
  -- the call ended with its handshake, or as the rest of it went on
  obtain ⟨e, he⟩ : ∃ e, qs .right = .fail (peersDoing e) := by
    rcases hf.bind_inv with ⟨q, hq, hqs⟩ | ⟨r, tr, t, htr, hr, hrest⟩
    · cases q with
      | ret r =>
          obtain ⟨e, rfl⟩ := hno (List.append_nil _).symm hq
          exact ⟨e, hqs⟩
      | fail e => exact ((FailsWith.attempt (fun _ => False) _).of_follows hq).elim
      | step o k =>
          rw [hqs] at hleaf
          exact hleaf.elim
    · obtain ⟨e, rfl⟩ := hno htr hr
      exact ⟨e, hrest.fail_inv⟩
  obtain ⟨pause, hpause⟩ := next_peersDoing e
  exact ⟨_, pause, he, hpause⟩

/-! ## Delivery -/

section delivery

variable {name transferId : String} {entries : List Entry}

variable (X streamKey) in
/-- Where the receiver's disk is ready and nothing in the way, the whole of both calls, and what it leaves. -/
theorem Meeting.exists_placed (hx : x.Exchanged P keyS keyR) (hpw : x.passwordS = x.passwordR)
    (hsource : x.source = Stream.fileSource name entries x.content transferId)
    (hready : Stream.Ready X (streamManifest x.source) x.content fs)
    (hmakes : fs.Makes (stagingDir (Stream.safeName name))) (hdest : fs.dirs (Stream.safeName name) = false) :
    ∃ log, x.Calls X streamKey False fs log x.ended ∧ x.Placed (x.diskAfter X fs log) ∧
      4 ≤ (got (own .left log)).length ∧
      AtMessages (End.handle X)
        (fun s => Stream.Stays X (streamManifest x.source) x.content fs s.host.disk) (x.start fs .right)
        (own .right log) ∧
      Stream.Stays X (streamManifest x.source) x.content fs (x.diskAfter X fs log) := by
  obtain ⟨log, hw⟩ := Meeting.exists_whole X streamKey hx hpw hsource hready hmakes hdest
  refine ⟨log ++ farewell, hw.ended, ?_, ?_, ?_, ?_⟩
  · rw [Meeting.diskAfter, own_farewell, after_append]
    exact hw.placed
  · rw [own_farewell, got_append, hw.read, List.length_append]
    exact Nat.le_add_right_of_le (congrArg List.length (hw.frames .right)).ge
  · rw [own_farewell, atMessages_append]
    exact ⟨hw.stays, trivial⟩
  · rw [Meeting.diskAfter, own_farewell, after_append]
    exact hw.left

variable (X streamKey) in
/-- An attempt at the call of `x`: the two draw anew, may mistake the password, and their channel may
refuse any message. The receiver starts on `fs` and leaves `fs'`. -/
def CallAttempt (x : Meeting) (fs fs' : Fs) : Prop :=
  ∃ (y : Meeting) (keyS keyR : P.SessionKey) (log : _) (qs : _), y.source = x.source ∧
    y.content = x.content ∧ y.outDir = x.outDir ∧ y.Exchanged P keyS keyR ∧ y.Calls X streamKey True fs log qs ∧
    IsLeaf (qs .right) ∧ fs' = y.diskAfter X fs log

variable (X streamKey) in
/-- Where something is in the way, two calls with one password come to rest and neither has returned. -/
theorem Meeting.exists_failing (hx : x.Exchanged P keyS keyR) (hpw : x.passwordS = x.passwordR)
    (hsource : x.source = Stream.fileSource name entries x.content transferId)
    (hready : Stream.Ready X (streamManifest x.source) x.content fs)
    (hno : ¬ (fs.Makes (stagingDir (Stream.safeName name)) ∧ fs.dirs (Stream.safeName name) = false)) :
    ∃ log qs, x.Calls X streamKey False fs log qs ∧ AtRest log qs ∧ (∀ p desc, qs p ≠ .ret desc) ∧
      AtMessages (End.handle X)
        (fun s => Stream.Stays X (streamManifest x.source) x.content fs s.host.disk) (x.start fs .right)
        (own .right log) ∧
      Stream.Stays X (streamManifest x.source) x.content fs (x.diskAfter X fs log) := by
  have hsession : ∃ log₀ qs₀, Stream.Session X (streamKey keyS) False x.source x.outDir x.content fs log₀ qs₀ ∧
      AtRest log₀ qs₀ ∧ (∀ p desc, qs₀ p ≠ .ret desc) ∧
      AtMessages (Host.handle X (streamKey keyS)) (fun host => Stream.Stays X (streamManifest x.source)
        x.content fs host.disk) ⟨x.content, fs⟩ (own .right log₀) ∧
      Stream.Stays X (streamManifest x.source) x.content fs
        (Stream.diskAfter X (streamKey keyS) x.content fs log₀) := by
    rw [hsource] at hready ⊢
    exact hready.exists_failing hno _ _
  obtain ⟨log₀, qs₀, hrun₀, hrest, hnone, hat, hleft⟩ := hsession
  obtain ⟨log, hl⟩ := Meeting.exists_carries X streamKey hx hpw hrun₀
  obtain ⟨hrest', hnone'⟩ := hl.atRest hrest hnone
  exact ⟨log, _, hl.run, hrest', hnone', hl.atMessages (.refl hready) hat, hl.disk ▸ hleft⟩

variable (X streamKey) in
/-- On any ready disk some run of the two calls comes to rest. If a side of it has returned, the file was
placed. -/
theorem Meeting.exists_rest (hx : x.Exchanged P keyS keyR) (hpw : x.passwordS = x.passwordR)
    (hsource : x.source = Stream.fileSource name entries x.content transferId)
    (hready : Stream.Ready X (streamManifest x.source) x.content fs) :
    ∃ log qs, x.Calls X streamKey False fs log qs ∧ AtRest log qs ∧
      (∀ p desc, qs p = .ret desc →
        x.Placed (x.diskAfter X fs log) ∧ 4 ≤ (got (own .left log)).length) ∧
      AtMessages (End.handle X)
        (fun s => Stream.Stays X (streamManifest x.source) x.content fs s.host.disk) (x.start fs .right)
        (own .right log) ∧
      Stream.Stays X (streamManifest x.source) x.content fs (x.diskAfter X fs log) := by
  by_cases hfree : fs.Makes (stagingDir (Stream.safeName name)) ∧ fs.dirs (Stream.safeName name) = false
  · obtain ⟨log, hrun, hplaced, hgot, hat, hleft⟩ :=
      Meeting.exists_placed X streamKey hx hpw hsource hready hfree.1 hfree.2
    exact ⟨log, _, hrun, .of_leaf (by rintro (_ | _) <;> trivial), fun _ _ _ => ⟨hplaced, hgot⟩, hat, hleft⟩
  · obtain ⟨log, qs, hrun, hrest, hnone, hat, hleft⟩ :=
      Meeting.exists_failing X streamKey hx hpw hsource hready hfree
    exact ⟨log, qs, hrun, hrest, fun p desc hret => absurd hret (hnone p desc), hat, hleft⟩

/-- **Wherever the channel dies, and whoever mistook the password**, the directory is left ready, and
nothing new in the way. -/
theorem stays_callAttempt {fs' : Fs} (hsource : x.source = Stream.fileSource name entries x.content transferId)
    (hready : Stream.Ready X (streamManifest x.source) x.content fs)
    (ha : CallAttempt X streamKey x fs fs') : Stream.Stays X (streamManifest x.source) x.content fs fs' := by
  obtain ⟨y, keyS, keyR, log, qs, hys, hyc, -, hy, hrun, hleaf, rfl⟩ := ha
  by_cases hpw : y.passwordS = y.passwordR
  swap
  · rw [Meeting.diskAfter_mismatch hy hpw hrun]
    exact .refl hready
  rw [← hys, ← hyc] at hready hsource ⊢
  obtain ⟨log₀, qs₀, hrun₀, hrest, -, hat, hleft⟩ := Meeting.exists_rest X streamKey hy hpw hsource hready
  have ht := tracks hrun₀ hrest (failsFast_party X streamKey y) hrun .right
  exact ht.holds (C := fun s : End => Stream.Stays X _ _ fs s.host.disk) (hrun₀.follows .right)
    (hrun.follows .right) hleaf hat hleft

theorem stays_callAttempts {fs₀ : Fs} (hsource : x.source = Stream.fileSource name entries x.content transferId)
    (hwf : fs₀.Wf) (hnone : fs₀.dirs (stagingDir (Stream.safeName name)) = false)
    (hattempts : Relation.ReflTransGen (CallAttempt X streamKey x) fs₀ fs) :
    Stream.Stays X (streamManifest x.source) x.content fs₀ fs := by
  induction hattempts with
  | refl =>
      refine .refl (.of_none hwf (Stream.stateJson_of_noDir hwf ?_))
      rw [hsource]
      exact hnone
  | tail _ ha ih => exact ih.trans (stays_callAttempt hsource ih.ready ha)

/-- **The two calls deliver.** Start from an output directory without a staging directory for the name, with
nothing in the file's way. After any number of attempts, wherever their channels died and whether or not the
passwords were one and the same, two calls with one password over a channel that does not die come to an end
and cannot get stuck before: both return `Ok`, the file is in place and nothing is staged. -/
theorem calls_deliver {fs₀ : Fs} (hsource : x.source = Stream.fileSource name entries x.content transferId)
    (hwf : fs₀.Wf) (hclear : fs₀.Clear (Stream.safeName name))
    (hnone : fs₀.dirs (stagingDir (Stream.safeName name)) = false)
    (hattempts : Relation.ReflTransGen (CallAttempt X streamKey x) fs₀ fs)
    (hx : x.Exchanged P keyS keyR) (hpw : x.passwordS = x.passwordR) :
    (∃ n, ∀ log qs, x.Calls X streamKey False fs log qs → log.length ≤ n) ∧
      (∀ log qs, x.Calls X streamKey False fs log qs → (∃ p, ¬ IsLeaf (qs p)) →
        ∃ a qs', x.Calls X streamKey False fs (log ++ [a]) qs') ∧
      ∀ log qs, x.Calls X streamKey False fs log qs → (∀ p, IsLeaf (qs p)) →
        qs = x.ended ∧ x.Placed (x.diskAfter X fs log) := by
  have hstays := stays_callAttempts hsource hwf hnone hattempts
  have hclear' : fs.Clear (Stream.safeName name) := by
    have hkept := hstays.clear
    rw [hsource] at hkept
    exact hkept hclear
  obtain ⟨log₀, hrun₀, hplaced, -⟩ :=
    Meeting.exists_placed X streamKey hx hpw hsource hstays.ready hclear'.makes hclear'.dest
  have hleaf₀ : ∀ p, IsLeaf (x.ended (P := P) p) := by rintro (_ | _) <;> trivial
  have hff := failsFast_party X streamKey x
  -- every run ends as this one
  refine ⟨⟨log₀.length, fun log qs hrun => length_le hrun₀ hleaf₀ hff hrun⟩,
    fun log qs hrun hnot => Run.progress hrun₀ hleaf₀ hff hrun hnot, ?_⟩
  intro log qs hrun hleaf
  refine ⟨funext fun p => eq_of_isLeaf hrun₀ hleaf₀ hff hrun (hleaf p), ?_⟩
  rwa [Meeting.diskAfter, own_eq_of_isLeaf hrun₀ hleaf₀ hff hrun (hleaf .right)]

/-- A call that has returned `Ok` has delivered, whatever the channel refused. -/
theorem Meeting.placed_of_ret (hsource : x.source = Stream.fileSource name entries x.content transferId)
    (hready : Stream.Ready X (streamManifest x.source) x.content fs) (hx : x.Exchanged P keyS keyR)
    (hrun : x.Calls X streamKey True fs log qs) {p : Side} {desc : String} (hok : qs p = .ret desc) :
    x.passwordS = x.passwordR ∧ x.Placed (x.diskAfter X fs log) := by
  have hff := failsFast_party X streamKey x
  have hf : Follows (x.party X streamKey p) (own p log) (.ret desc) := hok ▸ hrun.follows p
  by_cases hpw : x.passwordS = x.passwordR
  swap
  · -- with two passwords neither side returns
    obtain ⟨log₀, hrun₀, -⟩ := Meeting.exists_mismatch X streamKey hx hpw fs
    have ht := tracks hrun₀ (.of_leaf (by rintro (_ | _) <;> trivial)) hff hrun p
    have hend := (ht.eq_of_ret (hff p) (hrun₀.follows p) hf).2
    cases p <;> cases hend
  refine ⟨hpw, ?_⟩
  obtain ⟨log₀, qs₀, hrun₀, hrest, hret, -⟩ := Meeting.exists_rest X streamKey hx hpw hsource hready
  have ht := tracks hrun₀ hrest hff hrun
  obtain ⟨hfull, hend⟩ := (ht p).eq_of_ret (hff p) (hrun₀.follows p) hf
  obtain ⟨hplaced, hgot⟩ := hret p desc hend
  -- the disk is the one of the run that rests
  suffices hdisk : x.diskAfter X fs log = x.diskAfter X fs log₀ by rwa [hdisk]
  cases p with
  | right => rw [Meeting.diskAfter, Meeting.diskAfter, hfull]
  | left =>
      -- the sender has read all four of the receiver's messages
      have hsent : 4 ≤ (sent (own .right log)).length := by
        rw [← hfull] at hgot
        exact hgot.trans (Run.got_initial hrun .left).length_le
      exact (ht .right).settled (π := fun s : End => s.host.disk)
        (fun o ho s => congrArg Host.disk (afterTransfer_host X ho s)) (hrun₀.follows .right)
        (settles_receiver X streamKey x) hsent _

/-- **`Ok` means delivered.** Whatever the channel refused: if either call returned `Ok`, they had the same
password, the file is in place and nothing is staged. For the sender this is so although the channel may
have died right after the receiver's last reply. -/
theorem ok_means_delivered {fs₀ : Fs}
    (hsource : x.source = Stream.fileSource name entries x.content transferId) (hwf : fs₀.Wf)
    (hnone : fs₀.dirs (stagingDir (Stream.safeName name)) = false)
    (hattempts : Relation.ReflTransGen (CallAttempt X streamKey x) fs₀ fs) (hx : x.Exchanged P keyS keyR)
    (hrun : x.Calls X streamKey True fs log qs) {p : Side} {desc : String} (hok : qs p = .ret desc) :
    x.passwordS = x.passwordR ∧ x.Placed (x.diskAfter X fs log) :=
  Meeting.placed_of_ret hsource (stays_callAttempts hsource hwf hnone hattempts).ready hx hrun hok

/-- **Two passwords.** The calls come to an end and cannot get stuck before, both with the error that says
the codes do not match. Whatever the channel refuses, the receiver's disk is as it was at every moment, and
whatever its call fails with, it arms its room again. -/
theorem calls_mismatch (hx : x.Exchanged P keyS keyR) (hne : x.passwordS ≠ x.passwordR) (fs : Fs) :
    (∃ n, ∀ log qs, x.Calls X streamKey False fs log qs → log.length ≤ n) ∧
      (∀ log qs, x.Calls X streamKey False fs log qs → (∃ p, ¬ IsLeaf (qs p)) →
        ∃ a qs', x.Calls X streamKey False fs (log ++ [a]) qs') ∧
      (∀ log qs, x.Calls X streamKey False fs log qs → (∀ p, IsLeaf (qs p)) →
        ∀ p, qs p = .fail .codeMismatch) ∧
      ∀ log qs, x.Calls X streamKey True fs log qs → x.diskAfter X fs log = fs ∧
        (IsLeaf (qs .right) → ∃ e pause, qs .right = .fail e ∧
          ∀ busyRetries, Receive.next busyRetries (.error e) = .again 0 pause) := by
  obtain ⟨log₀, hrun₀, -⟩ := Meeting.exists_mismatch X streamKey hx hne fs
  have hleaf₀ : ∀ p, IsLeaf (pick (β := fun _ => OverProg P String) (.fail .codeMismatch)
      (.fail .codeMismatch) p) := by rintro (_ | _) <;> trivial
  have hff := failsFast_party X streamKey x
  refine ⟨⟨log₀.length, fun log qs hrun => length_le hrun₀ hleaf₀ hff hrun⟩,
    fun log qs hrun hnot => Run.progress hrun₀ hleaf₀ hff hrun hnot, ?_, ?_⟩
  · intro log qs hrun hleaf p
    rw [eq_of_isLeaf hrun₀ hleaf₀ hff hrun (hleaf p)]
    cases p <;> rfl
  · intro log qs hrun
    exact ⟨Meeting.diskAfter_mismatch hx hne hrun, Meeting.rearms_mismatch hx hne hrun⟩

end delivery

end whole

/-! ## Such meetings -/

/-- With libraries as ideal as can be, every two calls exchange their keys. -/
theorem exchanged_ideal (x : Meeting) : x.Exchanged Handshake.idealLib
    (x.passwordS, Pake.identity x.topic, s(x.drawS, x.drawR))
    (x.passwordR, Pake.identity x.topic, s(x.drawR, x.drawS)) := by
  refine ⟨rfl, rfl, ?_, ?_⟩
  · intro h
    rw [h, Sym2.eq_swap]
  · intro h role hc
    exact h (congrArg Prod.fst (Handshake.ideal_idealLib.hash_inj hc).1)

/-- A call for a file of three bytes, its password typed by the sender as `typed`. -/
def threeBytes (typed : Bytes) : Meeting where
  topic := "t"
  source := Stream.fileSource "a" [] [7, 8, 9] "t"
  outDir := "out"
  content := [7, 8, 9]
  passwordS := typed
  drawS := [10]
  passwordR := [1]
  drawR := [20]
  budgetS := 0
  budgetR := 0

/-- Its calls run to their end. -/
theorem exists_threeBytes : ∃ log, (threeBytes [1]).Calls (Externals.ideal fun _ => "")
    (fun _ : Handshake.idealLib.SessionKey => []) False Fs.blank log (threeBytes [1]).ended := by
  have hready : Stream.Ready (Externals.ideal fun _ => "") (streamManifest (threeBytes [1]).source)
      (threeBytes [1]).content Fs.blank := Stream.Ready.of_none Fs.blank_wf rfl
  obtain ⟨log, hrun, -⟩ := Meeting.exists_placed _ (fun _ => []) (exchanged_ideal (threeBytes [1])) rfl rfl
    hready (Fs.blank_clear _).makes (Fs.blank_clear _).dest
  exact ⟨log, hrun⟩

theorem calls_deliver_threeBytes : ∃ log, (threeBytes [1]).Calls (Externals.ideal fun _ => "")
    (fun _ : Handshake.idealLib.SessionKey => []) False Fs.blank log (threeBytes [1]).ended ∧
      (threeBytes [1]).Placed ((threeBytes [1]).diskAfter (Externals.ideal fun _ => "") Fs.blank log) := by
  obtain ⟨log, hrun⟩ := exists_threeBytes
  exact ⟨log, hrun, ((calls_deliver rfl Fs.blank_wf (Fs.blank_clear _) rfl .refl
    (exchanged_ideal (threeBytes [1])) rfl).2.2
    log _ hrun (by rintro (_ | _) <;> trivial)).2⟩

theorem ok_means_delivered_threeBytes : ∃ log, (threeBytes [1]).Calls (Externals.ideal fun _ => "")
    (fun _ : Handshake.idealLib.SessionKey => []) True Fs.blank log (threeBytes [1]).ended ∧
      (threeBytes [1]).Placed ((threeBytes [1]).diskAfter (Externals.ideal fun _ => "") Fs.blank log) := by
  obtain ⟨log, hrun⟩ := exists_threeBytes
  exact ⟨log, hrun.of_reliable, (ok_means_delivered rfl Fs.blank_wf rfl .refl
    (exchanged_ideal (threeBytes [1])) hrun.of_reliable (p := .left) rfl).2⟩

theorem calls_mismatch_threeBytes : ∃ log, (threeBytes [2]).Calls (Externals.ideal fun _ => "")
    (fun _ : Handshake.idealLib.SessionKey => []) False Fs.blank log (fun _ => .fail .codeMismatch) := by
  obtain ⟨log, hrun, -⟩ := Meeting.exists_mismatch (Externals.ideal fun _ => "")
    (fun _ : Handshake.idealLib.SessionKey => []) (exchanged_ideal (threeBytes [2])) (by decide) Fs.blank
  have hends := (calls_mismatch (exchanged_ideal (threeBytes [2])) (by decide) Fs.blank).2.2.1 log _ hrun
    (by rintro (_ | _) <;> trivial)
  exact ⟨log, (funext hends : _ = fun _ => _) ▸ hrun⟩

end Session
end B2p
