import B2p.Session.Stack
import B2p.Relay.Progress
import B2p.Lib.Runs

/-!
# Two calls over the relay channel, when nothing goes wrong

The channel between the two programs is of bounded capacity: the queue to `recv` holds `IN_CAPACITY` frames, a
task that finds it full stops reading its socket, and with it the acknowledgments that would open the window
to `send`. That two programs which talk over such a channel do not block each other is up to the programs.

* `Stack.Smooth` — the steps at which nothing fails and nobody has left.
* `ahead_sender`, `lastWord_receiver` — how far either program gets before it waits for the other.
* `Meeting.Smoothly.moves` — while the two calls are not through, there is such a step.
* `stack_completes` — whatever order they come in, both calls come to their parting, with the file in place.
-/

namespace B2p

open Interaction Prog
open B2p.Stream (streamManifest)
open Handshake (KIND_PAKE KIND_CONFIRM roleByte other skipUntil recvKind)

namespace Session

variable {P : PakeLib}

/-! ## The steps -/

/-- A step at which nothing fails and nobody leaves. -/
inductive Stack.Smooth (X : Externals) (t : Stack P) : Stack P → Prop where
  | send {s : Side} {m : Bytes} {k : Except Anyhow Unit → OverProg P String} {r : Except Anyhow Unit}
      {e : RelayChannel} {net : Net} (hp : t.progs s = .step (.send m) k)
      (hr : (t.net.ends s).send m false = some (r, e))
      (hs : t.net.step (.move s (.send m false)) = some net) : Smooth X t (t.did s ⟨.send m, r⟩ (k r) net)
  | recv {s : Side} {k : Except Anyhow Bytes → OverProg P String} {r : Except Anyhow Bytes}
      {e : RelayChannel} {net : Net} (hp : t.progs s = .step .recv k)
      (hr : (t.net.ends s).recv = some (r, e)) (hs : t.net.step (.move s .recv) = some net) :
      Smooth X t (t.did s ⟨.recv, r⟩ (k r) net)
  | work {s : Side} {o : CallOp P} {k : o.Res → OverProg P String} (hp : t.progs s = .step (.loc o) k)
      (ho : OffChannel o) :
      Smooth X t
        { t.did s ⟨.loc o, (End.handle X o (t.hosts s)).1⟩ (k (End.handle X o (t.hosts s)).1) t.net with
          hosts := Function.update t.hosts s (End.handle X o (t.hosts s)).2 }
  /-- The ten seconds of the lingering receiver are over. -/
  | linger {s : Side} {k : Unit → OverProg P String} (hp : t.progs s = .step (.loc .linger) k) :
      Smooth X t (t.did s ⟨.loc .linger, ()⟩ (k ()) t.net)
  | io {s : Side} {a : RelayChannel.Act} {net : Net} (ha : a.Smooth)
      (hs : t.net.step (.move s a) = some net) : Smooth X t { t with net := net }

theorem ofIoTask_of_smooth {a : RelayChannel.Act} (ha : a.Smooth) : ofIoTask a := by
  cases a with
  | send _ _ => exact ha
  | recv => exact ha
  | close => exact ha
  | drop => exact ha
  | _ => trivial

theorem Stack.Smooth.step {X : Externals} {t t' : Stack P} (h : t.Smooth X t') : t.Step X t' := by
  cases h with
  | send hp hr hs => exact .send hp hr hs
  | recv hp hr hs => exact .recv hp hr hs
  | work hp ho => exact .work hp ho
  | linger hp => exact .linger hp (.inl rfl)
  | io ha hs => exact .io (ofIoTask_of_smooth ha) hs

/-! ## How far either gets before it waits -/

section waiting

variable (X : Externals) (streamKey : P.SessionKey → Key) (budget : Nat)

/-- The readers of the handshake read at least one frame. -/
theorem takes_recvKind (e : Anyhow) (kind role : UInt8) :
    ((recvKind e budget kind role : HsProg P Bytes).interp overHs).Takes 1 := by
  rw [recvKind]
  induction budget with
  | zero => trivial
  | succ budget ih =>
      rw [skipUntil, interp_bind]
      refine ⟨fun frame => takes_zero _, fun e => trivial⟩

/-- A handshake reads the peer's message and its confirmation. -/
theorem takes_handshakeOver (topic : String) (password : Bytes) (role : Pake.Role) :
    (handshakeOver (P := P) budget topic password role).Takes 2 := by
  refine fun own r => ?_
  cases r with
  | error e => trivial
  | ok u =>
      show ((afterStart P budget topic password role own).interp overHs).Takes (1 + 1)
      rw [afterStart, interp_bind]
      refine (takes_recvKind budget ..).bind fun peerMsg => ?_
      rw [interp_bind, interp_ofExcept]
      refine Takes.bind (m := 0) (n := 1) (takes_zero _) fun key => ?_
      refine fun tag r => ?_
      cases r with
      | error e => trivial
      | ok u =>
          show ((afterConfirm budget role key).interp overHs).Takes (1 + 0)
          rw [afterConfirm, interp_bind]
          exact (takes_recvKind budget ..).bind fun mac => takes_zero _

theorem sends_offer (m : Manifest) : (Stream.offer X m).Sends 1 :=
  ⟨fun _ => trivial, fun _ => ⟨Nat.one_pos, fun r => sends_ofExcept r⟩⟩

/-- A transfer opens with one message, and waits for the reply. -/
theorem ahead_sendSource (sk : Key) (source : Source) : (Stream.sendSource X sk source).Ahead 1 0 := by
  rw [Stream.sendSource]
  show Ahead (Stream.offer X (streamManifest source) >>= _) (1 + 0) (0 + 0)
  refine Ahead.bind (sends_offer X _) (takes_zero _) fun _ => ?_
  exact ⟨fun _ h => absurd h (Nat.lt_irrefl 0), fun e => trivial⟩

variable (x : Meeting)

/-- **The sender waits for the receiver's reply** before it sends the payload: until it has the third message
it sends no more than three. -/
theorem ahead_sender (hkind : (streamManifest x.source).kind ≠ .text) :
    (x.party X streamKey .left).Ahead 3 2 := by
  show ((Call.sendRelay x.source).over X streamKey _ x.topic x.passwordS).Ahead (2 + 1) (2 + 0)
  rw [sendRelay_over, attempt_bind_ofExcept]
  refine Ahead.bind (Settles.mapError (sends_handshakeOver _ x.topic x.passwordS .sender))
    (Takes.mapError (takes_handshakeOver _ x.topic x.passwordS .sender)) fun key => ?_
  refine (ahead_sendSource X (streamKey key) x.source).within.bind_takes ?_
  exact ((takes_sendSource X (streamKey key) hkind).mono one_le_two).within

/-- Once the receiver has read the commit, it reads nothing more. -/
theorem lastWord_recvInto (sk : Key) (outDir : String) : (Stream.recvInto X sk outDir).LastWord (1 + 0) := by
  rw [Stream.recvInto]
  refine (sends_negotiate X sk).lastWord ?_
  rintro ⟨m, store?⟩
  cases store? with
  | none => trivial
  | some store =>
      show (Stream.receivePayload X sk outDir m store).LastWord (0 + 0)
      rw [Stream.receivePayload]
      refine (sends_recvChunks X sk ..).lastWord fun store' => ?_
      refine sends_recv.lastWord (n := 0) fun ct => ?_
      refine Sends.lastWord (m := 0) (n := 0) (sends_ofExcept _) fun commit => ?_
      refine Sends.lastWord (m := 0) (n := 0) (sends_onDisk _) fun res => ?_
      have hdeaf : ∀ r : Except Anyhow Unit,
          Deaf (ofExcept r >>= fun _ => (ofExcept res : StreamProg String)) := by
        intro r
        cases r <;> cases res <;> trivial
      exact fun ct => ⟨fun _ => hdeaf, fun r => (hdeaf r).lastWord⟩

theorem deaf_afterReceive (desc : String) : Deaf (afterReceive (P := P) desc) :=
  ⟨nofun, fun _ => ⟨nofun, fun _ => trivial⟩⟩

/-- **The receiver's fourth message is its last word.** -/
theorem lastWord_receiver : (x.party X streamKey .right).LastWord 3 := by
  show ((Call.receiveRelay x.outDir).over X streamKey _ x.topic x.passwordR).LastWord (2 + 1)
  rw [receiveRelay_over]
  refine Sends.lastWord (sends_handshakeOver _ x.topic x.passwordR .receiver).attempt fun r => ?_
  cases r with
  | error e => trivial
  | ok key => exact (lastWord_recvInto X (streamKey key) x.outDir).within.bind_deaf deaf_afterReceive

end waiting

/-! ## What every step keeps -/

section steps

variable {X : Externals} {streamKey : P.SessionKey → Key} {x : Meeting} {key : P.SessionKey} {fs : Fs}
  {t t' : Stack P} {log log₀ : List (Side × OverAction P)} {qs : Side → OverProg P String}

theorem isLeaf_ended (x : Meeting) (p : Side) : IsLeaf (x.ended (P := P) p) := by
  cases p <;> trivial

/-- A run of the calls over the reliable channel is a part of the whole. -/
theorem Meeting.Whole.initial (hw : x.Whole X streamKey key fs log₀)
    (hrun : x.Calls X streamKey False fs log qs) (p : Side) : own p log <+: own p (log₀ ++ farewell) :=
  own_initial hw.ended (isLeaf_ended x) (failsFast_party X streamKey x) hrun p

theorem Meeting.Whole.sent_ended (hw : x.Whole X streamKey key fs log₀) (p : Side) :
    sent (own p (log₀ ++ farewell)) = x.frames X streamKey key fs p := by
  rw [own_farewell, sent_append, hw.frames]
  cases p <;> exact List.append_nil _

theorem Meeting.Whole.got_ended (hw : x.Whole X streamKey key fs log₀) (p : Side) :
    got (own p (log₀ ++ farewell)) = x.frames X streamKey key fs p.peer := by
  rw [own_farewell, got_append, hw.read, hw.frames]
  cases p <;> exact List.append_nil _

/-- What is sent along the way is one of the frames. -/
theorem Meeting.Whole.mem_frames (hw : x.Whole X streamKey key fs log₀)
    (hrun : x.Calls X streamKey False fs log qs) {s : Side} {m : Bytes}
    {k : Except Anyhow Unit → OverProg P String} (hp : qs s = .step (.send m) k) :
    m ∈ x.frames X streamKey key fs s := by
  have hnext := hrun.extend hp (r := .ok ()) trivial
  have hsent := sent_mono (hw.initial hnext s)
  rw [hw.sent_ended, own_snoc_self, sent_append] at hsent
  exact hsent.subset (List.mem_append_right _ (List.mem_singleton_self m))

variable (X streamKey) in
/-- Nothing has gone wrong so far: the programs have run as over a reliable queue, neither has closed its
channel, and all that a channel has returned went to its program. -/
structure Meeting.Smoothly (x : Meeting) (fs : Fs) (t : Stack P) : Prop where
  refines : Refines X (x.party X streamKey) (x.start fs) t
  run : x.Calls X streamKey False fs t.log t.progs
  opened : t.net.Open
  received : ∀ s, (t.net.ends s).received = got (own s t.log)
  staying : ∀ s, (⟨.loc .close, ()⟩ : OverAction P) ∉ own s t.log

theorem smoothly_start : x.Smoothly X streamKey fs (x.stack X streamKey fs) where
  refines := refines_start
  run := ⟨fun _ => .nil _, trivial⟩
  opened := Net.open_init
  received _ := rfl
  staying _ := List.not_mem_nil

/-- One more action of a program. -/
theorem Meeting.Smoothly.did (h : x.Smoothly X streamKey fs t) {s : Side} {o : Comm Bytes (callEffects P)}
    {k : Comm.Res Anyhow o → OverProg P String} {r : Comm.Res Anyhow o} {net : Net} {hosts : Side → End}
    (hp : t.progs s = .step o k)
    (hr : Refines X (x.party X streamKey) (x.start fs) { t.did s ⟨o, r⟩ (k r) net with hosts := hosts })
    (hlost : ¬ Lost (⟨o, r⟩ : OverAction P)) (hclose : o ≠ .loc .close)
    (hopen : net.Open) (hother : ∀ p, p ≠ s → net.ends p = t.net.ends p)
    (hrec : (net.ends s).received = (t.net.ends s).received ++ got [(⟨o, r⟩ : OverAction P)]) :
    x.Smoothly X streamKey fs { t.did s ⟨o, r⟩ (k r) net with hosts := hosts } := by
  -- the frames received and the calls made are those of the log
  refine ⟨hr, h.run.extend hp (Fifo.of_not_lost (hr.run.allowed rfl) hlost), hopen, fun p => ?_, fun p => ?_⟩
  · show (net.ends p).received = got (own p (t.log ++ [(s, ⟨o, r⟩)]))
    by_cases hps : p = s
    · subst hps
      rw [own_snoc_self, got_append, hrec, h.received]
    · rw [own_snoc_of_ne (Ne.symm hps), hother p hps, h.received]
  · show _ ∉ own p (t.log ++ [(s, ⟨o, r⟩)])
    by_cases hps : p = s
    · subst hps
      rw [own_snoc_self]
      intro hm
      rcases List.mem_append.mp hm with hm | hm
      · exact h.staying p hm
      · exact hclose (congrArg Action.op (List.mem_singleton.mp hm)).symm
    · rw [own_snoc_of_ne (Ne.symm hps)]
      exact h.staying p

/-- What an action adds to what there is to do, and the action itself. -/
def toilOf (a : OverAction P) : Nat :=
  match a.op with
  | .send m => Net.frameCost m + 1
  | _ => 1

def toil (tr : List (OverAction P)) : Nat := (tr.map toilOf).sum

/-- What side `s` has not done yet of the run `log₀`. -/
def Stack.due (t : Stack P) (log₀ : List (Side × OverAction P)) (s : Side) : Nat :=
  toil (own s log₀) - toil (own s t.log)

/-- All there is to do. -/
def Stack.toDo (t : Stack P) (log₀ : List (Side × OverAction P)) : Nat :=
  t.net.potential + (t.due log₀ .left + t.due log₀ .right)

theorem Stack.toDo_did {s : Side} {a : OverAction P} {q : OverProg P String} {net : Net} {hosts : Side → End}
    (hpre : own s (t.log ++ [(s, a)]) <+: own s log₀) (hnet : net.potential < t.net.potential + toilOf a) :
    Stack.toDo { t.did s a q net with hosts := hosts } log₀ < t.toDo log₀ := by
  obtain ⟨rest, hrest⟩ := hpre
  rw [own_snoc_self] at hrest
  have hs : toil (own s t.log) + toilOf a ≤ toil (own s log₀) := by
    rw [← hrest]
    simp [toil]
  have hself : toil (own s (t.log ++ [(s, a)])) = toil (own s t.log) + toilOf a := by
    rw [own_snoc_self]
    simp [toil]
  have hpeer : own s.peer (t.log ++ [(s, a)]) = own s.peer t.log :=
    own_snoc_of_ne (by cases s <;> decide) _ _
  simp only [Stack.toDo, Stack.due, Stack.did]
  cases s with
  | left =>
      rw [hself, show own .right (t.log ++ [(.left, a)]) = own .right t.log from hpeer]
      omega
  | right =>
      rw [hself, show own .left (t.log ++ [(.right, a)]) = own .left t.log from hpeer]
      omega

/-- **A step at which nothing goes wrong keeps it so**, and leaves less to do. -/
theorem Meeting.Smoothly.step (hw : x.Whole X streamKey key fs log₀)
    (hfits : ∀ p, ∀ f ∈ x.frames X streamKey key fs p, f.length ≤ MAX_LOGICAL_FRAME)
    (h : x.Smoothly X streamKey fs t) (hs : t.Smooth X t') :
    x.Smoothly X streamKey fs t' ∧ t'.toDo (log₀ ++ farewell) < t.toDo (log₀ ++ farewell) := by
  have hr' := h.refines.step hs.step
  cases hs with
  -- the channel has room for the frame, as it is one of the whole run
  | @send s m k r e net hp hr hs =>
      obtain ⟨rfl, hopen, hle⟩ := h.opened.send (hfits s m (hw.mem_frames h.run hp)) hr
      have happ : (t.net.ends s).appStep (.send m false) = some e := by
        rw [RelayChannel.appStep, if_pos (h.opened.ends s).app, hr, Option.map_some]
      cases hs.symm.trans (Net.step_app happ)
      have hnext := h.did hp hr' id (by simp) hopen (fun p hps => Function.update_of_ne hps _ _) (by
        dsimp only
        rw [Function.update_self, (RelayChannel.history_send hr).1]
        exact (List.append_nil _).symm)
      exact ⟨hnext, Stack.toDo_did (hw.initial hnext.run s) (Nat.lt_succ_of_le hle)⟩
  | @recv s k r e net hp hr hs =>
      obtain ⟨⟨f, rfl⟩, hopen, heq⟩ := h.opened.recv hr
      have happ : (t.net.ends s).appStep .recv = some e := by
        rw [RelayChannel.appStep, if_pos (h.opened.ends s).app, hr, Option.map_some]
      cases hs.symm.trans (Net.step_app happ)
      have hnext := h.did hp hr' id (by simp) hopen (fun p hps => Function.update_of_ne hps _ _) (by
        dsimp only
        rw [Function.update_self]
        rcases (RelayChannel.history_recv hr).2 with ⟨g, hg, hrec⟩ | ⟨⟨err, herr⟩, -⟩
        · cases hg
          exact hrec
        · cases herr)
      exact ⟨hnext, Stack.toDo_did (hw.initial hnext.run s) (Nat.lt_succ_of_le heq.le)⟩
  -- the disk or the terminal, and not the channel
  | @work s o k hp ho =>
      have hclose : (.loc o : Comm Bytes (callEffects P)) ≠ .loc .close := by
        rintro ⟨⟩
        exact ho
      have hnext := h.did hp hr' id hclose h.opened (fun _ _ => rfl) (List.append_nil _).symm
      exact ⟨hnext, Stack.toDo_did (hw.initial hnext.run s) (Nat.lt_succ_self _)⟩
  | @linger s k hp =>
      have hnext : x.Smoothly X streamKey fs (t.did s ⟨.loc .linger, ()⟩ (k ()) t.net) :=
        h.did hp hr' id (by simp) h.opened (fun _ _ => rfl) (List.append_nil _).symm
      have hless : (t.did s ⟨.loc .linger, ()⟩ (k ()) t.net).toDo (log₀ ++ farewell) < _ :=
        Stack.toDo_did (hw.initial hnext.run s) (Nat.lt_succ_self _)
      exact ⟨hnext, hless⟩
  -- a step of a task
  | @io s a net ha hs =>
      obtain ⟨hopen, hlt⟩ := h.opened.move h.refines.net ha hs
      have hsame := Net.history_move (.inr (.inr (ofIoTask_of_smooth ha))) hs
      refine ⟨⟨hr', h.run, hopen, fun p => (hsame p).2.trans (h.received p), h.staying⟩, ?_⟩
      exact Nat.add_lt_add_right hlt _

/-! ## There is always a step -/

/-- A receiver about to close receives nothing any more. -/
theorem hushed_of_close {tr : List (OverAction P)} {k : Unit → OverProg P String}
    (hf : Follows (x.party X streamKey .right) tr (.step (.loc .close) k)) :
    Hushed (.step (.loc .close) k : OverProg P String) := by
  have hf' : Follows ((Call.receiveRelay x.outDir).over X streamKey (x.budgetR + 1) x.topic x.passwordR) tr
    (.step (.loc .close) k) := hf
  rw [receiveRelay_over] at hf'
  obtain ⟨r, tr₁, tr₂, -, -, hf₂⟩ :=
    hf'.past (working_handshakeOver _ x.topic x.passwordR .receiver).attempt id
  cases r with
  | error e => cases hf₂.fail_inv
  | ok key =>
      obtain ⟨desc, tr₃, tr₄, -, -, hf₄⟩ := Follows.past (p := (Stream.recvInto X (streamKey key)
        x.outDir).within (hosted (streamKey key))) hf₂ (working_within _ _) id
      exact (deaf_afterReceive desc).follows hf₄

/-- **Who receives nothing any more has read everything.** -/
theorem Meeting.Smoothly.empty_of_hushed (hw : x.Whole X streamKey key fs log₀)
    (h : x.Smoothly X streamKey fs t) {s : Side} (hh : Hushed (t.progs s)) :
    (t.net.ends s).inQueue = [] := by
  obtain ⟨rest, hrest⟩ := hw.initial h.run s
  obtain ⟨q, hq, htail⟩ := (hrest ▸ hw.ended.follows s).split
  have hgot : got (own s t.log) = x.frames X streamKey key fs s.peer := by
    rw [← hw.got_ended, ← hrest, got_append, Deaf.got_eq (hq.functional (h.run.follows s) ▸ hh) htail,
      List.append_nil]
  have hacc : (t.net.ends s.peer).accepted <+: x.frames X streamKey key fs s.peer := by
    rw [h.refines.accepted, ← hw.sent_ended]
    exact sent_mono (hw.initial h.run s.peer)
  have hpre := h.refines.net.queued h.opened s.peer
  rw [show s.peer.peer = s by cases s <;> rfl, h.received, hgot] at hpre
  have hlen := (hpre.trans hacc).length_le
  rw [List.length_append] at hlen
  exact List.eq_nil_of_length_eq_zero (by omega)

theorem exists_smooth_recv (ho : t.net.Open) {s : Side} {k : Except Anyhow Bytes → OverProg P String}
    (hp : t.progs s = .step .recv k) (hq : (t.net.ends s).inQueue ≠ []) : ∃ t', t.Smooth X t' := by
  obtain ⟨f, rest, hcons⟩ := List.exists_cons_of_ne_nil hq
  obtain ⟨e, hrecv⟩ : ∃ e, (t.net.ends s).recv = some (.ok f, e) := by
    rw [RelayChannel.recv, hcons]
    exact ⟨_, rfl⟩
  have happ : (t.net.ends s).appStep .recv = some e := by
    rw [RelayChannel.appStep, if_pos (ho.ends s).app, hrecv, Option.map_some]
  exact ⟨_, .recv hp hrecv (Net.step_app happ)⟩

theorem exists_smooth_loc {s : Side} {o : CallOp P} {k : o.Res → OverProg P String}
    (hp : t.progs s = .step (.loc o) k) : o = .close ∨ ∃ t', t.Smooth X t' := by
  cases o with
  | close => exact .inl rfl
  | linger => exact .inr ⟨_, .linger hp⟩
  | start _ _ => exact .inr ⟨_, .work hp trivial⟩
  | confirm _ _ => exact .inr ⟨_, .work hp trivial⟩
  | host _ _ => exact .inr ⟨_, .work hp trivial⟩

/-- The queue to the sender cannot be full: the receiver has four messages for it. -/
theorem Meeting.Smoothly.left_room (hw : x.Whole X streamKey key fs log₀) (h : x.Smoothly X streamKey fs t) :
    (t.net.ends .left).inQueue.length < IN_CAPACITY := by
  have hacc : (t.net.ends .right).accepted <+: x.frames X streamKey key fs .right := by
    rw [h.refines.accepted, ← hw.sent_ended]
    exact sent_mono (hw.initial h.run .right)
  have hlen := ((h.refines.net.queued h.opened .right).trans hacc).length_le
  rw [List.length_append] at hlen
  calc (t.net.ends .left).inQueue.length ≤ 4 := (Nat.le_add_left _ _).trans hlen
    _ < IN_CAPACITY := by decide

/-- **The queue to the receiver is not full where it blocks.** When the receiver is about to send one of its
first three messages, the sender has not sent more than three; and its fourth follows all there is to read. -/
theorem Meeting.Smoothly.right_room (hw : x.Whole X streamKey key fs log₀)
    (hkind : (streamManifest x.source).kind ≠ .text) (h : x.Smoothly X streamKey fs t)
    (hno : ∀ t', ¬ t.Smooth X t') : (t.net.ends .right).inQueue.length < IN_CAPACITY := by
  -- a program that reads no more has read all
  have hthrough : Hushed (t.progs .right) → (t.net.ends .right).inQueue.length < IN_CAPACITY := by
    intro hh
    rw [h.empty_of_hushed hw hh]
    decide
  cases hp : t.progs .right with
  | ret d => exact hthrough (hp ▸ trivial)
  | fail e => exact hthrough (hp ▸ trivial)
  | step o k =>
      cases o with
      | recv =>
          -- a program that reads could read now
          by_contra hfull
          have hne : (t.net.ends .right).inQueue ≠ [] := by
            intro hnil
            rw [hnil] at hfull
            exact hfull (by decide)
          obtain ⟨t', hs⟩ := exists_smooth_recv h.opened hp hne
          exact hno t' hs
      | loc o =>
          rcases exists_smooth_loc hp with rfl | ⟨t', hs⟩
          · exact hthrough (hp ▸ hushed_of_close (hp ▸ h.run.follows .right))
          · exact absurd hs (hno t')
      | send m =>
          -- the sender waits for the reply, and has sent no more than three frames
          by_cases hfew : (sent (own .right t.log)).length ≤ 2
          · have hgot : (got (own .left t.log)).length ≤ 2 := (Run.got_initial h.run .left).length_le.trans hfew
            have hsent := (ahead_sender X streamKey x hkind).sent_le (h.run.follows .left) hgot
            have hlen := (h.refines.net.queued h.opened .left).length_le
            rw [h.refines.accepted, List.length_append] at hlen
            calc (t.net.ends .right).inQueue.length ≤ 3 := (Nat.le_add_left _ _).trans (hlen.trans hsent)
              _ < IN_CAPACITY := by decide
          · have hlast := (lastWord_receiver X streamKey x).follows (h.run.follows .right)
            rw [hp] at hlast
            exact hthrough (hp ▸ ⟨nofun, hlast.1 (by omega)⟩)

/-- What the two have done when they are about to close. -/
theorem Meeting.Smoothly.own_eq (hw : x.Whole X streamKey key fs log₀) (h : x.Smoothly X streamKey fs t)
    {b c : List (Side × OverAction P)} {i : Side} (hsplit : log₀ ++ farewell = b ++ (i, ⟨.loc .close, ()⟩) :: c)
    (hb : ∀ p, own p b <+: own p t.log) (p : Side) :
    own p t.log = own p (log₀ ++ [(.right, ⟨.loc .linger, ()⟩)]) := by
  -- nobody closes before the receiver has lingered
  have hpast : log₀ ++ [(.right, ⟨.loc .linger, ()⟩)] <+: b := by
    rcases List.append_eq_append_iff.mp hsplit with ⟨l, rfl, hl⟩ | ⟨l, rfl, hl⟩
    · cases l with
      | nil => cases hl
      | cons y l =>
          obtain ⟨rfl, -⟩ := List.cons.inj hl
          exact ⟨l, by rw [List.append_assoc]; rfl⟩
    · cases l with
      | nil => cases hl
      | cons y l =>
          obtain ⟨rfl, -⟩ := List.cons.inj hl
          exact absurd (mem_own.mpr (List.mem_append_right _ List.mem_cons_self)) (hw.staying i)
  have hge : own p (log₀ ++ [(.right, ⟨.loc .linger, ()⟩)]) <+: own p t.log := by
    refine List.IsPrefix.trans ?_ (hb p)
    obtain ⟨l, rfl⟩ := hpast
    rw [own_append p _ l]
    exact List.prefix_append _ _
  -- and all that is left after it is the close
  have hend : own p (log₀ ++ farewell) =
      own p (log₀ ++ [(.right, ⟨.loc .linger, ()⟩)]) ++ [⟨.loc .close, ()⟩] := by
    rw [own_append, own_append, List.append_assoc]
    cases p <;> rfl
  rcases List.prefix_concat_iff.mp (hend ▸ hw.initial h.run p) with heq | hle
  · exact absurd (by rw [heq]; simp) (h.staying p)
  · exact hle.eq_of_length_le hge.length_le

/-- **While the two are not about to close, there is a step.** -/
theorem Meeting.Smoothly.moves (hw : x.Whole X streamKey key fs log₀)
    (hfits : ∀ p, ∀ f ∈ x.frames X streamKey key fs p, f.length ≤ MAX_LOGICAL_FRAME)
    (hkind : (streamManifest x.source).kind ≠ .text) (h : x.Smoothly X streamKey fs t) :
    (∃ t', t.Smooth X t') ∨ ∀ p, own p t.log = own p (log₀ ++ [(.right, ⟨.loc .linger, ()⟩)]) := by
  by_cases hno : ∃ t', t.Smooth X t'
  · exact .inl hno
  rw [not_exists] at hno
  -- nothing can be done, so both tasks rest
  have hrest : ∀ s, t.net.Rests s := by
    intro s
    rcases RelayChannel.rests_or_moves (h.opened.ends s) (t.net.wire s) with
      ⟨a, r, ha, hio⟩ | hfull | ⟨hphase, hpending, hq, hwire⟩
    · obtain ⟨net, hs⟩ := h.opened.step_io ha hio
      exact absurd (.io ha hs) (hno _)
    · cases s with
      | left => exact absurd (h.left_room hw) (Nat.not_lt.mpr hfull)
      | right => exact absurd (h.right_room hw hkind hno) (Nat.not_lt.mpr hfull)
    · exact ⟨hphase, hpending, hq, hwire⟩
  rcases exists_next hw.ended (isLeaf_ended x) (failsFast_party X streamKey x) h.run (b := []) rfl
    (fun p => List.nil_prefix) with hall | ⟨b, i, ⟨o, r⟩, c, hsplit, hb, hown⟩
  · refine absurd ?_ (h.staying .left)
    rw [hall, own_farewell]
    exact List.mem_append_right _ (List.mem_singleton_self _)
  -- the next action of the whole run is the next of this program too
  obtain ⟨k, hp⟩ := hw.ended.next_op hsplit h.run hown
  have hR := hw.ended.allowed hsplit
  cases o with
  | send m =>
      obtain ⟨e, hsend⟩ := h.opened.send_ok h.refines.net hrest i (hfits i m (hw.mem_frames h.run hp))
      have happ : (t.net.ends i).appStep (.send m false) = some e := by
        rw [RelayChannel.appStep, if_pos (h.opened.ends i).app, hsend, Option.map_some]
      exact absurd (.send hp hsend (Net.step_app happ)) (hno _)
  | recv =>
      -- the message is there: both tasks rest, so it is in the queue
      have hmore : (got (own i t.log)).length < (sent (own i.peer t.log)).length := by
        cases r with
        | error e => exact hR.elim
        | ok m =>
            have hm : (sent (own i.peer b))[(got (own i b)).length]? = some m := hR
            rw [hown] at hm
            have hm' := getElem?_of_prefix (sent_mono (hb i.peer)) hm
            exact (List.getElem?_eq_some_iff.mp hm').1
      have hall := h.opened.queued_all h.refines.net hrest i.peer
      rw [show i.peer.peer = i by cases i <;> rfl, h.received, h.refines.accepted] at hall
      have hne : (t.net.ends i).inQueue ≠ [] := by
        intro hnil
        rw [hnil, List.append_nil] at hall
        rw [hall] at hmore
        exact Nat.lt_irrefl _ hmore
      obtain ⟨t', hs⟩ := exists_smooth_recv h.opened hp hne
      exact absurd hs (hno t')
  | loc o =>
      rcases exists_smooth_loc hp with rfl | ⟨t', hs⟩
      · exact .inr (h.own_eq hw hsplit hb)
      · exact absurd hs (hno t')

/-! ## The end -/

/-- Both are about to close their channels. -/
def Meeting.closing (x : Meeting) : Side → OverProg P String :=
  pick (β := fun _ => OverProg P String) (afterSend "transfer complete") (afterSend x.saved)

/-- Who still has its channel can close it. -/
theorem exists_close {s : Side} {k : Unit → OverProg P String} (happ : (t.net.ends s).app = .live)
    (hp : t.progs s = .step (.loc .close) k) :
    ∃ t', t.Step X t' ∧ t'.progs = Function.update t.progs s (k ()) ∧
      ∀ p, p ≠ s → t'.net.ends p = t.net.ends p := by
  obtain ⟨e, hclose⟩ : ∃ e, (t.net.ends s).appStep .close = some e := by
    rw [RelayChannel.appStep, if_pos happ]
    exact ⟨_, rfl⟩
  exact ⟨_, .close hp (Net.step_app hclose), rfl, fun p hps => Function.update_of_ne hps _ _⟩

/-- Where they are about to close, all has been done. -/
theorem Meeting.Smoothly.closing (hw : x.Whole X streamKey key fs log₀) (h : x.Smoothly X streamKey fs t)
    (hown : ∀ p, own p t.log = own p (log₀ ++ [(.right, ⟨.loc .linger, ()⟩)])) :
    t.progs = x.closing ∧ x.Placed (t.hosts .right).host.disk ∧
      (∀ s, (t.net.ends s).received = x.frames X streamKey key fs s.peer) ∧
      ∃ t', Relation.ReflTransGen (Stack.Step X) t t' ∧ t'.progs = x.ended := by
  -- both are as far as the whole run with its last action before the closes
  have hlinger := hw.run.extend (i := .right) (o := .loc .linger) rfl (r := ()) rfl
  have hprogs : t.progs = x.closing := by
    funext p
    rw [(h.run.follows p).functional (hown p ▸ hlinger.follows p)]
    cases p <;> rfl
  refine ⟨hprogs, ?_, fun s => ?_, ?_⟩
  · have hdisk : (t.hosts .right).host.disk = x.diskAfter X fs log₀ := by
      rw [h.refines.hosts, hown, own_snoc_self, after_append]
      rfl
    rw [hdisk]
    exact hw.placed
  · rw [h.received, hown, own_append, got_append, hw.read, hw.frames]
    cases s <;> exact List.append_nil _
  -- one closes, then the other
  · obtain ⟨t₁, hs₁, hp₁, hother⟩ := exists_close (X := X) (s := .left) (h.opened.ends .left).app
      (congrFun hprogs .left)
    obtain ⟨t₂, hs₂, hp₂, -⟩ := exists_close (X := X) (t := t₁) (s := .right)
      (k := fun _ => .ret x.saved) (by
        rw [hother .right nofun]
        exact (h.opened.ends .right).app) (by
        rw [hp₁, hprogs]
        rfl)
    refine ⟨t₂, .tail (.single hs₁) hs₂, ?_⟩
    rw [hp₂, hp₁, hprogs]
    funext p
    cases p <;> rfl

theorem Meeting.Smoothly.reaches (hw : x.Whole X streamKey key fs log₀)
    (hfits : ∀ p, ∀ f ∈ x.frames X streamKey key fs p, f.length ≤ MAX_LOGICAL_FRAME)
    (ht : Relation.ReflTransGen (Stack.Smooth X) (x.stack X streamKey fs) t) :
    x.Smoothly X streamKey fs t := by
  induction ht with
  | refl => exact smoothly_start
  | tail _ hs ih => exact (ih.step hw hfits hs).1

theorem Meeting.Whole.bounded (hw : x.Whole X streamKey key fs log₀)
    (hfits : ∀ p, ∀ f ∈ x.frames X streamKey key fs p, f.length ≤ MAX_LOGICAL_FRAME) :
    ∃ n, ∀ ts, List.IsChain (Stack.Smooth X) (x.stack X streamKey fs :: ts) → ts.length ≤ n :=
  ⟨_, fun _ hts => Machines.length_le_of_lowers (fun _ _ h hs => h.step hw hfits hs) smoothly_start hts⟩

/-- Where nothing is in their way, both can return. -/
theorem Meeting.Whole.exists_end (hw : x.Whole X streamKey key fs log₀)
    (hfits : ∀ p, ∀ f ∈ x.frames X streamKey key fs p, f.length ≤ MAX_LOGICAL_FRAME)
    (hkind : (streamManifest x.source).kind ≠ .text) : ∃ t, x.Reaches X streamKey fs t ∧ t.progs = x.ended := by
  obtain ⟨n, hn⟩ := hw.bounded hfits
  obtain ⟨t, ht, hrest⟩ := Machines.exists_rest hn
  have h := Meeting.Smoothly.reaches hw hfits ht
  have hown := (h.moves hw hfits hkind).resolve_left fun ⟨t', hs⟩ => hrest t' hs
  obtain ⟨-, -, -, t', hclosed, hended⟩ := h.closing hw hown
  exact ⟨t', (ht.lift id fun _ _ hs => hs.step).trans hclosed, hended⟩

/-- **Two calls over the relay channel come through.** They have one password, the receiver's disk is as any
number of earlier attempts have left it, nothing is in the file's way, and no frame is larger than `send`
allows. As long as nothing fails and nobody leaves, then in whatever order the programs and the tasks of the
two channels take their steps: there are only so many; and either there is another one, or both programs are
about to close their channels, with every frame received, the file in place and nothing staged, and may both
return `Ok`. So neither the window, nor the bounded queues, nor the two waiting for each other stop them. -/
theorem stack_completes {keyS keyR : P.SessionKey} {name transferId : String} {entries : List Entry}
    {fs₀ : Fs} (hsource : x.source = Stream.fileSource name entries x.content transferId) (hwf : fs₀.Wf)
    (hclear : fs₀.Clear (Stream.safeName name))
    (hnone : fs₀.dirs (stagingDir (Stream.safeName name)) = false)
    (hattempts : Relation.ReflTransGen (StackAttempt X streamKey x) fs₀ fs) (hx : x.Exchanged P keyS keyR)
    (hpw : x.passwordS = x.passwordR)
    (hfits : ∀ p, ∀ f ∈ x.frames X streamKey keyS fs p, f.length ≤ MAX_LOGICAL_FRAME) :
    (∃ n, ∀ ts, List.IsChain (Stack.Smooth X) (x.stack X streamKey fs :: ts) → ts.length ≤ n) ∧
      ∀ t, Relation.ReflTransGen (Stack.Smooth X) (x.stack X streamKey fs) t →
        (∃ t', t.Smooth X t') ∨
          (t.progs = x.closing ∧ x.Placed (t.hosts .right).host.disk ∧
            (∀ s, (t.net.ends s).received = x.frames X streamKey keyS fs s.peer) ∧
            ∃ t', Relation.ReflTransGen (Stack.Step X) t t' ∧ t'.progs = x.ended) := by
  have hstays := stays_callAttempts hsource hwf hnone
    (hattempts.lift id fun _ _ h => StackAttempt.call h)
  have hclear' : fs.Clear (Stream.safeName name) := by
    have hkept := hstays.clear
    rw [hsource] at hkept
    exact hkept hclear
  obtain ⟨log₀, hw⟩ :=
    Meeting.exists_whole X streamKey hx hpw hsource hstays.ready hclear'.makes hclear'.dest
  have hkind : (streamManifest x.source).kind ≠ .text := by
    rw [hsource]
    exact Kind.file_ne_text
  refine ⟨hw.bounded hfits, fun t ht => ?_⟩
  have h := Meeting.Smoothly.reaches hw hfits ht
  rcases h.moves hw hfits hkind with hmore | hown
  · exact .inl hmore
  · exact .inr (h.closing hw hown)

end steps

/-! ## Such a meeting -/

/-- A library whose key is the password, and whose tags spell the key and the text. -/
def plainLib : PakeLib where
  SessionKey := Bytes
  finish pw _ _ _ := .ok pw
  keyedHash key text := key ++ text

/-- Libraries with short frames for the call of `threeBytes`. -/
def briefly : Externals :=
  { Externals.ideal fun _ => "" with
    manifestJson := .brief (streamManifest (threeBytes [1]).source) (.unary _)
    streamAckJson := .brief ⟨true, false, []⟩ (.unary _)
    commitJson := .brief ⟨""⟩ (.unary _)
    commitAckJson := .brief ⟨true, none⟩ (.unary _) }

theorem exchanged_plainLib : (threeBytes [1]).Exchanged plainLib [1] [1] :=
  ⟨rfl, rfl, fun _ => rfl, fun h => absurd rfl h⟩

theorem fits_threeBytes (p : Side) : ∀ f ∈ (threeBytes [1]).frames briefly
    (fun _ : plainLib.SessionKey => []) [1] Fs.blank p, f.length ≤ MAX_LOGICAL_FRAME := by
  cases p <;> decide

/-- So its calls run to the end. -/
theorem stack_completes_threeBytes : ∃ t, Relation.ReflTransGen (Stack.Smooth briefly)
    ((threeBytes [1]).stack briefly (fun _ : plainLib.SessionKey => []) Fs.blank) t ∧
      t.progs = (threeBytes [1]).closing ∧ (threeBytes [1]).Placed (t.hosts .right).host.disk := by
  obtain ⟨⟨n, hn⟩, hmoves⟩ := stack_completes (x := threeBytes [1]) rfl Fs.blank_wf
    (Fs.blank_clear _) rfl .refl
    exchanged_plainLib rfl fits_threeBytes
  obtain ⟨t, ht, hrest⟩ := Machines.exists_rest hn
  obtain ⟨hprogs, hplaced, -⟩ := (hmoves t ht).resolve_left fun ⟨t', hs⟩ => hrest t' hs
  exact ⟨t, ht, hprogs, hplaced⟩

/-- And both return `Ok`. -/
theorem stack_refines_threeBytes : ∃ t, (threeBytes [1]).Reaches briefly
    (fun _ : plainLib.SessionKey => []) Fs.blank t ∧ t.progs .left = .ret "transfer complete" ∧
      (threeBytes [1]).Placed (t.hosts .right).host.disk ∧
      (threeBytes [1]).Calls briefly (fun _ : plainLib.SessionKey => []) True Fs.blank t.log t.progs := by
  have hready :
      Stream.Ready briefly (streamManifest (threeBytes [1]).source) (threeBytes [1]).content Fs.blank :=
    .of_none Fs.blank_wf rfl
  have hclear := Fs.blank_clear (Stream.safeName "a")
  obtain ⟨log₀, hw⟩ :=
    Meeting.exists_whole briefly (fun _ : plainLib.SessionKey => []) exchanged_plainLib rfl rfl
      hready hclear.makes hclear.dest
  obtain ⟨t, ht, hended⟩ := hw.exists_end fits_threeBytes Kind.file_ne_text
  obtain ⟨hcalls, hplaced, -⟩ := stack_refines rfl Fs.blank_wf rfl .refl exchanged_plainLib ht
  have hret : t.progs .left = .ret "transfer complete" := congrFun hended .left
  exact ⟨t, ht, hret, (hplaced .left _ hret).2, hcalls⟩

end Session
end B2p
