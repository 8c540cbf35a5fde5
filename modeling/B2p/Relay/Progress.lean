import B2p.Relay.Window

/-!
# A paired session in which nothing goes wrong

As long as neither application leaves and no socket operation fails, the two `io_task`s only move what there
is to move. What they do then is ten plain rules, each of which brings something nearer to where it is going;
so they come to rest, and they rest only where nothing is left to move, or where a consumer does not read.

* `IoMove` — the rules; `ioMove_of_smooth` — a step at which nothing goes wrong is one of them.
* `Net.potential_move` — each of them lowers the potential.
* `RelayChannel.rests_or_moves` — where none of them applies.
-/

namespace B2p

open Interaction Framing

/-! ## The rules -/

/-- A step of `io_task` at which nothing fails. A ping that is answered changes nothing and is left out. -/
def RelayChannel.Act.Smooth : RelayChannel.Act → Prop
  | .flush (.ok _) => True
  | .take => True
  | .tryRecv => True
  | .next => True
  | .count => True
  | .offer => True
  | .ack ok => ok = true
  | _ => False

/-- The application has its channel, and the task is not about to end. -/
structure RelayChannel.Open (e : RelayChannel) : Prop where
  app : e.app = .live
  dead : e.dead = none
  closing : e.closing = false
  queue : .close ∉ e.outQueue

/-- A message of the other side's task. -/
def WsMessage.OfPeer : WsMessage → Prop
  | .binary _ => True
  | .text (.ack _) => True
  | _ => False

/-- `IoMove e inc e' inc' out`: with the messages `inc` on the way to it the task goes from `e` to `e'`,
leaves `inc'`, and puts `out` on the way. -/
inductive IoMove (e : RelayChannel) :
    List WsMessage → RelayChannel → List WsMessage → List WsMessage → Prop where
  | flush (inc) {payload : Bytes} {rest : List Bytes} (hpack : packFrames e.pending = (some payload, rest)) :
      IoMove e inc { e with pending := rest } inc [.binary payload]
  | take (inc) {f : Bytes} {rest : List OutMsg} (hphase : e.phase = .top)
      (hq : e.outQueue = .frame f :: rest) :
      IoMove e inc { e with outQueue := rest, pending := e.pending ++ [f], phase := .draining } inc []
  | tryRecv (inc) {f : Bytes} {rest : List OutMsg} (hphase : e.phase = .draining)
      (hq : e.outQueue = .frame f :: rest) :
      IoMove e inc { e with outQueue := rest, pending := e.pending ++ [f] } inc []
  | drained (inc) (hphase : e.phase = .draining) : IoMove e inc { e with phase := .top } inc []
  | payload (inc) {b : Bytes} {frames : List Bytes} {d : Debatcher} (hphase : e.phase = .top) :
      IoMove e (.binary b :: inc) { e with debatch := d, phase := .delivering frames } inc []
  | acked (inc) (n : Nat) : IoMove e (.text (.ack n) :: inc) { e with acked := n } inc []
  | count (inc) {f : Bytes} {rest : List Bytes} (hphase : e.phase = .delivering (f :: rest)) :
      IoMove e inc { e with
        consumed := e.consumed + f.length
        phase := .offering f rest
        taken := e.taken ++ [f] } inc []
  | offer (inc) {f : Bytes} {rest : List Bytes} (hphase : e.phase = .offering f rest) :
      IoMove e inc { e with inQueue := e.inQueue ++ [f], phase := .delivering rest } inc []
  | ack (inc) (hphase : e.phase = .delivering []) :
      IoMove e inc { e with ackedOut := e.consumed, phase := .top } inc [.text (.ack e.consumed)]
  | noAck (inc) (hphase : e.phase = .delivering []) : IoMove e inc { e with phase := .top } inc []

namespace RelayChannel

variable {e e' : RelayChannel} {inc inc' out : List WsMessage} {a : Act}

/-- **A step at which nothing goes wrong follows the rules.** -/
theorem ioMove_of_smooth (ho : e.Open) (hwire : ∀ m ∈ inc, m.OfPeer)
    (hpush : ∀ b rest, payloads inc = b :: rest → ∃ frames d, e.debatch.push b = (.ok frames, d))
    (ha : a.Smooth) (hs : e.ioStep inc a = some (e', inc', out)) : IoMove e inc e' inc' out := by
  cases a with
  | flush res =>
      obtain ⟨⟨e₁, out₁⟩, hf, heq⟩ := Option.map_eq_some_iff.mp hs
      cases heq
      rw [flush] at hf
      split at hf
      · next payload rest _ hpack =>
          cases res with
          | ok u =>
              cases hf
              exact .flush _ hpack
          -- a write that fails is no smooth action
          | error err => exact ha.elim
      · cases hf
  | take =>
      obtain ⟨e₁, hf, heq⟩ := Option.map_eq_some_iff.mp hs
      cases heq
      obtain ⟨hsel, hf⟩ := Option.ite_none_right_eq_some.mp hf
      split at hf
      · next f rest hq =>
          cases hf
          exact .take _ hsel.1 hq
      -- an open endpoint has no close in its queue
      · next rest hq => exact absurd (hq ▸ List.mem_cons_self) ho.queue
      · obtain ⟨happ, -⟩ := Option.ite_none_right_eq_some.mp hf
        exact absurd (ho.app.symm.trans happ) (by decide)
  | tryRecv =>
      obtain ⟨e₁, hf, heq⟩ := Option.map_eq_some_iff.mp hs
      cases heq
      obtain ⟨hphase, hf⟩ := Option.ite_none_right_eq_some.mp hf
      split at hf
      · next f rest hq =>
          cases hf
          exact .tryRecv _ hphase hq
      · next rest hq => exact absurd (hq ▸ List.mem_cons_self) ho.queue
      · cases hf
        exact .drained _ hphase
  | next =>
      obtain ⟨⟨e₁, rest₁⟩, hf, heq⟩ := Option.map_eq_some_iff.mp hs
      cases heq
      unfold next at hf
      split at hf
      · cases hf
      · next m rest =>
          obtain ⟨hsel, hf⟩ := Option.ite_none_right_eq_some.mp hf
          cases hf
          cases m with
          | binary b =>
              -- the `Debatcher` takes what its peer has packed
              obtain ⟨frames, d, hok⟩ := hpush b _ rfl
              rw [handle, hok]
              exact .payload _ hsel.1
          | text c =>
              cases c with
              | ack n => exact .acked _ n
              | _ => exact (hwire _ List.mem_cons_self).elim
          | close => exact (hwire _ List.mem_cons_self).elim
  | count =>
      obtain ⟨e₁, hf, heq⟩ := Option.map_eq_some_iff.mp hs
      cases heq
      rw [count] at hf
      split at hf
      · next f rest hphase =>
          cases hf
          exact .count _ hphase
      · cases hf
  | offer =>
      obtain ⟨e₁, hf, heq⟩ := Option.map_eq_some_iff.mp hs
      cases heq
      rw [offer] at hf
      split at hf
      · next f rest hphase =>
          split at hf
          -- the program is still there to take the frame
          · next happ => exact absurd (ho.app.symm.trans happ) (by decide)
          · obtain ⟨-, hf⟩ := Option.ite_none_right_eq_some.mp hf
            cases hf
            exact .offer _ hphase
      · cases hf
  | ack ok =>
      obtain ⟨⟨e₁, out₁⟩, hf, heq⟩ := Option.map_eq_some_iff.mp hs
      cases heq
      obtain rfl : ok = true := ha
      obtain ⟨hphase, hf⟩ := Option.ite_none_right_eq_some.mp hf
      split at hf
      · cases hf
        exact .ack _ hphase
      · cases hf
        exact .noAck _ hphase
  | _ => exact ha.elim

/-- **Where the task rests**: with a frame that finds no room, or with nothing to do. -/
theorem rests_or_moves (ho : e.Open) (inc : List WsMessage) :
    (∃ a r, a.Smooth ∧ e.ioStep inc a = some r) ∨ IN_CAPACITY ≤ e.inQueue.length ∨
      (e.phase = .top ∧ e.pending = [] ∧ e.outQueue = [] ∧ inc = []) := by
  have hlive : e.app ≠ .dropped := by
    rw [ho.app]
    decide
  cases hphase : e.phase with
  | draining =>
      refine .inl ⟨.tryRecv, ?_⟩
      simp only [ioStep, tryRecv, if_pos hphase]
      split <;> exact ⟨_, trivial, rfl⟩
  | delivering frames =>
      cases frames with
      | nil =>
          refine .inl ⟨.ack true, ?_⟩
          simp only [ioStep, ack, if_pos hphase, if_true]
          split <;> exact ⟨_, rfl, rfl⟩
      | cons f rest =>
          refine .inl ⟨.count, ?_⟩
          simp only [ioStep, count, hphase]
          exact ⟨_, trivial, rfl⟩
  -- the only wait inside the loop: for room in the bounded queue
  | offering f rest =>
      by_cases hroom : e.inQueue.length < IN_CAPACITY
      · refine .inl ⟨.offer, ?_⟩
        simp only [ioStep, offer, hphase, if_neg hlive, if_pos hroom]
        exact ⟨_, trivial, rfl⟩
      · exact .inr (.inl (Nat.le_of_not_lt hroom))
  | top =>
      -- at the top: flush first, then whatever `select!` finds
      rcases packFrames_cut e.pending with ⟨hpending, hpack⟩ | ⟨ps, rest, -, hpack, -⟩
      swap
      · refine .inl ⟨.flush (.ok ()), ?_⟩
        simp only [ioStep, flush, hphase, hpack]
        exact ⟨_, trivial, rfl⟩
      have hsel : e.Selecting := ⟨hphase, by rw [hpack], ho.closing⟩
      cases hq : e.outQueue with
      | cons m rest =>
          cases m with
          | frame f =>
              refine .inl ⟨.take, ?_⟩
              simp only [ioStep, take, if_pos hsel, hq]
              exact ⟨_, trivial, rfl⟩
          | close => exact absurd (hq ▸ List.mem_cons_self) ho.queue
      | nil =>
          cases inc with
          | cons m rest =>
              refine .inl ⟨.next, ?_⟩
              simp only [ioStep, next, if_pos hsel]
              exact ⟨_, trivial, rfl⟩
          -- nothing anywhere
          | nil => exact .inr (.inr ⟨rfl, hpending, rfl, rfl⟩)

/-! ## The potential -/

/-- How far a message of the application is from the socket, in steps. -/
def queueCost (q : List OutMsg) : Nat := (q.map fun
  | .frame f => 5 * (f.length + 1) + 2
  | .close => 0).sum

/-- How far a message on the way is from being dealt with. -/
def wireCost (w : List WsMessage) : Nat := (w.map fun
  | .binary _ => 4
  | _ => 1).sum

def phaseCost : IoPhase → Nat
  | .top => 0
  | .draining => 1
  | .delivering _ => 2
  | .offering _ _ => 3

/-- What the task has before it, apart from frames it has not taken. -/
def cost (e : RelayChannel) : Nat := queueCost e.outQueue + 5 * weight e.pending + phaseCost e.phase

theorem wireCost_append (w w' : List WsMessage) : wireCost (w ++ w') = wireCost w + wireCost w' := by
  simp [wireCost]

theorem weight_snoc (q : List Bytes) (f : Bytes) : weight (q ++ [f]) = weight q + (f.length + 1) := by
  simp [weight]

/-- **Each rule brings something nearer**: the task, the messages to it and from it, and the frames that the
other side had accepted and it has not taken. -/
theorem cost_ioMove {accepted : Nat} (h : IoMove e inc e' inc' out) (htaken : e'.taken.length ≤ accepted) :
    e'.cost + wireCost inc' + wireCost out + 2 * (accepted - e'.taken.length) <
      e.cost + wireCost inc + 2 * (accepted - e.taken.length) := by
  cases h with
  | @flush _ payload rest hpack =>
      -- a message less to cut, and one more on the wire
      have hless : weight rest < weight e.pending := by
        rcases packFrames_cut e.pending with ⟨-, hnone⟩ | ⟨ps, rest, -, hsome, -, -, -, -, hless⟩
        · cases hnone.symm.trans hpack
        · cases hsome.symm.trans hpack
          exact hless
      simp only [cost, wireCost, List.map_cons, List.map_nil, List.sum_cons, List.sum_nil]
      omega
  | take _ hphase hq =>
      simp only [cost, hq, hphase, weight_snoc, queueCost, phaseCost, wireCost, List.map_cons, List.map_nil,
        List.sum_cons, List.sum_nil]
      omega
  | tryRecv _ hphase hq =>
      simp only [cost, hq, weight_snoc, queueCost, wireCost, List.map_cons, List.map_nil,
        List.sum_cons, List.sum_nil]
      omega
  | drained _ hphase =>
      simp only [cost, hphase, phaseCost, wireCost, List.map_nil, List.sum_nil]
      omega
  -- its frames still have to be counted, but it is off the wire
  | payload _ hphase =>
      simp only [cost, hphase, phaseCost, wireCost, List.map_cons, List.map_nil, List.sum_cons, List.sum_nil]
      omega
  | acked _ n =>
      simp only [cost, wireCost, List.map_cons, List.map_nil, List.sum_cons, List.sum_nil]
      omega
  -- one less is left of what the peer has accepted
  | count _ hphase =>
      simp only [cost, hphase, phaseCost, wireCost, List.map_nil, List.sum_nil, List.length_append,
        List.length_singleton] at htaken ⊢
      omega
  | offer _ hphase =>
      simp only [cost, hphase, phaseCost, wireCost, List.map_nil, List.sum_nil]
      omega
  | ack _ hphase =>
      simp only [cost, hphase, phaseCost, wireCost, List.map_cons, List.map_nil, List.sum_cons, List.sum_nil]
      omega
  | noAck _ hphase =>
      simp only [cost, hphase, phaseCost, wireCost, List.map_nil, List.sum_nil]
      omega

theorem accepted_ioMove (h : IoMove e inc e' inc' out) : e'.accepted = e.accepted := by
  cases h <;> rfl

/-- The rules keep an endpoint open, and put messages of a task on the way. -/
theorem Open.ioMove (ho : e.Open) (h : IoMove e inc e' inc' out) :
    e'.Open ∧ (∀ m ∈ out, m.OfPeer) ∧ inc' ⊆ inc := by
  obtain ⟨happ, hdead, hclosing, hqueue⟩ := ho
  have hrest : ∀ {m : OutMsg} {rest : List OutMsg}, e.outQueue = m :: rest → .close ∉ rest :=
    fun hq hmem => hqueue (hq ▸ List.mem_cons_of_mem _ hmem)
  cases h with
  | take _ _ hq => exact ⟨⟨happ, hdead, hclosing, hrest hq⟩, by simp, List.Subset.refl _⟩
  | tryRecv _ _ hq => exact ⟨⟨happ, hdead, hclosing, hrest hq⟩, by simp, List.Subset.refl _⟩
  | payload _ _ => exact ⟨⟨happ, hdead, hclosing, hqueue⟩, by simp, List.subset_cons_self _ _⟩
  | acked _ _ => exact ⟨⟨happ, hdead, hclosing, hqueue⟩, by simp, List.subset_cons_self _ _⟩
  | flush _ _ => exact ⟨⟨happ, hdead, hclosing, hqueue⟩, by simp [WsMessage.OfPeer], List.Subset.refl _⟩
  | ack _ _ => exact ⟨⟨happ, hdead, hclosing, hqueue⟩, by simp [WsMessage.OfPeer], List.Subset.refl _⟩
  | _ => exact ⟨⟨happ, hdead, hclosing, hqueue⟩, by simp, List.Subset.refl _⟩

end RelayChannel

namespace Net

variable {net net' : Net}

/-- Neither side is about to leave, and the relay has not said that one did. -/
structure Open (net : Net) : Prop where
  ends : ∀ s, (net.ends s).Open
  wire : ∀ s, ∀ m ∈ net.wire s, m.OfPeer

/-- What is before one side: its task, the messages to it, and the frames it has not taken. -/
def before (net : Net) (s : Side) : Nat :=
  (net.ends s).cost + RelayChannel.wireCost (net.wire s) +
    2 * ((net.ends s.peer).accepted.length - (net.ends s).taken.length)

/-- How much there is to move. -/
def potential (net : Net) : Nat := net.before .left + net.before .right

theorem potential_eq (net : Net) (s : Side) : net.potential = net.before s + net.before s.peer := by
  cases s with
  | left => rfl
  | right => exact Nat.add_comm _ _

theorem open_init : Net.init.Open where
  ends _ := ⟨rfl, rfl, rfl, by simp [Net.init, RelayChannel.spawn]⟩
  wire _ := by simp [Net.init]

variable {s : Side} {a : RelayChannel.Act}

/-- **A step of a task at which nothing goes wrong** leaves both ends open and the histories of the
applications as they are, and lowers the potential. -/
theorem Open.move (ho : net.Open) (h : net.Reachable) (ha : a.Smooth)
    (hs : net.step (.move s a) = some net') : net'.Open ∧ net'.potential < net.potential := by
  have hnet' : net'.Reachable := .step h hs
  have happ : (net.ends s).appStep a = none := by
    cases a <;> first | rfl | exact ha.elim
  obtain ⟨⟨e, inc, out⟩, hstep, rfl⟩ := Option.map_eq_some_iff.mp hs
  rw [RelayChannel.step, happ] at hstep
  obtain ⟨-, hio⟩ := Option.ite_none_right_eq_some.mp hstep
  have hpush : ∀ b rest, payloads (net.wire s) = b :: rest →
      ∃ frames d, (net.ends s).debatch.push b = (.ok frames, d) := by
    have hback : s.peer.peer = s := by cases s <;> rfl
    intro b rest hb
    rw [← hback] at hb ⊢
    exact h.push_ok s.peer hb
  -- the action is one of the rules
  have hmove := RelayChannel.ioMove_of_smooth (ho.ends s) (ho.wire s) hpush ha hio
  obtain ⟨hopen, hout, hinc⟩ := (ho.ends s).ioMove hmove
  have hpeer : s.peer ≠ s := by cases s <;> decide
  have hback : s.peer.peer = s := by cases s <;> rfl
  -- the other end is as before; one wire lost a message, the other may have got one
  refine ⟨⟨fun p => ?_, fun p => ?_⟩, ?_⟩
  · by_cases hp : p = s
    · subst hp
      show (Function.update net.ends p e p).Open
      rwa [Function.update_self]
    · show (Function.update net.ends s e p).Open
      rw [Function.update_of_ne hp]
      exact ho.ends p
  · show ∀ m ∈ Function.update (Function.update net.wire s inc) s.peer (net.wire s.peer ++ out) p, m.OfPeer
    by_cases hp : p = s.peer
    · subst hp
      rw [Function.update_self]
      intro m hm
      rcases List.mem_append.mp hm with hm | hm
      · exact ho.wire _ m hm
      · exact hout m hm
    · obtain rfl : p = s := by cases p <;> cases s <;> first | rfl | exact absurd rfl hp
      rw [Function.update_of_ne (Ne.symm hpeer), Function.update_self]
      exact fun m hm => ho.wire p m (hinc hm)
  -- it cannot take more than was accepted
  · have htaken : e.taken.length ≤ (net.ends s.peer).accepted.length := by
      have hpre := (hnet'.taken s.peer).length_le
      rw [hback] at hpre
      dsimp only at hpre
      rwa [Function.update_self, Function.update_of_ne hpeer] at hpre
    have hcost := RelayChannel.cost_ioMove hmove htaken
    have hacc := RelayChannel.accepted_ioMove hmove
    rw [potential_eq _ s, potential_eq net s, before, before, before, before, hback]
    dsimp only
    rw [Function.update_self, Function.update_of_ne (Ne.symm hpeer), Function.update_self,
      Function.update_self, Function.update_of_ne hpeer, RelayChannel.wireCost_append, hacc]
    omega

/-! ## The applications' own steps -/

/-- What a frame adds to what there is to move. -/
def frameCost (f : Bytes) : Nat := 5 * (f.length + 1) + 4

theorem Open.update (ho : net.Open) {e : RelayChannel} (he : e.Open) :
    Open ⟨Function.update net.ends s e, net.wire⟩ := by
  refine ⟨fun p => ?_, ho.wire⟩
  show (Function.update net.ends s e p).Open
  by_cases hp : p = s
  · subst hp
    rwa [Function.update_self]
  · rw [Function.update_of_ne hp]
    exact ho.ends p

theorem Open.send (ho : net.Open) {m : Bytes} (hm : m.length ≤ MAX_LOGICAL_FRAME) {r : Except Anyhow Unit}
    {e : RelayChannel} (hr : (net.ends s).send m false = some (r, e)) :
    r = .ok () ∧ Open ⟨Function.update net.ends s e, net.wire⟩ ∧
      potential ⟨Function.update net.ends s e, net.wire⟩ ≤ net.potential + frameCost m := by
  obtain ⟨happ, hdead, hclosing, hqueue⟩ := ho.ends s
  have hpeer : s.peer ≠ s := by cases s <;> decide
  have hback : s.peer.peer = s := by cases s <;> rfl
  rw [RelayChannel.send, if_neg (Nat.not_lt.mpr hm), hdead] at hr
  split at hr
  · cases hr
    refine ⟨rfl, ho.update ⟨happ, rfl, hclosing, by simp [hqueue]⟩, ?_⟩
    rw [potential_eq _ s, potential_eq net s, before, before, before, before, hback]
    dsimp only
    rw [Function.update_self, Function.update_of_ne hpeer, frameCost]
    simp only [RelayChannel.cost, RelayChannel.queueCost, List.map_append, List.map_cons, List.map_nil,
      List.sum_append, List.sum_cons, List.sum_nil, List.length_append, List.length_singleton]
    omega
  · cases hr

theorem Open.recv (ho : net.Open) {r : Except Anyhow Bytes} {e : RelayChannel}
    (hr : (net.ends s).recv = some (r, e)) :
    (∃ f, r = .ok f) ∧ Open ⟨Function.update net.ends s e, net.wire⟩ ∧
      potential ⟨Function.update net.ends s e, net.wire⟩ = net.potential := by
  obtain ⟨happ, hdead, hclosing, hqueue⟩ := ho.ends s
  have hpeer : s.peer ≠ s := by cases s <;> decide
  have hback : s.peer.peer = s := by cases s <;> rfl
  rw [RelayChannel.recv, hdead] at hr
  split at hr
  · cases hr
    refine ⟨⟨_, rfl⟩, ho.update ⟨happ, rfl, hclosing, hqueue⟩, ?_⟩
    rw [potential_eq _ s, potential_eq net s, before, before, before, before, hback]
    dsimp only
    rw [Function.update_self, Function.update_of_ne hpeer]
    rfl
  · cases hr

/-- A channel from which something can be read is read. -/
theorem step_app {a : RelayChannel.Act} {e : RelayChannel} (happ : (net.ends s).appStep a = some e) :
    net.step (.move s a) = some ⟨Function.update net.ends s e, net.wire⟩ := by
  have hpeer : s.peer ≠ s := by cases s <;> decide
  rw [step, RelayChannel.step, happ, Option.map_some]
  dsimp only
  rw [List.append_nil, Function.update_eq_self, Function.update_eq_self]

/-- A step the task can take in a session that is open. -/
theorem Open.step_io (ho : net.Open) {a : RelayChannel.Act} (ha : a.Smooth)
    {r : RelayChannel × List WsMessage × List WsMessage} (hio : (net.ends s).ioStep (net.wire s) a = some r) :
    ∃ net', net.step (.move s a) = some net' := by
  have happ : (net.ends s).appStep a = none := by
    cases a <;> first | rfl | exact ha.elim
  rw [step, RelayChannel.step, happ]
  dsimp only
  rw [if_pos (ho.ends s).dead, hio]
  exact ⟨_, rfl⟩

/-- What waits to be read was sent by the other side, after what has been read. -/
theorem Reachable.queued (h : net.Reachable) (ho : net.Open) (s : Side) :
    (net.ends s.peer).received ++ (net.ends s.peer).inQueue <+: (net.ends s).accepted := by
  have hhanded := (h.fifo s).handed (by
    show (net.ends s.peer).app ≠ .dropped
    rw [(ho.ends s.peer).app]
    decide)
  refine List.IsPrefix.trans ?_ (h.taken s)
  exact ⟨(net.ends s.peer).recvHalf.offered, hhanded.symm⟩

/-! ## Where both tasks rest -/

/-- Nothing is left to move for the task of side `s`. -/
structure Rests (net : Net) (s : Side) : Prop where
  phase : (net.ends s).phase = .top
  pending : (net.ends s).pending = []
  outQueue : (net.ends s).outQueue = []
  wire : net.wire s = []

variable (ho : net.Open) (h : net.Reachable) (hrest : ∀ s, net.Rests s)

include ho h hrest

theorem Open.taken_all (s : Side) : (net.ends s.peer).taken = (net.ends s).accepted := by
  have hf := h.fifo s
  obtain ⟨ms, lost, hc⟩ := hf.carried
  have hms : ms = [] := by
    have henc := hc.encoded
    rw [show (net.direction s).payloads = payloads (net.wire s.peer) from rfl, (hrest s.peer).wire] at henc
    exact List.map_eq_nil_iff.mp henc.symm
  have huncounted : (net.ends s.peer).recvHalf.uncounted = [] := by
    simp [RecvHalf.uncounted, (hrest s.peer).phase]
  have hcons := hc.conserved
  simp only [direction, hms, hc.lost (.inl (ho.ends s.peer).closing), huncounted, (hrest s).outQueue,
    (hrest s).pending, outFrames, List.filterMap_nil, List.append_nil, List.flatten_nil, reassemble_nil,
    resume] at hcons
  exact hcons.symm

/-- What was sent and not received is in the queue to `recv`. -/
theorem Open.queued_all (s : Side) :
    (net.ends s.peer).received ++ (net.ends s.peer).inQueue = (net.ends s).accepted := by
  have hhanded := (h.fifo s).handed (by
    show (net.ends s.peer).app ≠ .dropped
    rw [(ho.ends s.peer).app]
    decide)
  have hoffered : (net.ends s.peer).recvHalf.offered = [] := by
    simp [RecvHalf.offered, (hrest s.peer).phase]
  rw [show (net.direction s).rx = (net.ends s.peer).recvHalf from rfl, hoffered, List.append_nil] at hhanded
  rw [← ho.taken_all h hrest s]
  exact hhanded.symm

/-- **Nobody waits for the window**: a frame within the limit is accepted. -/
theorem Open.send_ok (s : Side) {f : Bytes} (hf : f.length ≤ MAX_LOGICAL_FRAME) :
    ∃ e, (net.ends s).send f false = some (.ok (), e) := by
  have hd : net.Drained s := by
    refine ⟨ho.taken_all h hrest s, .inl (hrest s.peer).phase, ?_⟩
    rw [(hrest s).wire]
    rfl
  have hopen := (never_wedged h hd f).1 (ho.ends s).dead
  rw [RelayChannel.send, if_neg (Nat.not_lt.mpr hf), if_pos hopen, (ho.ends s).dead]
  exact ⟨_, rfl⟩

end Net

end B2p
