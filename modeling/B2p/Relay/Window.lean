import B2p.Relay.Fifo

/-!
# Flow control

`send` counts what it has accepted, `io_task` of the other side counts what it has taken, and tells so
once another `ACK_EVERY` bytes have come together. The three counters are linked by what is on the way:

* `Windowed` — the invariant, with the acknowledgments on the way in order between the last one
  received and the last one sent.
* `Net.flow_bound` — how far `send` can get ahead.
* `Net.never_wedged` — with everything taken and acknowledged, `send` is never parked.
-/

namespace B2p

open Interaction Framing

/-- The bytes of some frames. -/
def bytes (fs : List Bytes) : Nat := (fs.map List.length).sum

/-- The length of the largest frame. -/
def largest (fs : List Bytes) : Nat := (fs.map List.length).foldr max 0

@[simp] theorem bytes_nil : bytes [] = 0 := rfl

theorem bytes_append (fs gs : List Bytes) : bytes (fs ++ gs) = bytes fs + bytes gs := by
  simp [bytes]

theorem bytes_snoc (fs : List Bytes) (f : Bytes) : bytes (fs ++ [f]) = bytes fs + f.length := by
  simp [bytes]

theorem bytes_mono {fs gs : List Bytes} (h : fs <+: gs) : bytes fs ≤ bytes gs := by
  obtain ⟨rest, rfl⟩ := h
  rw [bytes_append]
  exact Nat.le_add_right _ _

theorem largest_snoc (fs : List Bytes) (f : Bytes) : largest (fs ++ [f]) = max (largest fs) f.length := by
  induction fs with
  | nil => simp [largest]
  | cons g fs ih =>
      show max g.length (largest (fs ++ [f])) = max (max g.length (largest fs)) f.length
      rw [ih, max_assoc]

/-- **The invariant of the counters**: the sending half, the receiving half, and the acknowledgments on
the way back. -/
structure Windowed (tx : SendHalf) (rx : RecvHalf) (as : List Nat) : Prop where
  accepted : bytes tx.accepted ≤ tx.sent
  sent : tx.dead = none → tx.sent = bytes tx.accepted
  consumed : rx.consumed = bytes rx.taken
  ackedOut : rx.ackedOut ≤ rx.consumed
  handled : rx.phase = .top ∨ rx.phase = .draining → rx.consumed - rx.ackedOut < ACK_EVERY
  ordered : (tx.acked :: as).Pairwise (· ≤ ·)
  latest : as.getLastD tx.acked = rx.ackedOut
  bound : bytes tx.accepted ≤ rx.consumed + (max WINDOW (largest tx.accepted) + ACK_EVERY)

variable {tx tx' : SendHalf} {rx rx' : RecvHalf} {as as' : List Nat} {way way' : List Bytes}

/-- Every acknowledgment, received or on the way, is for something that was acknowledged. -/
theorem le_getLastD {a : Nat} {as : List Nat} (h : (a :: as).Pairwise (· ≤ ·)) :
    ∀ n ∈ a :: as, n ≤ as.getLastD a := by
  induction as generalizing a with
  | nil =>
      intro n hn
      rw [List.mem_singleton.mp hn]
      exact le_rfl
  | cons b as ih =>
      obtain ⟨hle, htail⟩ := List.pairwise_cons.mp h
      intro n hn
      have hb := ih htail b List.mem_cons_self
      rw [List.getLastD_cons]
      rcases List.mem_cons.mp hn with rfl | hn
      · exact (hle b List.mem_cons_self).trans hb
      · exact ih htail n hn

theorem Windowed.acked_le (h : Windowed tx rx as) : tx.acked ≤ rx.ackedOut :=
  h.latest ▸ le_getLastD h.ordered _ List.mem_cons_self

/-! ## Steps -/

theorem Windowed.tx_step (h : Windowed tx rx as) {out : List Bytes} (hs : tx.Step as tx' as' out) :
    Windowed tx' rx as' ∧ tx.acked ≤ tx'.acked := by
  have hacked := h.acked_le
  obtain ⟨hacc, hsent, hcon, hout, hhandled, hord, hlast, hbound⟩ := h
  cases hs with
  | stutter | close | flush | take | takeClose =>
      exact ⟨⟨hacc, hsent, hcon, hout, hhandled, hord, hlast, hbound⟩, le_rfl⟩
  | accept as f hlen hdead hopen =>
      have heq := hsent hdead
      refine ⟨⟨?_, ?_, hcon, hout, hhandled, hord, hlast, ?_⟩, le_rfl⟩
      · rw [bytes_snoc]
        exact Nat.add_le_add_right hacc _
      · intro _
        show tx.sent + f.length = bytes (tx.accepted ++ [f])
        rw [bytes_snoc, heq]
      · rw [bytes_snoc, largest_snoc]
        -- either way past the check, against the last acknowledgment received
        rcases hopen with hroom | hdrained
        · omega
        · omega
  -- `send` adds to `sent` only if the task is there
  | refuse as f hdead =>
      refine ⟨⟨hacc.trans (Nat.le_add_right _ _), ?_, hcon, hout, hhandled, hord, hlast, hbound⟩, le_rfl⟩
      intro hnone
      exact absurd hnone hdead
  -- acknowledgments arrive in order, so the latest only grows
  | acked n as =>
      obtain ⟨hle, htail⟩ := List.pairwise_cons.mp hord
      refine ⟨⟨hacc, hsent, hcon, hout, hhandled, htail, ?_, hbound⟩, hle n List.mem_cons_self⟩
      rw [← hlast, List.getLastD_cons]
  | die as reason hdead =>
      refine ⟨⟨hacc, ?_, hcon, hout, hhandled, hord, hlast, hbound⟩, le_rfl⟩
      intro hnone
      cases hnone

theorem Windowed.rx_step (h : Windowed tx rx as) {out : List Nat} (hs : rx.Step way rx' way' out) :
    Windowed tx rx' (as ++ out) := by
  have hle := le_getLastD h.ordered
  obtain ⟨hacc, hsent, hcon, hout, hhandled, hord, hlast, hbound⟩ := h
  cases hs with
  | stutter | recv | close | drop | bad | die =>
      rw [List.append_nil]
      exact ⟨hacc, hsent, hcon, hout, hhandled, hord, hlast, hbound⟩
  | turn _ phase c hphase hphase' hc =>
      rw [List.append_nil]
      exact ⟨hacc, hsent, hcon, hout, fun _ => hhandled hphase, hord, hlast, hbound⟩
  -- in these phases there is nothing to show
  | next | offer | gone =>
      rw [List.append_nil]
      refine ⟨hacc, hsent, hcon, hout, ?_, hord, hlast, hbound⟩
      rintro (hphase | hphase) <;> cases hphase
  -- the only step in which something is consumed
  | @count _ f rest hphase =>
      rw [List.append_nil]
      refine ⟨hacc, hsent, ?_, hout.trans (Nat.le_add_right _ _), ?_, hord, hlast, ?_⟩
      · show rx.consumed + f.length = bytes (rx.taken ++ [f])
        rw [bytes_snoc, hcon]
      · rintro (hphase | hphase) <;> cases hphase
      · show bytes tx.accepted ≤ rx.consumed + f.length + _
        omega
  -- all that is consumed is acknowledged now
  | ack _ hphase hdue =>
      refine ⟨hacc, hsent, hcon, le_rfl, ?_, ?_, ?_, hbound⟩
      · intro _
        show rx.consumed - rx.consumed < ACK_EVERY
        rw [Nat.sub_self]
        decide
      · rw [← List.cons_append]
        refine List.pairwise_append.mpr ⟨hord, List.pairwise_singleton _ _, ?_⟩
        intro n hn m hm
        rw [List.mem_singleton.mp hm]
        exact ((hle n hn).trans hlast.le).trans hout
      · simp
  -- not enough for an acknowledgment
  | noAck _ hphase hdue =>
      rw [List.append_nil]
      exact ⟨hacc, hsent, hcon, hout, fun _ => Nat.lt_of_not_le hdue, hord, hlast, hbound⟩

theorem Windowed.step {d d' : Direction} (h : Windowed d.tx d.rx d.acks) (hs : d.Step d') :
    Windowed d'.tx d'.rx d'.acks ∧ d.tx.acked ≤ d'.tx.acked := by
  cases hs with
  | tx hs => exact h.tx_step hs
  | rx hs => exact ⟨h.rx_step hs, le_rfl⟩

theorem windowed_spawn : Windowed RelayChannel.spawn.sendHalf RelayChannel.spawn.recvHalf [] where
  accepted := le_rfl
  sent := fun _ => rfl
  consumed := rfl
  ackedOut := le_rfl
  handled := fun _ => by decide
  ordered := by simp
  latest := rfl
  bound := Nat.zero_le _

theorem Net.Reachable.windowed {net : Net} (h : net.Reachable) (s : Side) :
    Windowed (net.direction s).tx (net.direction s).rx (net.direction s).acks :=
  reachable_direction (P := fun d => Windowed d.tx d.rx d.acks) h (fun _ => windowed_spawn)
    (fun _ _ hd hs => (hd.step hs).1) s

/-! ## The bound -/

namespace Net

/-- **How far `send` can get ahead.** In every state of a session and for either direction: the
acknowledged count only grows and is at most what the other side has consumed, which is at most what
was sent; what it has consumed and not acknowledged is a difference of natural numbers, and below
`ACK_EVERY` between two messages; and what was accepted and not consumed is at most the window, or the
largest frame, and `ACK_EVERY`. -/
theorem flow_bound {net : Net} (h : net.Reachable) (s : Side) :
    (∀ a net', net.step a = some net' → (net.ends s).acked ≤ (net'.ends s).acked) ∧
    (net.ends s).acked ≤ (net.ends s.peer).consumed ∧
    (net.ends s.peer).consumed ≤ (net.ends s).sent ∧
    (net.ends s.peer).ackedOut ≤ (net.ends s.peer).consumed ∧
    ((net.ends s.peer).phase = .top ∨ (net.ends s.peer).phase = .draining →
      (net.ends s.peer).consumed - (net.ends s.peer).ackedOut < ACK_EVERY) ∧
    (net.ends s.peer).consumed = bytes (net.ends s.peer).taken ∧
    bytes (net.ends s).accepted - (net.ends s.peer).consumed
      ≤ max WINDOW (largest (net.ends s).accepted) + ACK_EVERY := by
  have hw := h.windowed s
  have hcon : (net.ends s.peer).consumed = bytes (net.ends s.peer).taken := hw.consumed
  refine ⟨?_, hw.acked_le.trans hw.ackedOut, ?_, hw.ackedOut, hw.handled, hcon, ?_⟩
  · intro a net' hs
    exact (hw.step (direction_step hs s)).2
  · rw [hcon]
    exact (bytes_mono (h.taken s)).trans hw.accepted
  · exact Nat.sub_le_iff_le_add'.mpr hw.bound

/-- The byte that was sent has been consumed. -/
theorem flow_bound_oneFrame : ∃ net : Net, net.Reachable ∧ (net.ends .left).accepted = [[7]] ∧
    (net.ends .right).consumed = 1 ∧ 1 ≤ (net.ends .left).sent := by
  obtain ⟨net, h, hacc, -, -, htaken, -⟩ := reachable_arrived
  obtain ⟨-, -, hsent, -, -, hconsumed, -⟩ := flow_bound h .left
  have hone : (net.ends .right).consumed = 1 := hconsumed.trans (congrArg bytes htaken)
  exact ⟨net, h, hacc, hone, hone ▸ hsent⟩

/-! ## No wedge -/

/-- Side `s` has nothing to wait for: all it was allowed to send has been taken, the other side's task is
between two messages, and no acknowledgment is on the way. -/
structure Drained (net : Net) (s : Side) : Prop where
  taken : (net.ends s.peer).taken = (net.ends s).accepted
  phase : (net.ends s.peer).phase = .top ∨ (net.ends s.peer).phase = .draining
  acks : acks (net.wire s) = []

/-- **Flow control cannot wedge.** In every state of a session in which side `s` has nothing to wait for,
the window is open for every next frame; so `send` is not parked, whatever the frame. -/
theorem never_wedged {net : Net} (h : net.Reachable) {s : Side} (hd : net.Drained s) (f : Bytes) :
    ((net.ends s).dead = none → (net.ends s).WindowOpen f.length) ∧
    ((net.ends s).send f false).isSome := by
  have hw := h.windowed s
  have hopen : (net.ends s).dead = none → (net.ends s).WindowOpen f.length := by
    intro halive
    right
    have hsent : (net.ends s).sent = bytes (net.ends s).accepted := hw.sent halive
    have hcon : (net.ends s.peer).consumed = bytes (net.ends s.peer).taken := hw.consumed
    have hacked : (net.ends s).acked = (net.ends s.peer).ackedOut := by
      have hlast := hw.latest
      rw [show (net.direction s).acks = [] from hd.acks] at hlast
      exact hlast
    -- with nothing on the way, what is unacknowledged is less than would have been acknowledged
    calc (net.ends s).sent - (net.ends s).acked
        = (net.ends s.peer).consumed - (net.ends s.peer).ackedOut := by
          rw [hsent, ← hd.taken, ← hcon, hacked]
      _ < ACK_EVERY := hw.handled hd.phase
  refine ⟨hopen, ?_⟩
  rw [RelayChannel.send]
  cases halive : (net.ends s).dead with
  | none =>
      rw [if_pos (hopen halive)]
      split
      · rfl
      · simp
  -- `send` refuses, but returns
  | some reason =>
      split
      · rfl
      · split <;> simp

theorem never_wedged_arrived : ∃ net : Net, net.Reachable ∧ (net.ends .left).accepted = [[7]] ∧
    net.Drained .left ∧ ((net.ends .left).send [1, 2] false).isSome := by
  obtain ⟨net, h, hacc, hidle, -, htaken, hacks⟩ := reachable_arrived
  have hd : net.Drained .left := ⟨htaken.trans hacc.symm, hidle.phase, hacks⟩
  exact ⟨net, h, hacc, hd, (never_wedged h hd [1, 2]).2⟩

end Net

end B2p
