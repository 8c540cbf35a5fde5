import B2p.Relay.Direction

/-!
# A paired session is two queues of frames

* `Direction.Fifo` — the invariant: what one side's `send` accepted is what the other side's `io_task`
  has taken, then what is in the pieces on the way, then what is still queued.
* `Direction.Fifo.step` — every step of a direction keeps it.
* `Net.relay_refines_fifo` — so `recv` returns the frames of the other side's `send`, in order, and no
  message is refused on the way.
-/

namespace B2p

open Interaction Framing

/-- The frames in the queue from the application. -/
def outFrames (q : List OutMsg) : List Bytes :=
  q.filterMap fun
    | .frame f => some f
    | .close => none

theorem outFrames_append (q q' : List OutMsg) : outFrames (q ++ q') = outFrames q ++ outFrames q' :=
  List.filterMap_append

/-- The frames of the message at hand that are not counted yet. -/
def RecvHalf.uncounted (h : RecvHalf) : List Bytes :=
  match h.phase with
  | .delivering frames => frames
  | .offering _ rest => rest
  | _ => []

/-- The frame that is counted and not handed over yet. -/
def RecvHalf.offered (h : RecvHalf) : List Bytes :=
  match h.phase with
  | .offering f _ => [f]
  | _ => []

/-- The messages on the way are the pieces `ms`. What was accepted has been taken, was dropped for want
of a consumer (`lost`), is at hand, is on the way, or is queued, in this order. -/
structure Carried (tx : SendHalf) (way : List Bytes) (rx : RecvHalf) (ms : List (List (Piece UInt8)))
    (lost : List Bytes) : Prop where
  encoded : way = ms.map encode
  small : ∀ ps ∈ ms, ∀ p ∈ ps, p.items.length < 2 ^ 31
  conserved : tx.accepted = rx.taken ++ lost ++ rx.uncounted ++
    (reassemble rx.debatch.partial_ ms.flatten).1 ++
    resume (reassemble rx.debatch.partial_ ms.flatten).2 tx.pending ++ outFrames tx.outQueue
  buffer : tx.pending = [] → (reassemble rx.debatch.partial_ ms.flatten).2 = []
  lost : rx.closing = false ∨ rx.app ≠ .dropped → lost = []

/-- **The invariant of a direction**: the sending half, the payloads on the way, the receiving half. -/
structure Fifo (tx : SendHalf) (way : List Bytes) (rx : RecvHalf) : Prop where
  carried : ∃ ms lost, Carried tx way rx ms lost
  frames : ∀ f ∈ tx.accepted, f.length ≤ MAX_LOGICAL_FRAME
  sized : ∀ p ∈ way, p ≠ [] ∧ p.length ≤ MAX_WS_PAYLOAD
  closing : rx.closing = true → rx.phase = .top ∨ rx.phase = .delivering []
  received : rx.received <+: rx.taken
  handed : rx.app ≠ .dropped → rx.taken = rx.received ++ rx.inQueue ++ rx.offered

variable {tx tx' : SendHalf} {way way' : List Bytes} {rx rx' : RecvHalf} {as as' : List Nat}
  {ms : List (List (Piece UInt8))} {lost : List Bytes}

/-! ## What the invariant says of the messages on the way -/

section Carried

variable (h : Carried tx way rx ms lost) (hmax : ∀ f ∈ tx.accepted, f.length ≤ MAX_LOGICAL_FRAME)

include h hmax

/-- Nothing on the way is too long for the `Debatcher`. -/
theorem Carried.fits : Fits MAX_LOGICAL_FRAME rx.debatch.partial_ ms.flatten := by
  have hmem : ∀ f, f ∈ (reassemble rx.debatch.partial_ ms.flatten).1 ∨
      f ∈ resume (reassemble rx.debatch.partial_ ms.flatten).2 tx.pending →
      f.length ≤ MAX_LOGICAL_FRAME := by
    intro f hf
    apply hmax
    rw [h.conserved]
    simp only [List.mem_append]
    tauto
  refine fits_of_bound (fun f hf => hmem f (.inl hf)) ?_
  cases hp : tx.pending with
  | nil =>
      rw [h.buffer hp]
      exact Nat.zero_le _
  | cons f rest =>
      -- the buffer is the beginning of the frame in front
      have hfront := hmem _ (.inr (by rw [hp]; exact List.mem_cons_self))
      rw [List.length_append] at hfront
      omega

/-- The next message is read without an error. -/
theorem Carried.push {p : Bytes} {rest : List Bytes} (hp : way = p :: rest) :
    ∃ ps ms', ms = ps :: ms' ∧ rest = ms'.map encode ∧
      rx.debatch.push p = (.ok (reassemble rx.debatch.partial_ ps).1,
        ⟨(reassemble rx.debatch.partial_ ps).2⟩) := by
  have henc := h.encoded
  rw [hp] at henc
  cases ms with
  | nil => cases henc
  | cons ps ms' =>
      rw [List.map_cons, List.cons.injEq] at henc
      have hfits := h.fits hmax
      rw [List.flatten_cons, fits_append] at hfits
      refine ⟨ps, ms', rfl, henc.2, ?_⟩
      rw [henc.1]
      exact push_encode (h.small ps List.mem_cons_self) hfits.1

end Carried

/-! ## Steps of the sending half -/

theorem Fifo.tx_step (h : Fifo tx way rx) {out : List Bytes} (hs : tx.Step as tx' as' out) :
    Fifo tx' (way ++ out) rx := by
  obtain ⟨⟨ms, lost, hc⟩, hframes, hsized, hclosing, hreceived, hhanded⟩ := h
  obtain ⟨henc, hsmall, hcons, hbuf, hlost⟩ := hc
  cases hs with
  -- nothing new is accepted, and nothing goes out
  | stutter | refuse | acked | die =>
      rw [List.append_nil]
      exact ⟨⟨ms, lost, henc, hsmall, hcons, hbuf, hlost⟩, hframes, hsized, hclosing, hreceived, hhanded⟩
  -- the frame joins the end of what waits: the queue for `io_task` and the frame it is cutting
  | accept as f hlen hdead hopen =>
      rw [List.append_nil]
      refine ⟨⟨ms, lost, henc, hsmall, ?_, hbuf, hlost⟩, ?_, hsized, hclosing, hreceived, hhanded⟩
      · show tx.accepted ++ [f] = _
        rw [outFrames_append, ← List.append_assoc, ← hcons]
        rfl
      · intro g hg
        rcases List.mem_append.mp hg with hg | hg
        · exact hframes g hg
        · rw [List.mem_singleton.mp hg]
          exact hlen
  | close =>
      rw [List.append_nil]
      refine ⟨⟨ms, lost, henc, hsmall, ?_, hbuf, hlost⟩, hframes, hsized, hclosing, hreceived, hhanded⟩
      rw [outFrames_append, show outFrames [.close] = [] from rfl, List.append_nil]
      exact hcons
  -- what is cut off the queue now stands in the message; the receiver would put it together as before
  | @flush _ payload rest hpack =>
      rcases packFrames_cut tx.pending with
        ⟨-, hnone⟩ | ⟨ps, rest', hne, hsome, hcut, hnonempty, hlen, hsmall', -⟩
      -- with an empty queue `pack_frames` gives no payload
      · rw [hnone] at hpack
        cases hpack
      · rw [hsome] at hpack
        cases hpack
        have hflat : reassemble rx.debatch.partial_ (ms ++ [ps]).flatten
            = ((reassemble rx.debatch.partial_ ms.flatten).1 ++
                (reassemble (reassemble rx.debatch.partial_ ms.flatten).2 ps).1,
              (reassemble (reassemble rx.debatch.partial_ ms.flatten).2 ps).2) := by
          rw [List.flatten_append, List.flatten_singleton, reassemble_append]
        refine ⟨⟨ms ++ [ps], lost, ?_, ?_, ?_, ?_, hlost⟩, hframes, ?_, hclosing, hreceived, hhanded⟩
        · show way ++ [encode ps] = _
          rw [henc, List.map_append, List.map_singleton]
        · intro qs hqs
          rcases List.mem_append.mp hqs with hqs | hqs
          · exact hsmall qs hqs
          · rw [List.mem_singleton.mp hqs]
            exact hsmall'
        · rw [hflat]
          rw [← hcut.resume] at hcons
          simpa only [List.append_assoc] using hcons
        · rw [hflat]
          exact hcut.buffer hbuf
        · intro p hp
          rcases List.mem_append.mp hp with hp | hp
          · exact hsized p hp
          · rw [List.mem_singleton.mp hp]
            exact ⟨hnonempty, hlen⟩
  -- a frame moves from the one queue to the other
  | @take _ f rest hq =>
      rw [List.append_nil]
      refine ⟨⟨ms, lost, henc, hsmall, ?_, ?_, hlost⟩, hframes, hsized, hclosing, hreceived, hhanded⟩
      · rw [hq, show outFrames (.frame f :: rest) = [f] ++ outFrames rest from rfl] at hcons
        rw [resume_append hbuf]
        simpa only [List.append_assoc] using hcons
      · simp
  -- a close in the queue is no frame
  | @takeClose _ rest hq =>
      rw [List.append_nil]
      refine ⟨⟨ms, lost, henc, hsmall, ?_, hbuf, hlost⟩, hframes, hsized, hclosing, hreceived, hhanded⟩
      rw [hq] at hcons
      exact hcons

/-! ## Steps of the receiving half -/

/-- A receiving half that has a frame in hand has not heard of the end. -/
theorem Fifo.not_closing (h : Fifo tx way rx) (htop : rx.phase ≠ .top) (hdone : rx.phase ≠ .delivering []) :
    rx.closing = false := by
  cases hcl : rx.closing with
  | false => rfl
  | true =>
      rcases h.closing hcl with hphase | hphase
      · exact absurd hphase htop
      · exact absurd hphase hdone

theorem Fifo.rx_step (h : Fifo tx way rx) (hs : rx.Step way rx' way' as) : Fifo tx way' rx' := by
  have hopen := h.not_closing
  obtain ⟨⟨ms, lost, hc⟩, hframes, hsized, hclosing, hreceived, hhanded⟩ := h
  cases hs with
  | stutter | die =>
      exact ⟨⟨ms, lost, hc.1, hc.2, hc.3, hc.4, hc.5⟩, hframes, hsized, hclosing, hreceived, hhanded⟩
  -- the program takes a frame out of the bounded queue; all of them were counted before
  | @recv _ f rest hq happ =>
      have htaken := hhanded (by rw [happ]; decide)
      refine ⟨⟨ms, lost, hc.1, hc.2, hc.3, hc.4, hc.5⟩, hframes, hsized, hclosing, ?_, ?_⟩
      · show rx.received ++ [f] <+: rx.taken
        rw [htaken]
        simp only [hq, List.append_assoc, List.prefix_append_right_inj, List.cons_append,
          List.cons_prefix_cons, true_and]
        exact List.nil_prefix
      · intro _
        show rx.taken = rx.received ++ [f] ++ rest ++ rx.offered
        rw [htaken]
        simp [hq]
  | close _ happ =>
      have hlive : rx.app ≠ .dropped := by
        rw [happ]
        decide
      exact ⟨⟨ms, lost, hc.1, hc.2, hc.3, hc.4, fun _ => hc.5 (.inr hlive)⟩, hframes, hsized, hclosing,
        hreceived, fun _ => hhanded hlive⟩
  -- from here on frames may be lost, as nobody reads them
  | drop =>
      refine ⟨⟨ms, lost, hc.1, hc.2, hc.3, hc.4, ?_⟩, hframes, hsized, hclosing, hreceived, ?_⟩
      · rintro (hopen | happ)
        · exact hc.5 (.inl hopen)
        · exact absurd rfl happ
      · intro happ
        exact absurd rfl happ
  -- `io_task` turns to something else with no frame in its hands
  | turn _ phase c hphase hphase' hcl =>
      have hno : rx.uncounted = [] ∧ rx.offered = [] := by
        rcases hphase with h | h <;> simp [RecvHalf.uncounted, RecvHalf.offered, h]
      have hno' : RecvHalf.uncounted { rx with phase := phase, closing := c } = [] ∧
          RecvHalf.offered { rx with phase := phase, closing := c } = [] := by
        rcases hphase' with h | ⟨h, -⟩ <;> simp [RecvHalf.uncounted, RecvHalf.offered, h]
      refine ⟨⟨ms, lost, hc.1, hc.2, ?_, hc.4, ?_⟩, hframes, hsized, ?_, hreceived, ?_⟩
      · have hcons := hc.3
        rw [hno.1] at hcons
        rw [hno'.1]
        exact hcons
      · rintro (hopen | happ)
        · refine hc.5 (.inl ?_)
          cases hcl' : rx.closing with
          | false => rfl
          | true => exact absurd ((hcl hcl').symm.trans hopen) (by decide)
        · exact hc.5 (.inr happ)
      · intro htrue
        rcases hphase' with h | ⟨-, h⟩
        · exact .inl h
        · exact absurd (h.symm.trans htrue) (by decide)
      · intro happ
        have htaken := hhanded happ
        rw [hno.2] at htaken
        rw [hno'.2]
        exact htaken
  -- the message on top is read: its frames are now the uncounted ones
  | @next p rest frames deb hphase hcl hpush =>
      obtain ⟨ps, ms', rfl, hrest, hpush'⟩ := hc.push hframes rfl
      rw [hpush'] at hpush
      cases hpush
      have hno : rx.uncounted = [] ∧ rx.offered = [] := by
        simp [RecvHalf.uncounted, RecvHalf.offered, hphase]
      refine ⟨⟨ms', lost, hrest, fun qs hqs => hc.2 qs (List.mem_cons_of_mem _ hqs), ?_, ?_, hc.5⟩,
        hframes, ?_, ?_, hreceived, ?_⟩
      · have hcons := hc.3
        simp only [hno.1, List.flatten_cons, reassemble_append, List.append_nil] at hcons
        simpa only [List.append_assoc, RecvHalf.uncounted] using hcons
      · have hbuf := hc.4
        simp only [List.flatten_cons, reassemble_append] at hbuf
        exact hbuf
      · intro q hq
        exact hsized q (by
          exact List.mem_cons_of_mem _ hq)
      · intro htrue
        exact absurd (hcl.symm.trans htrue) (by decide)
      · intro happ
        have htaken := hhanded happ
        rw [hno.2] at htaken
        exact htaken
  | @bad p rest reason err deb hcl hpush =>
      -- the `Debatcher` has no reason to complain
      obtain ⟨ps, ms', -, -, hpush'⟩ := hc.push hframes rfl
      rw [hpush'] at hpush
      cases hpush
  -- one of them is counted as consumed, and is the one on offer
  | @count _ f rest hphase =>
      have hcl : rx.closing = false := hopen (by simp [hphase]) (by simp [hphase])
      have hlost := hc.5 (.inl hcl)
      refine ⟨⟨ms, [], hc.1, hc.2, ?_, hc.4, fun _ => rfl⟩, hframes, hsized, ?_, ?_, ?_⟩
      · have hcons := hc.3
        simp only [hlost, RecvHalf.uncounted, hphase, List.append_nil] at hcons
        simpa [RecvHalf.uncounted] using hcons
      · intro htrue
        exact absurd (hcl.symm.trans htrue) (by decide)
      · exact hreceived.trans (List.prefix_append _ _)
      · intro happ
        have htaken := hhanded happ
        simp only [RecvHalf.offered, hphase, List.append_nil] at htaken
        show rx.taken ++ [f] = _
        rw [htaken]
        rfl
  -- and goes into the bounded queue
  | @offer _ f rest hphase happ =>
      have htaken := hhanded happ
      simp only [RecvHalf.offered, hphase] at htaken
      refine ⟨⟨ms, lost, hc.1, hc.2, ?_, hc.4, hc.5⟩, hframes, hsized, ?_, hreceived, ?_⟩
      · have hcons := hc.3
        simp only [RecvHalf.uncounted, hphase] at hcons
        exact hcons
      · intro htrue
        exact absurd ((hopen (by simp [hphase]) (by simp [hphase])).symm.trans htrue) (by decide)
      · intro _
        show rx.taken = rx.received ++ (rx.inQueue ++ [f]) ++ []
        rw [htaken]
        simp
  -- the program has dropped its end: the frames not yet counted are lost
  | @gone _ f rest hphase happ =>
      refine ⟨⟨ms, lost ++ rest, hc.1, hc.2, ?_, hc.4, ?_⟩, hframes, hsized, fun _ => .inr rfl, hreceived, ?_⟩
      · have hcons := hc.3
        simp only [RecvHalf.uncounted, hphase] at hcons
        simpa [RecvHalf.uncounted] using hcons
      · rintro (hopen | hne)
        · cases hopen
        · exact absurd happ hne
      · intro hne
        exact absurd happ hne
  -- with no frame left, nothing changes but the acknowledgments
  | ack _ hphase hdue | noAck _ hphase hdue =>
      refine ⟨⟨ms, lost, hc.1, hc.2, ?_, hc.4, hc.5⟩, hframes, hsized, fun _ => .inl rfl, hreceived, ?_⟩
      · have hcons := hc.3
        simp only [RecvHalf.uncounted, hphase] at hcons
        exact hcons
      · intro happ
        have htaken := hhanded happ
        simp only [RecvHalf.offered, hphase] at htaken
        exact htaken

/-- **Every step of a direction keeps its frames in order.** -/
theorem Fifo.step {d d' : Direction} (h : Fifo d.tx d.payloads d.rx) (hs : d.Step d') :
    Fifo d'.tx d'.payloads d'.rx := by
  cases hs with
  | tx hs => exact h.tx_step hs
  | rx hs => exact h.rx_step hs

theorem fifo_spawn : Fifo RelayChannel.spawn.sendHalf [] RelayChannel.spawn.recvHalf where
  carried := ⟨[], [], rfl, by simp, rfl, fun _ => rfl, fun _ => rfl⟩
  frames := by simp [RelayChannel.spawn]
  sized := by simp
  closing := by simp [RelayChannel.spawn]
  received := List.nil_prefix
  handed := by simp [RelayChannel.spawn, RecvHalf.offered]

theorem Net.Reachable.fifo {net : Net} (h : net.Reachable) (s : Side) :
    Fifo (net.direction s).tx (net.direction s).payloads (net.direction s).rx :=
  reachable_direction (P := fun d => Fifo d.tx d.payloads d.rx) h (fun _ => fifo_spawn)
    (fun _ _ hd hs => hd.step hs) s

/-! ## A session -/

namespace Net

/-- None of the frames of side `s` is underway: not queued, not on the way, not in the hands of the
other side's task. -/
structure Idle (net : Net) (s : Side) : Prop where
  queue : outFrames (net.ends s).outQueue = []
  pending : (net.ends s).pending = []
  wire : payloads (net.wire s.peer) = []
  phase : (net.ends s.peer).phase = .top ∨ (net.ends s.peer).phase = .draining
  inQueue : (net.ends s.peer).inQueue = []

variable {net : Net} (h : net.Reachable) (s : Side)

include h

theorem Reachable.taken : (net.ends s.peer).taken <+: (net.ends s).accepted := by
  obtain ⟨ms, lost, hc⟩ := (h.fifo s).carried
  have hcons := hc.conserved
  simp only [List.append_assoc] at hcons
  exact ⟨_, hcons.symm⟩

theorem Reachable.received : (net.ends s.peer).received <+: (net.ends s).accepted :=
  (h.fifo s).received.trans (h.taken s)

theorem Reachable.push_ok {p : Bytes} {rest : List Bytes} (hp : payloads (net.wire s.peer) = p :: rest) :
    ∃ frames d, (net.ends s.peer).debatch.push p = (.ok frames, d) := by
  have hf := h.fifo s
  obtain ⟨ms, lost, hc⟩ := hf.carried
  obtain ⟨ps, ms', -, -, hpush⟩ := hc.push hf.frames hp
  exact ⟨_, _, hpush⟩

/-- Packing what is left and delivering all messages empties the queue and the other side's buffer. -/
theorem Reachable.drains : ∃ n frames, (drain n (net.ends s).pending).2 = [] ∧
    (net.ends s.peer).debatch.pushAll
      (payloads (net.wire s.peer) ++ (drain n (net.ends s).pending).1) = (.ok frames, .empty) := by
  have hf := h.fifo s
  obtain ⟨ms, lost, hc⟩ := hf.carried
  -- flush until the queue is empty, and read all that is on the way
  obtain ⟨n, ms', hdrain, hsmall', hall⟩ := drain_pieces (net.ends s).pending
  have hbuf : (net.ends s).pending = [] →
    (reassemble (net.ends s.peer).debatch.partial_ ms.flatten).2 = [] := hc.buffer
  have hread : reassemble (net.ends s.peer).debatch.partial_ (ms ++ ms').flatten
      = ((reassemble (net.ends s.peer).debatch.partial_ ms.flatten).1 ++
        resume (reassemble (net.ends s.peer).debatch.partial_ ms.flatten).2 (net.ends s).pending, []) := by
    rw [List.flatten_append, reassemble_append, hall _ hbuf]
  have hsmall : ∀ ps ∈ ms ++ ms', ∀ p ∈ ps, p.items.length < 2 ^ 31 := by
    intro ps hps
    rcases List.mem_append.mp hps with hps | hps
    · exact hc.small ps hps
    · exact hsmall' ps hps
  -- what comes out was accepted, so it is within the limit
  have hpush := pushAll_of_bound hsmall hread (fun f hmem => by
    refine hf.frames f ?_
    rw [hc.conserved]
    simp only [List.mem_append] at hmem ⊢
    tauto) (Nat.zero_le _)
  rw [List.map_append, ← show payloads (net.wire s.peer) = ms.map encode from hc.encoded] at hpush
  rw [show ms'.map encode = (drain n (net.ends s).pending).1 by rw [hdrain]] at hpush
  exact ⟨n, _, by rw [hdrain], hpush⟩

/-- Once nothing is underway, everything accepted has been received. -/
theorem Reachable.received_all (hlive : (net.ends s.peer).app ≠ .dropped) (hidle : net.Idle s) :
    (net.ends s.peer).received = (net.ends s).accepted := by
  have hf := h.fifo s
  obtain ⟨ms, lost, hc⟩ := hf.carried
  have hms : ms = [] := by
    have henc := hc.encoded
    rw [show (net.direction s).payloads = [] from hidle.wire] at henc
    exact List.map_eq_nil_iff.mp henc.symm
  have hno : (net.ends s.peer).recvHalf.uncounted = [] ∧ (net.ends s.peer).recvHalf.offered = [] := by
    rcases hidle.phase with hphase | hphase <;> simp [RecvHalf.uncounted, RecvHalf.offered, hphase]
  have hcons := hc.conserved
  have htaken := hf.handed hlive
  simp only [direction, hms, hc.lost (.inr hlive), hno.1, hno.2, hidle.inQueue, hidle.queue,
    hidle.pending, List.append_nil, List.flatten_nil, reassemble_nil, resume] at hcons htaken
  rw [hcons, htaken]

omit h in
/-- **The relay channel is a queue of frames.** In every state of a session, for either direction, the
frames `recv` has returned are the first of those the other side's `send` accepted, and all of them
once none is underway; every payload on the way fits a message and is read without an error; and
packing what is queued ends, leaving nothing in the reader's buffer. The same holds of any other use of
`pack_frames`, with frames added between its calls. -/
theorem relay_refines_fifo :
    (∀ net : Net, net.Reachable → ∀ s : Side,
      (net.ends s.peer).received <+: (net.ends s).accepted ∧
      ((net.ends s.peer).app ≠ .dropped → net.Idle s →
        (net.ends s.peer).received = (net.ends s).accepted) ∧
      (∀ p ∈ payloads (net.wire s.peer), p ≠ [] ∧ p.length ≤ MAX_WS_PAYLOAD) ∧
      (∀ p rest, payloads (net.wire s.peer) = p :: rest →
        ∃ frames d, (net.ends s.peer).debatch.push p = (.ok frames, d)) ∧
      ∃ n frames, (drain n (net.ends s).pending).2 = [] ∧
        (net.ends s.peer).debatch.pushAll
          (payloads (net.wire s.peer) ++ (drain n (net.ends s).pending).1) = (.ok frames, .empty)) ∧
    ∀ ops : List QueueOp, (∀ f ∈ pushed ops, f.length ≤ MAX_LOGICAL_FRAME) →
      (∀ p ∈ (runQueue ops).2, p ≠ [] ∧ p.length ≤ MAX_WS_PAYLOAD) ∧
      (∃ frames d, Debatcher.empty.pushAll (runQueue ops).2 = (.ok frames, d) ∧ frames <+: pushed ops) ∧
      ∃ n, (drain n (runQueue ops).1).2 = [] ∧
        Debatcher.empty.pushAll ((runQueue ops).2 ++ (drain n (runQueue ops).1).1)
          = (.ok (pushed ops), .empty) := by
  constructor
  · intro net h s
    exact ⟨h.received s, h.received_all s, (h.fifo s).sized, fun p rest hp => h.push_ok s hp, h.drains s⟩
  · intro ops hmax
    obtain ⟨ms, hout, hsmall, hsized, hall, hbuf⟩ := runQueue_pieces ops
    obtain ⟨n, ms', hdrain, hsmall', hrest⟩ := drain_pieces (runQueue ops).1
    have hread : reassemble [] (ms ++ ms').flatten = (pushed ops, []) := by
      rw [List.flatten_append, reassemble_append, hrest _ hbuf, hall]
    have hsmall'' : ∀ ps ∈ ms ++ ms', ∀ p ∈ ps, p.items.length < 2 ^ 31 := by
      intro ps hps
      rcases List.mem_append.mp hps with hps | hps
      · exact hsmall ps hps
      · exact hsmall' ps hps
    -- the part read so far is within the limit because the whole is
    have hfits : Fits MAX_LOGICAL_FRAME [] (ms ++ ms').flatten := by
      refine fits_of_bound ?_ ?_
      · rw [hread]
        exact hmax
      · rw [hread]
        exact Nat.zero_le _
    rw [List.flatten_append, fits_append] at hfits
    have hsofar : Debatcher.empty.pushAll (ms.map encode) = _ := pushAll_encode hsmall hfits.1
    rw [← hout] at hsofar
    refine ⟨hsized, ⟨_, _, hsofar, ⟨_, hall⟩⟩, n, by rw [hdrain], ?_⟩
    · rw [hdrain, hout, ← List.map_append]
      exact pushAll_of_bound hsmall'' hread hmax (Nat.zero_le _)

omit h in
theorem step_next {net : Net} {s : Side} {m : WsMessage} {rest : List WsMessage} {e : RelayChannel}
    (hwire : net.wire s = m :: rest) (hdead : (net.ends s).dead = none) (hsel : (net.ends s).Selecting)
    (he : (net.ends s).handle m = e) : net.step (.move s .next) = some
      ⟨Function.update net.ends s e,
        Function.update (Function.update net.wire s rest) s.peer (net.wire s.peer ++ [])⟩ := by
  simp only [step, RelayChannel.step, RelayChannel.appStep, RelayChannel.ioStep, RelayChannel.next, hwire,
    if_pos hdead, if_pos hsel, he, Option.map_some]

omit h in
/-- The one frame of left has arrived, and been returned. -/
theorem reachable_arrived : ∃ net : Net, net.Reachable ∧ (net.ends .left).accepted = [[7]] ∧ net.Idle .left ∧
    (net.ends .right).app ≠ .dropped ∧ (net.ends .right).taken = [[7]] ∧ acks (net.wire .left) = [] := by
  have hsent := Reachable.step (.step (.step (.step .init
    (a := .move .left (.send [7] false)) rfl) (a := .move .left .take) rfl)
    (a := .move .left .tryRecv) rfl) (a := .move .left (.flush (.ok ()))) rfl
  have hpush : Debatcher.empty.push (encode [⟨false, [7]⟩]) = (.ok [[7]], .empty) :=
    push_encode (by simp) (by simp [Fits, Debatcher.empty, MAX_LOGICAL_FRAME])
  have hhandle : RelayChannel.spawn.handle (.binary [1, 0, 0, 0, 7])
      = { RelayChannel.spawn with phase := .delivering [[7]] } := by
    rw [RelayChannel.handle, show RelayChannel.spawn.debatch.push [1, 0, 0, 0, 7] = _ from hpush]
    rfl
  have hnext := hsent.step (step_next (s := .right) rfl rfl (by decide) hhandle)
  have hcounted := ((hnext.step (a := .move .right .count) rfl).step (a := .move .right .offer) rfl).step
    (a := .move .right (.ack true)) rfl
  exact ⟨_, hcounted.step (a := .move .right .recv) rfl, rfl, ⟨rfl, rfl, rfl, .inl rfl, rfl⟩,
    by rintro ⟨⟩, rfl, rfl⟩

omit h in
theorem relay_refines_fifo_oneFrame : ∃ net : Net, net.Reachable ∧ net.Idle .left ∧
    (net.ends .left).accepted = [[7]] ∧ (net.ends .right).received = [[7]] := by
  obtain ⟨net, h, hacc, hidle, happ, -⟩ := reachable_arrived
  have hall := (relay_refines_fifo.1 net h .left).2.1 happ hidle
  exact ⟨net, h, hidle, hacc, hall.trans hacc⟩

end Net

end B2p
