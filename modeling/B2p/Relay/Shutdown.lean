import B2p.Lib.Runs
import B2p.Relay.Fifo

/-!
# What is written before the socket is closed

`io_task` begins to close for three reasons: a `Close` from `close()`, the end of the outbound queue
after the channel was dropped, and an inbound frame that nobody takes any more. Frames accepted by `send`
may then still be in the outbound queue or in `pending`. One endpoint is looked at here; what comes from
the socket is arbitrary.

* `Sending`, `Sending.Step` — what an endpoint keeps about sending and closing, and the rules by which
  its steps change that (`RelayChannel.sending_step`).
* `RelayChannel.Meets` — the third reason does not come up while an accepted frame waits in the outbound
  queue.
* `flushed_of_allMeet` — in every run that meets this, all accepted frames are written when the socket is
  closed.
* `drop_loses_frame` — a run that does not, and loses one.
-/

namespace B2p

open Framing

/-- What an endpoint keeps about sending and closing. -/
structure Sending where
  app : AppEnd
  outQueue : List OutMsg
  pending : List Bytes
  closing : Bool
  accepted : List Bytes
  dead : Option String

@[reducible] def RelayChannel.sending (e : RelayChannel) : Sending :=
  ⟨e.app, e.outQueue, e.pending, e.closing, e.accepted, e.dead⟩

/-- `Sending.Step s s' ps`: a step which writes the payloads `ps`. -/
inductive Sending.Step (s : Sending) : Sending → List Bytes → Prop where
  | stutter : Step s s []
  | accept (f : Bytes) (happ : s.app = .live) (hlen : f.length ≤ MAX_LOGICAL_FRAME) :
      Step s { s with outQueue := s.outQueue ++ [.frame f], accepted := s.accepted ++ [f] } []
  | close (happ : s.app = .live) : Step s { s with app := .closing, outQueue := s.outQueue ++ [.close] } []
  | closeDead : Step s { s with app := .closing } []
  | drop : Step s { s with app := .dropped } []
  | flush {payload : Bytes} {rest : List Bytes} (hpack : packFrames s.pending = (some payload, rest)) :
      Step s { s with pending := rest } [payload]
  | take {f : Bytes} {rest : List OutMsg} (hq : s.outQueue = .frame f :: rest) :
      Step s { s with outQueue := rest, pending := s.pending ++ [f] } []
  | takeClose {rest : List OutMsg} (hq : s.outQueue = .close :: rest) :
      Step s { s with outQueue := rest, closing := true } []
  | wind (happ : s.app = .dropped) (hq : outFrames s.outQueue = []) : Step s { s with closing := true } []
  | shut (hpack : (packFrames s.pending).1 = none) (hclosing : s.closing = true) :
      Step s { s with dead := some "closed" } []
  | die (reason : String) (hreason : reason ≠ "closed") : Step s { s with dead := some reason } []

namespace RelayChannel

variable {e e' : RelayChannel} {incoming incoming' out : List WsMessage}

/-- No inbound frame finds its consumer gone while an accepted frame is in the outbound queue. -/
def Meets (e : RelayChannel) : Act → Prop
  | .offer => e.app = .dropped → outFrames e.outQueue = []
  | _ => True

/-! ## The steps of an endpoint -/

theorem append_ne {a b c : String} (h : ¬ a.toList <+: c.toList) : a ++ b ≠ c := by
  rintro rfl
  exact h (by simp)

theorem sending_send {f : Bytes} {stalled : Bool} {res : Except Anyhow Unit} (happ : e.app = .live)
    (h : e.send f stalled = some (res, e')) : e.sending.Step e'.sending [] := by
  rw [send] at h
  split at h
  · cases h
    exact .stutter
  · next hlen =>
    split at h
    · split at h
      · cases h
        exact .stutter
      · cases h
        exact .accept f happ (not_lt.mp hlen)
    · split at h
      · cases h
        exact .stutter
      · split at h
        · cases h
          exact .stutter
        · cases h

theorem sending_appStep {a : Act} (h : e.appStep a = some e') : e.sending.Step e'.sending [] := by
  cases a with
  | send f stalled =>
      rw [appStep] at h
      split at h
      · next happ =>
          obtain ⟨⟨res, e₁⟩, hsend, rfl⟩ := Option.map_eq_some_iff.mp h
          exact sending_send happ hsend
      · cases h
  -- nothing `recv` touches counts here
  | recv =>
      rw [appStep] at h
      split at h
      · obtain ⟨⟨res, e₁⟩, hrecv, rfl⟩ := Option.map_eq_some_iff.mp h
        rw [recv] at hrecv
        split at hrecv
        · cases hrecv
          exact .stutter
        · split at hrecv
          · cases hrecv
            exact .stutter
          · cases hrecv
      · cases h
  | close =>
      rw [appStep] at h
      split at h
      · next happ =>
          cases h
          by_cases hdead : e.dead.isSome
          · simp only [sending, hdead, if_true]
            exact .closeDead
          · simp only [sending, hdead]
            exact .close happ
      · cases h
  | drop =>
      rw [appStep] at h
      split at h
      · cases h
        exact .drop
      · cases h
  | _ => cases h

theorem sending_take (h : e.take = some e') : e.sending.Step e'.sending [] := by
  rw [take] at h
  split at h
  · split at h
    · next f rest hq =>
        cases h
        exact .take hq
    · next rest hq =>
        cases h
        exact .takeClose hq
    · next hq =>
        split at h
        · next happ =>
            cases h
            exact .wind happ (congrArg outFrames hq)
        · cases h
  · cases h

theorem sending_tryRecv (h : e.tryRecv = some e') : e.sending.Step e'.sending [] := by
  rw [tryRecv] at h
  split at h
  · split at h
    · next f rest hq =>
        cases h
        exact .take hq
    · next rest hq =>
        cases h
        exact .takeClose hq
    · cases h
      exact .stutter
  · cases h

theorem sending_next (h : e.next incoming = some (e', incoming')) : e.sending.Step e'.sending [] := by
  unfold next at h
  split at h
  · cases h
  · next m rest =>
      split at h
      · cases h
        cases m with
        -- a message may end the task, never with the reason a shutdown has
        | binary b =>
            rw [handle]
            split
            · exact .stutter
            · exact .die _ (append_ne (by decide))
        | text c =>
            cases c with
            | ack n => exact .stutter
            | peerLeft => exact .die _ (by decide)
            | peerJoined => exact .stutter
            | pong => exact .stutter
        | close => exact .die _ (by decide)
      · cases h

theorem sending_offer (hm : e.Meets .offer) (h : e.offer = some e') : e.sending.Step e'.sending [] := by
  rw [offer] at h
  split at h
  · split at h
    · next happ =>
        cases h
        exact .wind happ (hm happ)
    · split at h
      · cases h
        exact .stutter
      · cases h
  · cases h

theorem sending_ioStep {a : Act} (hm : e.Meets a) (h : e.ioStep incoming a = some (e', incoming', out)) :
    e.sending.Step e'.sending (payloads out) := by
  cases a with
  -- what leaves the queue goes to the socket, or the task ends with the error of the write
  | flush res =>
      obtain ⟨⟨e₁, out₁⟩, h₁, heq⟩ := Option.map_eq_some_iff.mp h
      cases heq
      rw [flush] at h₁
      split at h₁
      · next payload rest _ hpack =>
          cases res with
          | ok u =>
              cases h₁
              exact .flush hpack
          | error err =>
              cases h₁
              exact .die _ (append_ne (by decide))
      · cases h₁
  -- the one step that ends the task on purpose
  | shut =>
      obtain ⟨e₁, h₁, heq⟩ := Option.map_eq_some_iff.mp h
      cases heq
      rw [shut] at h₁
      split at h₁
      · next hshut =>
          cases h₁
          exact .shut hshut.2.1 hshut.2.2
      · cases h₁
  | take =>
      obtain ⟨e₁, h₁, heq⟩ := Option.map_eq_some_iff.mp h
      cases heq
      exact sending_take h₁
  | tryRecv =>
      obtain ⟨e₁, h₁, heq⟩ := Option.map_eq_some_iff.mp h
      cases heq
      exact sending_tryRecv h₁
  | ping ok =>
      obtain ⟨e₁, h₁, heq⟩ := Option.map_eq_some_iff.mp h
      cases heq
      rw [ping] at h₁
      split at h₁
      · split at h₁
        · cases h₁
          exact .stutter
        · cases h₁
          exact .die _ (by decide)
      · cases h₁
  | next =>
      obtain ⟨⟨e₁, inc₁⟩, h₁, heq⟩ := Option.map_eq_some_iff.mp h
      cases heq
      exact sending_next h₁
  -- the socket ended, and with it the task
  | hangUp err =>
      obtain ⟨e₁, h₁, heq⟩ := Option.map_eq_some_iff.mp h
      cases heq
      unfold hangUp at h₁
      split at h₁
      · cases err with
        | some err =>
            cases h₁
            exact .die _ (append_ne (by decide))
        | none =>
            cases h₁
            exact .die _ (by decide)
      · cases h₁
  | count =>
      obtain ⟨e₁, h₁, heq⟩ := Option.map_eq_some_iff.mp h
      cases heq
      rw [count] at h₁
      split at h₁
      · cases h₁
        exact .stutter
      · cases h₁
  -- the run meets the condition that no frame is offered to a program that has dropped its end
  | offer =>
      obtain ⟨e₁, h₁, heq⟩ := Option.map_eq_some_iff.mp h
      cases heq
      exact sending_offer hm h₁
  | ack ok =>
      obtain ⟨⟨e₁, out₁⟩, h₁, heq⟩ := Option.map_eq_some_iff.mp h
      cases heq
      rw [ack] at h₁
      split at h₁
      · split at h₁
        · split at h₁
          · cases h₁
            exact .stutter
          · cases h₁
            exact .die _ (by decide)
        · cases h₁
          exact .stutter
      · cases h₁
  | _ => cases h

/-- **What a step does about sending and closing.** -/
theorem sending_step {a : Act} (hm : e.Meets a) (h : e.step incoming a = some (e', incoming', out)) :
    e.sending.Step e'.sending (payloads out) := by
  rw [step] at h
  split at h
  · next e₁ happ =>
      cases h
      exact sending_appStep happ
  · split at h
    · exact sending_ioStep hm h
    · cases h

end RelayChannel

/-! ## What has been written -/

/-- The queues, the closing flag and the payloads written so far. -/
structure Sending.Inv (s : Sending) (written : List Bytes) : Prop where
  /-- What was accepted has been written, waits in `pending`, or waits in the outbound queue. -/
  pieces : ∃ ms : List (List (Piece UInt8)), written = ms.map encode ∧
    (∀ ps ∈ ms, ∀ p ∈ ps, p.items.length < 2 ^ 31) ∧
    s.accepted = (reassemble [] ms.flatten).1 ++ resume (reassemble [] ms.flatten).2 s.pending ++
      outFrames s.outQueue ∧
    (s.pending = [] → (reassemble [] ms.flatten).2 = [])
  frames : ∀ f ∈ s.accepted, f.length ≤ MAX_LOGICAL_FRAME
  /-- A `Close` is the last message, and none is there while the application may still send. -/
  queue : ∃ fs : List Bytes, s.outQueue = fs.map .frame ∨
    (s.app ≠ .live ∧ s.outQueue = fs.map .frame ++ [.close])
  /-- While the task is closing no frame is left in the outbound queue, and none can be added. -/
  closing : s.closing = true → s.app ≠ .live ∧ outFrames s.outQueue = []
  closed : s.dead = some "closed" → s.closing = true ∧ s.pending = []

namespace Sending

variable {s s' : Sending} {written ps : List Bytes}

theorem inv_spawn : RelayChannel.spawn.sending.Inv [] where
  pieces := ⟨[], rfl, by simp, rfl, fun _ => rfl⟩
  frames := by simp [RelayChannel.spawn]
  queue := ⟨[], .inl rfl⟩
  closing := by simp [RelayChannel.spawn]
  closed := by simp [RelayChannel.spawn]

theorem Inv.queue_live (h : s.Inv written) (happ : s.app = .live) :
    ∃ fs : List Bytes, s.outQueue = fs.map .frame := by
  obtain ⟨fs, hq | ⟨hne, -⟩⟩ := h.queue
  · exact ⟨fs, hq⟩
  · exact absurd happ hne

/-- `send`. -/
theorem Inv.accept (h : s.Inv written) {f : Bytes} (happ : s.app = .live)
    (hlen : f.length ≤ MAX_LOGICAL_FRAME) :
    Inv { s with outQueue := s.outQueue ++ [.frame f], accepted := s.accepted ++ [f] } written := by
  refine ⟨?_, ?_, ?_, fun hcl => absurd happ (h.closing hcl).1, h.closed⟩
  · obtain ⟨ms, hw, hsmall, hacc, hbuf⟩ := h.pieces
    refine ⟨ms, hw, hsmall, ?_, hbuf⟩
    show s.accepted ++ [f] = _
    rw [outFrames_append, ← List.append_assoc, ← hacc]
    rfl
  · intro g hg
    rcases List.mem_append.mp hg with hg | hg
    · exact h.frames g hg
    · rw [List.mem_singleton.mp hg]
      exact hlen
  · obtain ⟨fs, hq⟩ := h.queue_live happ
    refine ⟨fs ++ [f], .inl ?_⟩
    show s.outQueue ++ _ = _
    rw [hq, List.map_append]
    rfl

/-- `close()`. -/
theorem Inv.close (h : s.Inv written) (happ : s.app = .live) :
    Inv { s with app := .closing, outQueue := s.outQueue ++ [.close] } written := by
  have hno : outFrames (s.outQueue ++ [.close]) = outFrames s.outQueue := by
    rw [outFrames_append]
    exact List.append_nil _
  refine ⟨?_, h.frames, ?_, fun hcl => absurd happ (h.closing hcl).1, h.closed⟩
  · obtain ⟨ms, hw, hsmall, hacc, hbuf⟩ := h.pieces
    refine ⟨ms, hw, hsmall, ?_, hbuf⟩
    show s.accepted = _
    rw [hno]
    exact hacc
  · obtain ⟨fs, hq⟩ := h.queue_live happ
    refine ⟨fs, .inr ⟨by simp, ?_⟩⟩
    show s.outQueue ++ _ = _
    rw [hq]

/-- The application has less of its channel than before. -/
theorem Inv.release (h : s.Inv written) {app : AppEnd} (happ : app ≠ .live) : Inv { s with app } written where
  pieces := h.pieces
  frames := h.frames
  queue := by
    obtain ⟨fs, hq | ⟨-, hq⟩⟩ := h.queue
    · exact ⟨fs, .inl hq⟩
    · exact ⟨fs, .inr ⟨happ, hq⟩⟩
  closing hcl := ⟨happ, (h.closing hcl).2⟩
  closed := h.closed

/-- `pack_frames` and `ws.send`. -/
theorem Inv.flush (h : s.Inv written) {payload : Bytes} {rest : List Bytes}
    (hpack : packFrames s.pending = (some payload, rest)) :
    Inv { s with pending := rest } (written ++ [payload]) := by
  obtain ⟨ms, hw, hsmall, hacc, hbuf⟩ := h.pieces
  rcases packFrames_cut s.pending with ⟨-, hnone⟩ | ⟨qs, rest', hne, hsome, hcut, -, -, hsmall', -⟩
  · rw [hnone] at hpack
    cases hpack
  · rw [hsome] at hpack
    cases hpack
    have hflat : reassemble [] (ms ++ [qs]).flatten
        = ((reassemble [] ms.flatten).1 ++ (reassemble (reassemble [] ms.flatten).2 qs).1,
          (reassemble (reassemble [] ms.flatten).2 qs).2) := by
      rw [List.flatten_append, List.flatten_singleton, reassemble_append]
    refine ⟨⟨ms ++ [qs], ?_, ?_, ?_, ?_⟩, h.frames, h.queue, h.closing, ?_⟩
    · rw [hw, List.map_append]
      rfl
    · intro ps hps
      rcases List.mem_append.mp hps with hps | hps
      · exact hsmall ps hps
      · rw [List.mem_singleton.mp hps]
        exact hsmall'
    · rw [hflat, List.append_assoc _ _ (resume _ _), hcut.resume]
      exact hacc
    · rw [hflat]
      exact hcut.buffer hbuf
    -- a task that has ended on purpose had nothing left to flush
    · intro hdead
      exact absurd (h.closed hdead).2 hne

/-- A frame goes from the outbound queue to `pending`. -/
theorem Inv.take (h : s.Inv written) {f : Bytes} {rest : List OutMsg} (hq : s.outQueue = .frame f :: rest) :
    Inv { s with outQueue := rest, pending := s.pending ++ [f] } written := by
  -- once it is closing there is no frame in the queue
  have hopen : s.closing ≠ true := by
    intro hcl
    have hnone := (h.closing hcl).2
    rw [hq] at hnone
    cases hnone
  refine ⟨?_, h.frames, ?_, fun hcl => absurd hcl hopen, fun hdead => absurd (h.closed hdead).1 hopen⟩
  · obtain ⟨ms, hw, hsmall, hacc, hbuf⟩ := h.pieces
    refine ⟨ms, hw, hsmall, ?_, by simp⟩
    show s.accepted = _
    rw [hacc, hq, resume_append hbuf]
    simp [outFrames]
  -- the frame was the first, in both forms the queue can have
  · obtain ⟨fs, hfs | ⟨happ, hfs⟩⟩ := h.queue
    · rw [hq] at hfs
      cases fs with
      | nil => cases hfs
      | cons g fs =>
          rw [List.map_cons, List.cons.injEq] at hfs
          exact ⟨fs, .inl hfs.2⟩
    · rw [hq] at hfs
      cases fs with
      | nil => cases hfs
      | cons g fs =>
          rw [List.map_cons, List.cons_append, List.cons.injEq] at hfs
          exact ⟨fs, .inr ⟨happ, hfs.2⟩⟩

/-- The `Close` is at the head of the outbound queue only when nothing else is in it. -/
theorem Inv.takeClose (h : s.Inv written) {rest : List OutMsg} (hq : s.outQueue = .close :: rest) :
    Inv { s with outQueue := rest, closing := true } written := by
  obtain ⟨fs, hfs | ⟨happ, hfs⟩⟩ := h.queue
  · rw [hq] at hfs
    cases fs with
    | nil => cases hfs
    | cons g fs => cases hfs
  · rw [hq] at hfs
    have hrest : rest = [] := by
      cases fs with
      | nil => exact (List.cons.inj hfs).2
      | cons g fs => cases hfs
    subst hrest
    obtain ⟨ms, hw, hsmall, hacc, hbuf⟩ := h.pieces
    refine ⟨⟨ms, hw, hsmall, ?_, hbuf⟩, h.frames, ⟨[], .inl rfl⟩, fun _ => ⟨happ, rfl⟩, ?_⟩
    · show s.accepted = _
      rw [hacc, hq]
      rfl
    · intro hdead
      exact ⟨rfl, (h.closed hdead).2⟩

/-- **Every step keeps it.** -/
theorem Inv.step (h : s.Inv written) (hs : s.Step s' ps) : s'.Inv (written ++ ps) := by
  cases hs with
  -- the only step that writes
  | flush hpack => exact h.flush hpack
  | stutter =>
      rw [List.append_nil]
      exact h
  | accept f happ hlen =>
      rw [List.append_nil]
      exact h.accept happ hlen
  | close happ =>
      rw [List.append_nil]
      exact h.close happ
  | closeDead | drop =>
      rw [List.append_nil]
      exact h.release (by simp)
  | take hq =>
      rw [List.append_nil]
      exact h.take hq
  | takeClose hq =>
      rw [List.append_nil]
      exact h.takeClose hq
  | wind happ hq =>
      rw [List.append_nil]
      refine ⟨h.pieces, h.frames, h.queue, fun _ => ⟨?_, hq⟩, fun hdead => ⟨rfl, (h.closed hdead).2⟩⟩
      rw [happ]
      simp
  | shut hpack hclosing =>
      rw [List.append_nil]
      refine ⟨h.pieces, h.frames, h.queue, h.closing, fun _ => ⟨hclosing, ?_⟩⟩
      exact (packFrames_eq_none (Prod.ext hpack rfl)).1
  -- the task did not end on purpose
  | die reason hreason =>
      rw [List.append_nil]
      refine ⟨h.pieces, h.frames, h.queue, h.closing, fun hdead => ?_⟩
      exact absurd (Option.some.inj hdead) hreason

/-- Once the task has closed the socket, what is written is what was accepted. -/
theorem Inv.flushed (h : s.Inv written) (hdead : s.dead = some "closed") :
    Debatcher.empty.pushAll written = (.ok s.accepted, .empty) := by
  obtain ⟨ms, hw, hsmall, hacc, hbuf⟩ := h.pieces
  obtain ⟨hcl, hpending⟩ := h.closed hdead
  have hnil := hbuf hpending
  rw [hpending, hnil, (h.closing hcl).2, resume_nil, List.append_nil, List.append_nil] at hacc
  rw [hw]
  refine pushAll_of_bound hsmall (Prod.ext hacc.symm hnil) h.frames ?_
  simp

end Sending

/-! ## Runs -/

/-- An endpoint, the messages on the way to it, and everything it has written. -/
structure IoTask where
  ch : RelayChannel
  incoming : List WsMessage
  written : List WsMessage

namespace IoTask

/-- A message comes from the relay, or the endpoint takes a step. -/
inductive Event where
  | arrive (m : WsMessage)
  | act (a : RelayChannel.Act)

def start : IoTask := ⟨.spawn, [], []⟩

def step (t : IoTask) : Event → Option IoTask
  | .arrive m => some { t with incoming := t.incoming ++ [m] }
  | .act a => (t.ch.step t.incoming a).map fun r => ⟨r.1, r.2.1, t.written ++ r.2.2⟩

def run (t : IoTask) : List Event → Option IoTask
  | [] => some t
  | ev :: evs => (t.step ev).bind fun t => t.run evs

def Meets (t : IoTask) : Event → Prop
  | .arrive _ => True
  | .act a => t.ch.Meets a

/-- Every step of the run meets the condition where it is taken. -/
def AllMeet (t : IoTask) : List Event → Prop
  | [] => True
  | ev :: evs => t.Meets ev ∧ ∀ t', t.step ev = some t' → t'.AllMeet evs

/-- What the other side reads from what was written is every frame accepted, in order, and no rest. -/
def Flushed (t : IoTask) : Prop :=
  Debatcher.empty.pushAll (payloads t.written) = (.ok t.ch.accepted, .empty)

def Inv (t : IoTask) : Prop := t.ch.sending.Inv (payloads t.written)

variable {t t' : IoTask}

theorem Inv.step (h : t.Inv) {ev : Event} (hm : t.Meets ev) (hs : t.step ev = some t') : t'.Inv := by
  cases ev with
  | arrive m =>
      cases hs
      exact h
  | act a =>
      obtain ⟨⟨ch, incoming, out⟩, hstep, rfl⟩ := Option.map_eq_some_iff.mp hs
      show ch.sending.Inv (payloads (t.written ++ out))
      rw [payloads_append]
      exact Sending.Inv.step h (RelayChannel.sending_step hm hstep)

theorem runOf : Machines.RunOf step run := ⟨fun _ => rfl, fun _ _ _ => rfl⟩

theorem Inv.run (h : t.Inv) {evs : List Event} (hm : t.AllMeet evs) (hr : t.run evs = some t') : t'.Inv :=
  runOf.invariant_of_all ⟨fun _ _ _ => id⟩ (fun _ _ _ h => h.step) h hm hr

theorem inv_start : start.Inv := Sending.inv_spawn

/-- **Clean shutdown flushes**, in every run in which no received frame finds its consumer gone while an
accepted frame is in the outbound queue. -/
theorem flushed_of_allMeet {evs : List Event} (hm : start.AllMeet evs) (hr : start.run evs = some t)
    (hdead : t.ch.dead = some "closed") : t.Flushed :=
  Sending.Inv.flushed (inv_start.run hm hr) hdead

/-- An application that sends and closes. -/
def closes : List Event :=
  [.act (.send [1] false), .act .close, .act .take, .act .tryRecv, .act (.flush (.ok ())), .act .shut]

/-- Its frame is written. -/
theorem flushed_of_allMeet_closes : ∃ t, start.run closes = some t ∧ t.ch.accepted = [[1]] ∧
    t.Flushed := by
  have hm : start.AllMeet closes := by
    simp [closes, AllMeet, Meets, RelayChannel.Meets]
  have hrun : ∃ t, start.run closes = some t ∧ t.ch.accepted = [[1]] ∧ t.ch.dead = some "closed" :=
    ⟨_, rfl, rfl, rfl⟩
  obtain ⟨t, hr, hacc, hdead⟩ := hrun
  exact ⟨t, hr, hacc, flushed_of_allMeet hm hr hdead⟩

/-- A frame has been accepted, and is still in the outbound queue; one of the peer's is on the way. -/
def crossing : IoTask where
  ch := { RelayChannel.spawn with sent := 1, outQueue := [.frame [1]], accepted := [[1]] }
  incoming := [.binary (encode [⟨false, [2]⟩])]
  written := []

/-- The task has the peer's message at hand. -/
def crossed : IoTask where
  ch := { crossing.ch with phase := .delivering [[2]] }
  incoming := []
  written := []

theorem step_crossing : crossing.step (.act .next) = some crossed := by
  have hpush : crossing.ch.debatch.push (encode [⟨false, [2]⟩]) = (.ok [[2]], ⟨[]⟩) :=
    push_encode (by simp) (by simp [Fits, crossing, RelayChannel.spawn, Debatcher.empty, MAX_LOGICAL_FRAME])
  have hhandle : crossing.ch.handle (.binary (encode [⟨false, [2]⟩])) = crossed.ch := by
    simp only [RelayChannel.handle, hpush]
    rfl
  have hnext : crossing.ch.next crossing.incoming = some (crossed.ch, []) := by
    rw [← hhandle]
    rfl
  have hstep : crossing.ch.step crossing.incoming .next = some (crossed.ch, [], []) := by
    have hdead : crossing.ch.dead = none := rfl
    simp [RelayChannel.step, RelayChannel.appStep, RelayChannel.ioStep, hdead, hnext]
  rw [step, hstep]
  rfl

/-- **A drop can lose a frame**: the channel is dropped while the peer's frame is at hand, and nothing
of what `send` accepted is written before the socket is closed. -/
theorem drop_loses_frame : ∃ evs t, start.run evs = some t ∧ t.ch.dead = some "closed" ∧
    t.ch.accepted = [[1]] ∧ t.written = [] ∧ ¬ t.Flushed := by
  have hsent : start.run [.act (.send [1] false), .arrive (.binary (encode [⟨false, [2]⟩]))]
      = some crossing := rfl
  have hrun : ∃ t, start.run ([.act (.send [1] false), .arrive (.binary (encode [⟨false, [2]⟩]))] ++
      .act .next :: [.act .drop, .act .count, .act .offer, .act (.ack true), .act .shut]) = some t ∧
      t.ch.dead = some "closed" ∧ t.ch.accepted = [[1]] ∧ t.written = [] := by
    rw [runOf.append, hsent, Option.bind_some, run, step_crossing, Option.bind_some]
    exact ⟨_, rfl, rfl, rfl, rfl⟩
  obtain ⟨t, hr, hdead, hacc, hw⟩ := hrun
  refine ⟨_, t, hr, hdead, hacc, hw, ?_⟩
  -- nothing written is read as no frame
  intro h
  rw [Flushed, hw, hacc] at h
  cases h

end IoTask

end B2p
