import B2p.Lib.Runs
import B2p.Relay.Room
import B2p.Session

/-!
# Receivers that wait in one room

Any number of `receive_relay_cli` loops whose codes share a topic, and the room: nobody sends, no
socket fails and no alarm goes off. A join closes the sockets of its role; the loop whose socket was
closed takes that for the end of a wait and dials at once, with its count of refusals back at zero.

* `Lobby`, `Lobby.step` — the loops and the room, one event at a time.
* `Duel` — one loop waits, another is about to dial: two events later they have changed places.
* `bounded_iff` — the number of joins is bounded for one receiver and for no larger number.
-/

namespace B2p

/-- Where a loop is. -/
inductive Loop where
  | dialing (busyRetries : Nat)
  /-- In `connect`, waiting for a peer on the socket `ws`. -/
  | waiting (ws busyRetries : Nat)
  | stopped
  deriving DecidableEq

def Loop.socket : Loop → Option Nat
  | .waiting ws _ => some ws
  | _ => none

/-- The loop after an attempt. -/
def Loop.resume : Receive.Next → Loop
  | .again busyRetries _ => .dialing busyRetries
  | .done _ => .stopped
  | .stop _ => .stopped

/-- … which failed in `connect` with `e`. -/
def Loop.connectFailed (busyRetries : Nat) (e : Anyhow) : Loop :=
  .resume (Receive.next busyRetries (.error (Session.unlessWaitClosed e)))

/-- `n` loops and the room their topic names. -/
structure Lobby (n : Nat) where
  room : Room
  loops : Fin n → Loop

inductive LobbyEvent (n : Nat) where
  | dial (i : Fin n)
  /-- The loop finds that the relay has closed its socket. -/
  | displaced (i : Fin n) (reason : String)
  /-- The deadline of `connect` has passed. -/
  | expired (i : Fin n)
  /-- The room learns that a closed or abandoned socket is gone. -/
  | reaped (ws : Nat)
  deriving DecidableEq

namespace Lobby

variable {n : Nat}

/-- The room holds no open receiver's socket `ws`. -/
def Gone (r : Room) (ws : Nat) : Prop := ∀ s ∈ r.sockets .recv, s.id = ws → s.closed = true

instance (r : Room) (ws : Nat) : Decidable (Gone r ws) :=
  inferInstanceAs (Decidable (∀ s ∈ r.sockets .recv, s.id = ws → s.closed = true))

/-- The request of `dial`. -/
def dialEvent : RoomEvent := .join (some "websocket") (some "recv")

def setLoop (s : Lobby n) (i : Fin n) (l : Loop) : Lobby n :=
  { s with loops := Function.update s.loops i l }

def step (s : Lobby n) : LobbyEvent n → Option (Lobby n)
  | .dial i =>
      match s.loops i with
      | .dialing busyRetries =>
          match s.room.handle dialEvent with
          | .ok _ room => some { s.setLoop i (.waiting s.room.next busyRetries) with room := room }
          | .error _ room => some { s.setLoop i (.connectFailed busyRetries
              (.msg "the relay refused the connection (HTTP 500)")) with room := room }
      | _ => none
  | .displaced i reason =>
      match s.loops i with
      | .waiting ws busyRetries =>
          if Gone s.room ws then some (s.setLoop i (.connectFailed busyRetries (.waitClosed reason)))
          else none
      | _ => none
  | .expired i =>
      match s.loops i with
      | .waiting _ busyRetries => some (s.setLoop i (.connectFailed busyRetries
          (.msg "timed out waiting for the other side — is it running with the same code?")))
      | _ => none
  | .reaped ws =>
      if Gone s.room ws ∨ ∀ i, (s.loops i).socket ≠ some ws then
        some { s with room := s.room.step (.closed .recv ws) }
      else none

def run (s : Lobby n) : List (LobbyEvent n) → Option (Lobby n)
  | [] => some s
  | e :: es => (s.step e).bind fun s => s.run es

/-- Nobody has dialled yet. -/
def start (n : Nat) : Lobby n := ⟨.empty, fun _ => .dialing 0⟩

/-- The number of joins of a run. -/
def joins (es : List (LobbyEvent n)) : Nat :=
  es.countP fun
    | .dial _ => true
    | _ => false

/-- The joins of `n` receivers are bounded by a number that depends on nothing else. -/
def Bounded (n : Nat) : Prop :=
  ∃ bound, ∀ es s, (start n).run es = some s → joins es ≤ bound

theorem runOf : Machines.RunOf (step (n := n)) run := ⟨fun _ => rfl, fun _ _ _ => rfl⟩

theorem joins_append (es fs : List (LobbyEvent n)) : joins (es ++ fs) = joins es + joins fs :=
  List.countP_append

/-! ## What a dial does -/

/-- A well-formed room without senders. -/
structure Quiet (r : Room) : Prop where
  wf : r.Wf
  noSender : r.sockets .send = []

theorem Quiet.dial {r : Room} (h : Quiet r) :
    r.handle dialEvent = .ok () { r.joined .recv with alarm := true } := by
  have hjoin : Room.joinRole (some "websocket") (some "recv") = some .recv := rfl
  have hother : r.sockets Role.recv.other = [] := h.noSender
  rw [dialEvent, Room.handle_join r hjoin]
  dsimp only
  rw [hother]
  rfl

theorem Quiet.joined {r : Room} (h : Quiet r) : Quiet { r.joined .recv with alarm := true } :=
  ⟨(h.wf.joined .recv).congr rfl rfl, (Room.joined_other r .recv).trans h.noSender⟩

/-- The new socket is open, all older ones are closed. -/
theorem gone_joined {r : Room} {ws : Nat} (hws : ws < r.next) :
    Gone { r.joined .recv with alarm := true } ws := by
  intro s hs hid
  rcases List.mem_append.mp ((Room.joined_self r .recv) ▸ hs) with hs | hs
  · obtain ⟨t, -, rfl⟩ := Room.mem_closeAll hs
    rfl
  · obtain rfl := List.mem_singleton.mp hs
    exact absurd hid (Nat.ne_of_gt hws)

/-- The lobby after `i` has dialled. -/
def dialled (s : Lobby n) (i : Fin n) (busyRetries : Nat) : Lobby n where
  room := { s.room.joined .recv with alarm := true }
  loops := Function.update s.loops i (.waiting s.room.next busyRetries)

theorem step_dial {s : Lobby n} (h : Quiet s.room) {i : Fin n} {busyRetries : Nat}
    (hi : s.loops i = .dialing busyRetries) : s.step (.dial i) = some (s.dialled i busyRetries) := by
  unfold step
  simp only [hi, h.dial]
  rfl

/-- **A displaced loop dials again at once**, and forgets how often it was refused. -/
theorem step_displaced {s : Lobby n} {i : Fin n} {ws busyRetries : Nat} {reason : String}
    (hi : s.loops i = .waiting ws busyRetries) (hgone : Gone s.room ws) :
    s.step (.displaced i reason) = some (s.setLoop i (.dialing 0)) := by
  unfold step
  simp only [hi, if_pos hgone]
  rfl

/-! ## Two receivers -/

/-- `a` waits on a socket, `b` is about to dial. -/
structure Duel (a b : Fin n) (s : Lobby n) : Prop where
  quiet : Quiet s.room
  waits : ∃ ws busyRetries, s.loops a = .waiting ws busyRetries ∧ ws < s.room.next
  dials : ∃ busyRetries, s.loops b = .dialing busyRetries

/-- The events of a round. -/
def round (a b : Fin n) : List (LobbyEvent n) :=
  [.dial b, .displaced a "room expired or relay restarted"]

/-- `b` dials, which closes the socket of `a`, and `a` is about to dial. -/
theorem Duel.round {a b : Fin n} {s : Lobby n} (h : Duel a b s) (hab : a ≠ b) :
    ∃ s', s.run (round a b) = some s' ∧ Duel b a s' := by
  obtain ⟨ws, k, ha, hws⟩ := h.waits
  obtain ⟨k', hb⟩ := h.dials
  have ha' : (s.dialled b k').loops a = .waiting ws k :=
    (Function.update_of_ne hab _ _).trans ha
  refine ⟨(s.dialled b k').setLoop a (.dialing 0), ?_, h.quiet.joined, ?_, 0, Function.update_self _ _ _⟩
  · rw [Lobby.round, run, step_dial h.quiet hb, Option.bind_some, run,
      step_displaced ha' (gone_joined hws)]
    rfl
  · refine ⟨s.room.next, k', ?_, Nat.lt_succ_self _⟩
    exact (Function.update_of_ne (Ne.symm hab) _ _).trans (Function.update_self _ _ _)

/-- Round after round. -/
theorem Duel.rounds (k : Nat) {a b : Fin n} (hab : a ≠ b) {s : Lobby n} (h : Duel a b s) :
    ∃ es s', s.run es = some s' ∧ joins es = k := by
  induction k generalizing a b s with
  | zero => exact ⟨[], s, rfl, rfl⟩
  | succ k ih =>
      obtain ⟨s₁, h₁, hduel⟩ := h.round hab
      obtain ⟨es, s₂, h₂, hk⟩ := ih (Ne.symm hab) hduel
      refine ⟨Lobby.round a b ++ es, s₂, ?_, ?_⟩
      · rw [runOf.append, h₁]
        exact h₂
      · rw [joins_append, hk]
        exact Nat.add_comm 1 k

theorem not_bounded (hn : 2 ≤ n) : ¬ Bounded n := by
  rintro ⟨bound, hbound⟩
  let a : Fin n := ⟨0, by omega⟩
  let b : Fin n := ⟨1, by omega⟩
  have hab : a ≠ b := by simp [a, b]
  have hquiet : Quiet (start n).room := ⟨Room.wf_empty, rfl⟩
  -- the first one dials
  have hduel : Duel a b ((start n).dialled a 0) := by
    refine ⟨hquiet.joined, ⟨0, 0, ?_, Nat.one_pos⟩, 0, ?_⟩
    · simp [dialled, start, Room.empty]
    · simp [dialled, start, Function.update_of_ne (Ne.symm hab)]
  obtain ⟨es, s', hrun, hk⟩ := hduel.rounds (bound + 1) hab
  have hle := hbound (.dial a :: es) s' (by
    rw [run, step_dial hquiet rfl]
    exact hrun)
  have hjoins : joins (.dial a :: es) = joins es + 1 := List.countP_cons_of_pos rfl
  omega

/-! ## One receiver -/

/-- A single receiver after `k` joins: it has not dialled yet, or its one socket is open. -/
structure Alone (k : Nat) (s : Lobby n) : Prop where
  quiet : Quiet s.room
  loops : ∀ i, match s.loops i with
    | .dialing _ => k = 0
    | .waiting ws _ => k ≤ 1 ∧ ¬ Gone s.room ws
    | .stopped => k ≤ 1
  le : k ≤ n

theorem sockets_reaped (r : Room) (ws : Nat) : (r.step (.closed .recv ws)).sockets = r.sockets ∨
    (r.step (.closed .recv ws)).sockets = (r.unlist .recv ws).sockets := by
  have h := Room.outcome r (.closed .recv ws)
  generalize r.step (.closed .recv ws) = r' at h ⊢
  cases h with
  | idle => exact .inl rfl
  | leftQuietly he =>
      rcases he with he | he
      · cases he
        exact .inr rfl
      · cases he
  | left he =>
      rcases he with he | he
      · cases he
        exact .inr rfl
      · cases he

theorem Quiet.reaped {r : Room} (h : Quiet r) (ws : Nat) : Quiet (r.step (.closed .recv ws)) := by
  refine ⟨h.wf.step _, ?_⟩
  rcases sockets_reaped r ws with heq | heq
  · rw [heq, h.noSender]
  · rw [heq]
    exact (Room.unlist_other r .recv ws).trans h.noSender

/-- Forgetting a closed or abandoned socket leaves the open ones. -/
theorem gone_reaped {r : Room} {ws ws' : Nat} (h : ¬ Gone r ws') (hws : Gone r ws ∨ ws ≠ ws') :
    ¬ Gone (r.step (.closed .recv ws)) ws' := by
  intro hgone
  apply h
  intro s hs hid
  rcases sockets_reaped r ws with heq | heq
  · exact hgone s (heq ▸ hs) hid
  · have hne : ws ≠ ws' := by
      rcases hws with hws | hne
      · exact fun heq => h (heq ▸ hws)
      · exact hne
    refine hgone s ?_ hid
    rw [heq, Room.unlist_self, List.mem_filter]
    exact ⟨hs, by simpa [hid] using Ne.symm hne⟩

theorem Alone.dial {k : Nat} {s : Lobby n} (hn : n ≤ 1) (h : Alone k s) {i : Fin n} {busyRetries : Nat}
    (hi : s.loops i = .dialing busyRetries) : Alone (k + 1) (s.dialled i busyRetries) := by
  have hk : k = 0 := by
    have := h.loops i
    rwa [hi] at this
  refine ⟨h.quiet.joined, ?_, by have := i.isLt; omega⟩
  intro j
  obtain rfl : j = i := Fin.ext (by omega)
  rw [show (s.dialled j busyRetries).loops j = _ from Function.update_self _ _ _]
  refine ⟨by omega, fun hgone => ?_⟩
  -- the new socket is the open one
  have hmem : (⟨s.room.next, false⟩ : Socket) ∈ (s.room.joined .recv).sockets .recv := by
    rw [Room.joined_self]
    simp
  cases hgone _ hmem rfl

theorem connectFailed_msg (busyRetries : Nat) (text : String) :
    Loop.connectFailed busyRetries (.msg text) = .stopped := by
  simp [Loop.connectFailed, Session.unlessWaitClosed, Anyhow.root, Receive.next, Loop.resume]

theorem Alone.step {k : Nat} {s s' : Lobby n} (hn : n ≤ 1) (h : Alone k s) {e : LobbyEvent n}
    (hs : s.step e = some s') : Alone (k + joins [e]) s' := by
  cases e with
  | dial i =>
      cases hi : s.loops i with
      | dialing busyRetries =>
          rw [step_dial h.quiet hi, Option.some.injEq] at hs
          exact hs ▸ h.dial hn hi
      | waiting ws busyRetries => simp [Lobby.step, hi] at hs
      | stopped => simp [Lobby.step, hi] at hs
  | displaced i reason =>
      cases hi : s.loops i with
      | waiting ws busyRetries =>
          -- nobody closed its socket
          have hopen := h.loops i
          rw [hi] at hopen
          simp [Lobby.step, hi, hopen.2] at hs
      | dialing busyRetries => simp [Lobby.step, hi] at hs
      | stopped => simp [Lobby.step, hi] at hs
  | expired i =>
      cases hi : s.loops i with
      | waiting ws busyRetries =>
          have hopen := h.loops i
          rw [hi] at hopen
          simp only [Lobby.step, hi, Option.some.injEq] at hs
          subst hs
          -- its patience is over, and it dials again without a busy answer
          refine ⟨h.quiet, ?_, h.le⟩
          intro j
          obtain rfl : j = i := Fin.ext (by omega)
          rw [show (s.setLoop j _).loops j = _ from Function.update_self _ _ _, connectFailed_msg]
          exact hopen.1
      | dialing busyRetries => simp [Lobby.step, hi] at hs
      | stopped => simp [Lobby.step, hi] at hs
  -- a socket is reaped once it is closed, or no loop waits on it
  | reaped ws =>
      unfold Lobby.step at hs
      dsimp only at hs
      split at hs
      · next hws =>
          cases hs
          refine ⟨h.quiet.reaped ws, ?_, h.le⟩
          intro j
          have hj := h.loops j
          cases hl : s.loops j with
          | dialing busyRetries => simpa [hl, joins] using hj
          | stopped => simpa [hl, joins] using hj
          | waiting ws' busyRetries =>
              rw [hl] at hj
              refine ⟨hj.1, gone_reaped hj.2 ?_⟩
              rcases hws with hws | hws
              · exact .inl hws
              · refine .inr fun heq => hws j ?_
                rw [hl, heq]
                rfl
      · cases hs

/-- **The joins of receivers that share a room are bounded only if there is at most one.** -/
theorem bounded_iff (n : Nat) : Bounded n ↔ n ≤ 1 := by
  constructor
  · intro h
    by_contra hn
    exact not_bounded (by omega) h
  · intro hn
    refine ⟨n, ?_⟩
    -- as many sockets as there were joins, from any state on
    suffices hgen : ∀ es (s s' : Lobby n) k, Alone k s → s.run es = some s' → k + joins es ≤ n by
      intro es s hrun
      have := hgen es (start n) s 0 ⟨⟨Room.wf_empty, rfl⟩, fun _ => rfl, Nat.zero_le n⟩ hrun
      omega
    intro es
    induction es with
    | nil => exact fun s s' k h _ => h.le
    | cons e es ih =>
        intro s s' k h hrun
        obtain ⟨s₁, hs₁, hrun⟩ := Option.bind_eq_some_iff.mp hrun
        have hle := ih s₁ s' _ (h.step hn hs₁) hrun
        have hjoins : joins (e :: es) = joins [e] + joins es := joins_append [e] es
        omega

/-- Two receivers whose codes share a topic can displace each other any number of times. -/
theorem not_bounded_two : ¬ ∃ bound : Nat → Nat, ∀ n es s, (start n).run es = some s → joins es ≤ bound n := by
  rintro ⟨bound, h⟩
  exact not_bounded (le_refl 2) ⟨bound 2, h 2⟩

end Lobby
end B2p
