import B2p.Protocol
import B2p.Lib.Runs

/-!
# The channel over a data channel (`WebRtcChannel`)

`send` and `recv` on one side; on the other the handlers of the data channel and of the peer connection,
which run when they like. They share a flag, a `Notify` and a bounded queue. The peer connection may
never finish a `send` once the peer is dead, and never closes the queue, so that a close that goes
unnoticed is a call that never returns.

* `Channel`, `Act`, `Channel.step` — every atomic step of the owner's calls, of the handlers, and of
  what lies outside.
* `Wired` — the invariant.
* `no_hang` — once a close was noticed, a call returns, whatever the outside does or leaves undone.
* `received_in_order` — what `recv` returns.
-/

namespace B2p
namespace Webrtc

/-- What goes through the queue. -/
inductive Item where
  | msg (m : Bytes)
  | closed
  deriving DecidableEq

/-- `mpsc::channel::<Item>(64)`. -/
def capacity : Nat := 64

def closedByPeer : Anyhow := .msg "data channel closed by peer"

/-- How far the call is that the owner is in. -/
inductive Call where
  | idle
  /-- `send`: the `Notified` is made, but it is not a waiter yet. -/
  | entered (msg : Bytes)
  /-- `send`: it is a waiter, and the flag is not read yet. -/
  | enabled (msg : Bytes)
  /-- `send`: in the `select!`. -/
  | sending (msg : Bytes)
  | receiving
  deriving DecidableEq

inductive Return where
  | sent (r : Except Anyhow Unit)
  | received (r : Except Anyhow Bytes)

/-- A channel and its handlers. A handler that pushes to the queue asks for a permit, in turn, and
pushes once it is granted one. The handlers of a close differ in nothing, so they are counted. -/
structure Channel where
  closedFlag : Bool
  /-- The owner's `Notified` is a waiter, and has been woken. -/
  waiting : Bool
  woken : Bool
  permits : Nat
  queue : List Item
  granted : List Item
  blocked : List Item
  /-- A handler of a message is running. -/
  busy : Bool
  /-- … and has not asked for a permit yet. -/
  fresh : Option Bytes
  /-- Handlers of a close, before each of their steps. -/
  toStore : Nat
  toNotify : Nat
  toPush : Nat
  call : Call
  /-- The messages that have arrived, the closes that were noticed, and what the calls returned. -/
  arrived : List Bytes
  closes : Nat
  returned : List Return

def Channel.init : Channel :=
  ⟨false, false, false, capacity, [], [], [], false, none, 0, 0, 0, .idle, [], 0, []⟩

inductive Act where
  /-- `on_message`: the read loop calls it again only when it has returned. -/
  | onMessage (m : Bytes)
  /-- `on_close`, or the peer connection's state became `Failed` or `Closed`. -/
  | onClose
  | send (msg : Bytes)
  | recv
  /-- `dc.send` finishes. -/
  | dcSend (r : Except Anyhow Unit)
  | enable
  | loadFlag
  | wake
  | take
  | storeFlag
  | notifyWaiters
  | askClosed
  | askMsg
  /-- The `n`th handler that was granted a permit pushes its item. -/
  | push (n : Nat)

/-- A step of the channel's own code. The others are up to the outside. -/
def Act.internal : Act → Bool
  | .onMessage _ | .onClose | .send _ | .recv | .dcSend _ => false
  | _ => true

namespace Channel

/-- A permit for the queue: at once, or behind those that wait for one. -/
def acquire (s : Channel) (item : Item) : Channel :=
  if 0 < s.permits then { s with permits := s.permits - 1, granted := s.granted ++ [item] }
  else { s with blocked := s.blocked ++ [item] }

/-- A permit is free again, and goes to the first that waits. -/
def release (s : Channel) : Channel :=
  match s.blocked with
  | [] => { s with permits := s.permits + 1 }
  | item :: rest => { s with blocked := rest, granted := s.granted ++ [item] }

theorem release_nil {s : Channel} (h : s.blocked = []) :
    s.release = { s with permits := s.permits + 1 } := by
  rw [release, h]

theorem release_cons {s : Channel} {item : Item} {rest : List Item} (h : s.blocked = item :: rest) :
    s.release = { s with blocked := rest, granted := s.granted ++ [item] } := by
  rw [release, h]

theorem release_call (s : Channel) : s.release.call = s.call := by
  rw [release]
  split <;> rfl

/-- The call returns; a `Notified` is dropped. -/
def finish (s : Channel) (r : Return) : Channel :=
  { s with call := .idle, waiting := false, woken := false, returned := s.returned ++ [r] }

/-- What a step makes of a channel, when it can be taken. -/
def step (s : Channel) : Act → Option Channel
  | .onMessage m =>
      if s.busy then none
      else some { s with busy := true, fresh := some m, arrived := s.arrived ++ [m] }
  | .onClose => some { s with toStore := s.toStore + 1, closes := s.closes + 1 }
  | .send msg => match s.call with
      | .idle => some { s with call := .entered msg, waiting := false, woken := false }
      | _ => none
  | .recv => match s.call with
      | .idle => some { s with call := .receiving }
      | _ => none
  | .dcSend r => match s.call with
      | .sending _ => some (s.finish (.sent (r.mapError (.context "data channel send failed"))))
      | _ => none
  | .enable => match s.call with
      | .entered msg => some { s with call := .enabled msg, waiting := true }
      | _ => none
  | .loadFlag => match s.call with
      | .enabled msg =>
          if s.closedFlag then some (s.finish (.sent (.error closedByPeer)))
          else some { s with call := .sending msg }
      | _ => none
  | .wake => match s.call with
      | .sending _ => if s.woken then some (s.finish (.sent (.error closedByPeer))) else none
      | _ => none
  | .take => match s.call, s.queue with
      | .receiving, .msg m :: rest =>
          some (({ s with queue := rest } : Channel).release.finish (.received (.ok m)))
      | .receiving, .closed :: rest =>
          some (({ s with queue := rest } : Channel).release.finish (.received (.error closedByPeer)))
      | _, _ => none
  | .storeFlag =>
      if 0 < s.toStore then
        some { s with toStore := s.toStore - 1, closedFlag := true, toNotify := s.toNotify + 1 }
      else none
  | .notifyWaiters =>
      if 0 < s.toNotify then
        some { s with toNotify := s.toNotify - 1, woken := s.woken || s.waiting, toPush := s.toPush + 1 }
      else none
  | .askClosed =>
      if 0 < s.toPush then some (({ s with toPush := s.toPush - 1 } : Channel).acquire .closed) else none
  | .askMsg => match s.fresh with
      | some m => some (({ s with fresh := none } : Channel).acquire (.msg m))
      | none => none
  | .push n => match s.granted[n]? with
      | some item => some { s with
          granted := s.granted.eraseIdx n
          queue := s.queue ++ [item]
          busy := s.busy && decide (item = .closed) }
      | none => none

/-- One step after the other. -/
def run (s : Channel) : List Act → Option Channel
  | [] => some s
  | a :: acts => (s.step a).bind fun s' => s'.run acts

theorem runOf : Machines.RunOf step run := ⟨fun _ => rfl, fun _ _ _ => rfl⟩

/-! ## The invariant -/

end Channel

/-- The messages among some items. -/
def messages (items : List Item) : List Bytes :=
  items.filterMap fun
    | .msg m => some m
    | .closed => none

/-- The closes among some items. -/
def closures (items : List Item) : Nat := items.count .closed

/-- The messages `recv` has returned. -/
def receivedBy (returned : List Return) : List Bytes :=
  returned.filterMap fun
    | .received (.ok m) => some m
    | _ => none

/-- How often `recv` has reported the close. -/
def told (returned : List Return) : Nat :=
  returned.countP fun
    | .received (.error _) => true
    | _ => false

/-- A call of `send` past the point where it has become a waiter. -/
def Call.Registered : Call → Prop
  | .enabled _ => True
  | .sending _ => True
  | _ => False

structure Wired (s : Channel) : Prop where
  permits : s.queue.length + s.granted.length + s.permits = capacity
  full : s.blocked ≠ [] → s.permits = 0
  counted : s.closes = s.toStore + s.toNotify + s.toPush + closures (s.blocked ++ s.granted ++ s.queue)
    + told s.returned
  flag : s.closedFlag = true ↔ s.toStore < s.closes
  registered : s.call.Registered → s.waiting = true
  /-- No wakeup is lost: a `select!` that began before the flag was set is woken, or is about to be. -/
  wakes : (∃ msg, s.call = .sending msg) → s.closedFlag = true → s.woken = true ∨ 0 < s.toNotify
  woken : s.woken = true → s.closedFlag = true
  /-- No message is lost, and none overtakes another. -/
  ordered : s.arrived = receivedBy s.returned ++ messages s.queue ++ messages (s.granted ++ s.blocked)
    ++ s.fresh.toList
  /-- One handler of a message at a time. -/
  single : (messages (s.granted ++ s.blocked) ++ s.fresh.toList).length = s.busy.toNat

section lists

@[simp] theorem messages_nil : messages [] = [] := rfl

@[simp] theorem messages_append (l m : List Item) : messages (l ++ m) = messages l ++ messages m :=
  List.filterMap_append ..

@[simp] theorem messages_msg (m : Bytes) (l : List Item) : messages (.msg m :: l) = m :: messages l := rfl

@[simp] theorem messages_closed (l : List Item) : messages (.closed :: l) = messages l := rfl

@[simp] theorem closures_nil : closures [] = 0 := rfl

@[simp] theorem closures_append (l m : List Item) : closures (l ++ m) = closures l + closures m :=
  List.count_append ..

@[simp] theorem closures_msg (m : Bytes) (l : List Item) : closures (.msg m :: l) = closures l :=
  List.count_cons_of_ne (by simp)

@[simp] theorem closures_closed (l : List Item) : closures (.closed :: l) = closures l + 1 :=
  List.count_cons_self

@[simp] theorem receivedBy_append (l m : List Return) :
    receivedBy (l ++ m) = receivedBy l ++ receivedBy m :=
  List.filterMap_append ..

@[simp] theorem told_append (l m : List Return) : told (l ++ m) = told l + told m :=
  List.countP_append

@[simp] theorem receivedBy_sent (r : Except Anyhow Unit) : receivedBy [.sent r] = [] := rfl

@[simp] theorem receivedBy_ok (m : Bytes) : receivedBy [.received (.ok m)] = [m] := rfl

@[simp] theorem receivedBy_error (e : Anyhow) : receivedBy [.received (.error e)] = [] := rfl

@[simp] theorem told_sent (r : Except Anyhow Unit) : told [.sent r] = 0 := rfl

@[simp] theorem told_ok (m : Bytes) : told [.received (.ok m)] = 0 := rfl

@[simp] theorem told_error (e : Anyhow) : told [.received (.error e)] = 1 := rfl

/-- Taking one item out of some. -/
theorem eq_append_of_getElem? {X : Type} {l : List X} {n : Nat} {x : X} (h : l[n]? = some x) :
    ∃ a b, l = a ++ x :: b ∧ l.eraseIdx n = a ++ b := by
  obtain ⟨hn, rfl⟩ := List.getElem?_eq_some_iff.mp h
  refine ⟨l.take n, l.drop (n + 1), ?_, List.eraseIdx_eq_take_drop_succ l n⟩
  rw [List.getElem_cons_drop hn, List.take_append_drop]

end lists

theorem wired_init : Wired Channel.init where
  permits := rfl
  full h := absurd rfl h
  counted := rfl
  flag := by simp [Channel.init]
  registered h := h.elim
  wakes := by simp [Channel.init]
  woken := by simp [Channel.init]
  ordered := rfl
  single := rfl

section step

variable {s s' : Channel} {a : Act}

/-- A call that returns, and takes nothing from the queue. -/
theorem Wired.finish_sent (h : Wired s) (r : Except Anyhow Unit) : Wired (s.finish (.sent r)) where
  permits := h.permits
  full := h.full
  counted := by
    rw [Channel.finish, told_append, told_sent]
    exact h.counted
  flag := h.flag
  registered hc := hc.elim
  wakes := by
    rintro ⟨msg, hc⟩
    cases hc
  woken hw := by cases hw
  ordered := by
    rw [Channel.finish, receivedBy_append, receivedBy_sent, List.append_nil]
    exact h.ordered
  single := h.single

/-- Where the owner's call is, and what the outside began, does not touch the queue. -/
theorem Wired.call (h : Wired s) {c : Call} {w k : Bool} (hreg : c.Registered → w = true)
    (hwake : (∃ msg, c = .sending msg) → s.closedFlag = true → k = true ∨ 0 < s.toNotify)
    (hk : k = true → s.closedFlag = true) :
    Wired { s with call := c, waiting := w, woken := k } :=
  ⟨h.permits, h.full, h.counted, h.flag, hreg, hwake, hk, h.ordered, h.single⟩

/-- A permit is asked for by one that no one waits before, if there is one. -/
theorem Wired.blocked_eq_nil (h : Wired s) (hp : 0 < s.permits) : s.blocked = [] := by
  by_contra hne
  have := h.full hne
  omega

theorem Wired.askClosed (h : Wired s) (hp : 0 < s.toPush) :
    Wired (({ s with toPush := s.toPush - 1 } : Channel).acquire .closed) := by
  have hcloses := h.counted
  have hsingle := h.single
  have hmessages := h.ordered
  simp only [closures_append] at hcloses
  -- a free permit is granted at once, without one the close queues up
  by_cases hfree : 0 < s.permits
  · have hnone := h.blocked_eq_nil hfree
    have hpermits := h.permits
    rw [Channel.acquire, if_pos hfree]
    refine ⟨?_, ?_, ?_, h.flag, h.registered, h.wakes, h.woken, ?_, ?_⟩
    · simp only [List.length_append, List.length_singleton]
      omega
    · exact fun hne => absurd hnone hne
    · simp only [closures_append, closures_closed, closures_nil]
      omega
    · simpa using hmessages
    · simpa using hsingle
  · rw [Channel.acquire, if_neg hfree]
    refine ⟨h.permits, fun _ => by simpa using hfree, ?_, h.flag, h.registered, h.wakes, h.woken, ?_, ?_⟩
    · simp only [closures_append, closures_closed, closures_nil]
      omega
    · simpa using hmessages
    · simpa using hsingle

theorem Wired.askMsg (h : Wired s) {m : Bytes} (hm : s.fresh = some m) :
    Wired (({ s with fresh := none } : Channel).acquire (.msg m)) := by
  have hcloses := h.counted
  have hsingle := h.single
  have hmessages := h.ordered
  rw [hm] at hsingle hmessages
  simp only [closures_append] at hcloses
  by_cases hfree : 0 < s.permits
  · have hnone := h.blocked_eq_nil hfree
    have hpermits := h.permits
    rw [Channel.acquire, if_pos hfree]
    rw [hnone] at hsingle hmessages
    refine ⟨?_, ?_, ?_, h.flag, h.registered, h.wakes, h.woken, ?_, ?_⟩
    · simp only [List.length_append, List.length_singleton]
      omega
    · exact fun hne => absurd hnone hne
    · simp only [closures_append, closures_msg, closures_nil]
      omega
    · simpa [hnone] using hmessages
    · simpa [hnone] using hsingle
  · rw [Channel.acquire, if_neg hfree]
    refine ⟨h.permits, fun _ => by simpa using hfree, ?_, h.flag, h.registered, h.wakes, h.woken, ?_, ?_⟩
    · simp only [closures_append, closures_msg, closures_nil]
      omega
    · simpa using hmessages
    · simpa using hsingle

/-- An item is pushed by whoever has a permit; the messages keep their order, since at most one of those
with a permit, or in line for one, is a message. -/
theorem Wired.push (h : Wired s) {n : Nat} {item : Item} (hn : s.granted[n]? = some item) :
    Wired { s with
      granted := s.granted.eraseIdx n
      queue := s.queue ++ [item]
      busy := s.busy && decide (item = .closed) } := by
  obtain ⟨l, r, hl, he⟩ := eq_append_of_getElem? hn
  have hpermits := h.permits
  have hcloses := h.counted
  have hsingle := h.single
  have hmessages := h.ordered
  rw [hl] at hpermits hcloses hsingle hmessages
  rw [he]
  simp only [List.length_append, List.length_cons] at hpermits
  cases item with
  -- a close leaves `busy` as it is
  | closed =>
      refine ⟨?_, h.full, ?_, h.flag, h.registered, h.wakes, h.woken, ?_, ?_⟩
      · simp only [List.length_append, List.length_cons, List.length_nil]
        omega
      · simp only [closures_append, closures_closed, closures_nil] at hcloses ⊢
        omega
      · simpa using hmessages
      · simpa using hsingle
  | msg m =>
      -- it is the only message on the way
      have honly : messages l = [] ∧ messages r = [] ∧ messages s.blocked = [] ∧ s.fresh = none ∧
          s.busy = true := by
        simp only [messages_append, messages_msg, List.length_append, List.length_cons] at hsingle
        have hbusy := Bool.toNat_le s.busy
        refine ⟨?_, ?_, ?_, ?_, ?_⟩
        · exact List.eq_nil_of_length_eq_zero (by omega)
        · exact List.eq_nil_of_length_eq_zero (by omega)
        · exact List.eq_nil_of_length_eq_zero (by omega)
        · cases hf : s.fresh with
          | none => rfl
          | some f =>
              rw [hf, Option.toList_some, List.length_singleton] at hsingle
              omega
        · cases hb : s.busy with
          | true => rfl
          | false =>
              rw [hb, Bool.toNat_false] at hsingle
              omega
      obtain ⟨hleft, hright, hblocked, hfresh, -⟩ := honly
      refine ⟨?_, h.full, ?_, h.flag, h.registered, h.wakes, h.woken, ?_, ?_⟩
      · simp only [List.length_append, List.length_cons, List.length_nil]
        omega
      · simp only [closures_append, closures_msg, closures_nil] at hcloses ⊢
        omega
      · simpa [hleft, hright, hblocked, hfresh] using hmessages
      · simp [hleft, hright, hblocked, hfresh]

/-- What is taken makes room for the first that waits. -/
theorem Wired.take (h : Wired s) {item : Item} {rest : List Item} {r : Return}
    (hq : s.queue = item :: rest)
    (hr : (∃ m, item = .msg m ∧ r = .received (.ok m)) ∨
      item = .closed ∧ r = .received (.error closedByPeer)) :
    Wired (({ s with queue := rest } : Channel).release.finish r) := by
  have hpermits := h.permits
  have hcloses := h.counted
  have hordered := h.ordered
  have hsingle := h.single
  rw [hq] at hpermits hcloses hordered
  rw [List.length_cons] at hpermits
  -- what the queue loses the owner has been told
  have hgone : messages (item :: rest) = receivedBy [r] ++ messages rest ∧
      closures (item :: rest) = closures rest + told [r] := by
    rcases hr with ⟨m, rfl, rfl⟩ | ⟨rfl, rfl⟩
    · exact ⟨rfl, by simp⟩
    · exact ⟨rfl, by simp⟩
  simp only [closures_append, hgone.2] at hcloses
  rw [hgone.1] at hordered
  obtain hb | ⟨first, others, hb⟩ : s.blocked = [] ∨ ∃ first others, s.blocked = first :: others := by
    cases s.blocked with
    | nil => exact .inl rfl
    | cons first others => exact .inr ⟨first, others, rfl⟩
  -- nobody waits, so the permit goes back
  · rw [Channel.release_nil (by exact hb)]
    rw [hb] at hcloses hordered hsingle
    refine ⟨?_, ?_, ?_, h.flag, fun hc => hc.elim, ?_, (fun hw => by cases hw), ?_, ?_⟩
    · dsimp only [Channel.finish]
      omega
    · exact fun hne => absurd hb hne
    · simp only [Channel.finish, hb, closures_append, closures_nil, told_append] at hcloses ⊢
      omega
    · rintro ⟨msg, hc⟩
      cases hc
    · simpa [Channel.finish, hb] using hordered
    · simpa [Channel.finish, hb] using hsingle
  -- the permit goes to the first that waits
  · have hfull : s.permits = 0 := h.full (by rw [hb]; simp)
    rw [Channel.release_cons (by exact hb)]
    rw [hb] at hcloses hordered hsingle
    refine ⟨?_, fun _ => hfull, ?_, h.flag, fun hc => hc.elim, ?_, (fun hw => by cases hw), ?_, ?_⟩
    · simp only [Channel.finish, List.length_append, List.length_singleton]
      omega
    · have hsplit : closures (first :: others) = closures [first] + closures others := by
        rw [← closures_append, List.singleton_append]
      simp only [Channel.finish, closures_append, told_append] at hcloses ⊢
      omega
    · rintro ⟨msg, hc⟩
      cases hc
    · simpa [Channel.finish, List.append_assoc] using hordered
    · simpa [Channel.finish, List.append_assoc] using hsingle

theorem Wired.storeFlag (h : Wired s) (hp : 0 < s.toStore) :
    Wired { s with toStore := s.toStore - 1, closedFlag := true, toNotify := s.toNotify + 1 } := by
  have hcounted := h.counted
  refine ⟨h.permits, h.full, ?_, ?_, h.registered, fun _ _ => .inr (Nat.succ_pos _), fun _ => rfl,
    h.ordered, h.single⟩
  · dsimp only
    omega
  · show true = true ↔ s.toStore - 1 < s.closes
    simp only [true_iff]
    omega

/-- Whoever is a waiter is woken. -/
theorem Wired.notifyWaiters (h : Wired s) (hp : 0 < s.toNotify) :
    Wired { s with toNotify := s.toNotify - 1, woken := s.woken || s.waiting, toPush := s.toPush + 1 } := by
  have hcounted := h.counted
  have hflag : s.closedFlag = true := h.flag.mpr (by omega)
  refine ⟨h.permits, h.full, ?_, h.flag, h.registered, ?_, fun _ => hflag, h.ordered, h.single⟩
  · dsimp only
    omega
  · rintro ⟨msg, hc⟩ -
    left
    have hwaiting := h.registered (show s.call.Registered by rw [hc]; trivial)
    show (s.woken || s.waiting) = true
    rw [hwaiting, Bool.or_true]

/-- **Every step keeps the invariant.** -/
theorem Wired.step (h : Wired s) (hs : s.step a = some s') : Wired s' := by
  cases a with
  | onMessage m =>
      obtain ⟨hbusy, hs⟩ := Option.ite_none_left_eq_some.mp hs
      cases hs
      have hsingle := h.single
      have hordered := h.ordered
      rw [Bool.not_eq_true] at hbusy
      rw [hbusy, Bool.toNat_false, List.length_append, Nat.add_eq_zero_iff] at hsingle
      -- `busy` is clear, so no message is on the way
      have hfresh : s.fresh = none := by
        cases hf : s.fresh with
        | none => rfl
        | some f => simp [hf] at hsingle
      refine ⟨h.permits, h.full, h.counted, h.flag, h.registered, h.wakes, h.woken, ?_, ?_⟩
      · rw [hfresh] at hordered
        simp [hordered]
      · simp [List.eq_nil_of_length_eq_zero hsingle.1]
  | onClose =>
      cases hs
      have hcounted := h.counted
      have hflag := h.flag
      refine ⟨h.permits, h.full, ?_, ?_, h.registered, h.wakes, h.woken, h.ordered, h.single⟩
      · dsimp only
        omega
      · show s.closedFlag = true ↔ s.toStore + 1 < s.closes + 1
        rw [hflag]
        omega
  | send msg =>
      rw [Channel.step] at hs
      split at hs
      · cases hs
        exact h.call (fun hc => hc.elim) (fun ⟨_, hc⟩ => by cases hc) (fun hk => by cases hk)
      · cases hs
  | recv =>
      rw [Channel.step] at hs
      split at hs
      · cases hs
        exact h.call (fun hc => hc.elim) (fun ⟨_, hc⟩ => by cases hc) h.woken
      · cases hs
  | dcSend r =>
      rw [Channel.step] at hs
      split at hs
      · cases hs
        exact h.finish_sent _
      · cases hs
  | enable =>
      rw [Channel.step] at hs
      split at hs
      · cases hs
        exact h.call (fun _ => rfl) (fun ⟨_, hc⟩ => by cases hc) h.woken
      · cases hs
  | loadFlag =>
      rw [Channel.step] at hs
      split at hs
      · next msg hc =>
          split at hs
          · cases hs
            exact h.finish_sent _
          · next hflag =>
              cases hs
              exact h.call (fun _ => h.registered (by rw [hc]; trivial)) (fun _ hf => absurd hf hflag) h.woken
      · cases hs
  | wake =>
      rw [Channel.step] at hs
      split at hs
      · obtain ⟨-, hs⟩ := Option.ite_none_right_eq_some.mp hs
        cases hs
        exact h.finish_sent _
      · cases hs
  | take =>
      rw [Channel.step] at hs
      split at hs
      · next m rest hc hq =>
          cases hs
          -- a message is what the call returns, a close ends it in an error
          exact h.take hq (.inl ⟨m, rfl, rfl⟩)
      · next rest hc hq =>
          cases hs
          exact h.take hq (.inr ⟨rfl, rfl⟩)
      · cases hs
  | storeFlag =>
      obtain ⟨hp, hs⟩ := Option.ite_none_right_eq_some.mp hs
      cases hs
      exact h.storeFlag hp
  | notifyWaiters =>
      obtain ⟨hp, hs⟩ := Option.ite_none_right_eq_some.mp hs
      cases hs
      exact h.notifyWaiters hp
  | askClosed =>
      obtain ⟨hp, hs⟩ := Option.ite_none_right_eq_some.mp hs
      cases hs
      exact h.askClosed hp
  | askMsg =>
      rw [Channel.step] at hs
      split at hs
      · next m hm =>
          cases hs
          exact h.askMsg hm
      · cases hs
  | push n =>
      rw [Channel.step] at hs
      split at hs
      · next item hn =>
          cases hs
          exact h.push hn
      · cases hs

/-- … and so does every run. -/
theorem Wired.run {acts : List Act} (h : Wired s) (hs : s.run acts = some s') : Wired s' :=
  Channel.runOf.invariant (fun _ _ _ h hs => h.step hs) h hs

end step

/-! ## No call hangs -/

/-- How many steps its own code can still take. -/
def Call.weight : Call → Nat
  | .idle => 0
  | .entered _ => 3
  | .enabled _ => 2
  | .sending _ => 1
  | .receiving => 1

def Channel.weight (s : Channel) : Nat :=
  s.call.weight + 5 * s.toStore + 4 * s.toNotify + 3 * s.toPush + 3 * s.fresh.toList.length
    + 2 * s.blocked.length + 2 * s.granted.length

section progress

variable {s s' : Channel} {a : Act}

theorem weight_acquire (s : Channel) (item : Item) : (s.acquire item).weight = s.weight + 2 := by
  rw [Channel.acquire]
  split
  · simp only [Channel.weight, List.length_append, List.length_singleton]
    omega
  · simp only [Channel.weight, List.length_append, List.length_singleton]
    omega

theorem weight_release (s : Channel) : s.release.weight = s.weight := by
  cases hb : s.blocked with
  | nil =>
      rw [Channel.release_nil hb]
      rfl
  | cons item rest =>
      rw [Channel.release_cons hb]
      simp only [Channel.weight, hb, List.length_append, List.length_cons, List.length_nil]
      omega

theorem weight_finish {s : Channel} (r : Return) (h : s.call ≠ .idle) : (s.finish r).weight < s.weight := by
  have hw : 0 < s.call.weight := by
    cases hc : s.call with
    | idle => exact absurd hc h
    | _ => simp [Call.weight]
  have hidle : Call.idle.weight = 0 := rfl
  simp only [Channel.finish, Channel.weight, hidle]
  omega

/-- The channel's own code runs out of steps. -/
theorem weight_step (ha : a.internal = true) (hs : s.step a = some s') : s'.weight < s.weight := by
  cases a with
  | enable =>
      rw [Channel.step] at hs
      split at hs
      · next msg hc =>
          cases hs
          simp only [Channel.weight, hc, Call.weight]
          omega
      · cases hs
  | loadFlag =>
      rw [Channel.step] at hs
      split at hs
      · next msg hc =>
          split at hs
          · cases hs
            exact weight_finish _ (by rw [hc]; simp)
          · cases hs
            simp only [Channel.weight, hc, Call.weight]
            omega
      · cases hs
  | wake =>
      rw [Channel.step] at hs
      split at hs
      · next msg hc =>
          obtain ⟨-, hs⟩ := Option.ite_none_right_eq_some.mp hs
          cases hs
          exact weight_finish _ (by rw [hc]; simp)
      · cases hs
  | take =>
      -- what is taken leaves the queue, and the call returns
      have htake : ∀ rest r, s.call = .receiving →
          (({ s with queue := rest } : Channel).release.finish r).weight < s.weight := by
        intro rest r hc
        have hrelease := weight_release { s with queue := rest }
        refine Nat.lt_of_lt_of_eq (weight_finish r ?_) hrelease
        rw [Channel.release_call]
        simp [hc]
      rw [Channel.step] at hs
      split at hs
      · next m rest hc hq =>
          cases hs
          exact htake rest _ hc
      · next rest hc hq =>
          cases hs
          exact htake rest _ hc
      · cases hs
  | storeFlag =>
      obtain ⟨hp, hs⟩ := Option.ite_none_right_eq_some.mp hs
      cases hs
      simp only [Channel.weight]
      omega
  | notifyWaiters =>
      obtain ⟨hp, hs⟩ := Option.ite_none_right_eq_some.mp hs
      cases hs
      simp only [Channel.weight]
      omega
  | askClosed =>
      obtain ⟨hp, hs⟩ := Option.ite_none_right_eq_some.mp hs
      cases hs
      -- to wait for a permit weighs as much as to hold one
      rw [weight_acquire]
      simp only [Channel.weight]
      omega
  | askMsg =>
      rw [Channel.step] at hs
      split at hs
      · next m hm =>
          cases hs
          rw [weight_acquire]
          simp only [Channel.weight, hm, Option.toList_some, Option.toList_none, List.length_singleton,
            List.length_nil]
          omega
      · cases hs
  | push n =>
      rw [Channel.step] at hs
      split at hs
      · next item hn =>
          cases hs
          obtain ⟨l, r, hl, he⟩ := eq_append_of_getElem? hn
          simp only [Channel.weight, he]
          rw [hl]
          simp only [List.length_append, List.length_cons]
          omega
      · cases hs
  | _ => cases ha

/-- No step of its own is left to take. -/
def Stuck (s : Channel) : Prop := ∀ a, a.internal = true → s.step a = none

/-- A channel with no step left has no handler half way, but those that wait for a permit. -/
theorem Stuck.rest (h : Stuck s) : s.toStore = 0 ∧ s.toNotify = 0 ∧ s.toPush = 0 ∧ s.granted = [] := by
  refine ⟨?_, ?_, ?_, ?_⟩
  · have := h .storeFlag rfl
    rw [Channel.step] at this
    simpa using this
  · have := h .notifyWaiters rfl
    rw [Channel.step] at this
    simpa using this
  · have := h .askClosed rfl
    rw [Channel.step] at this
    simpa using this
  · have := h (.push 0) rfl
    rw [Channel.step] at this
    cases hg : s.granted with
    | nil => rfl
    | cons item rest => simp [hg] at this

/-- The owner is to hear of a close: it is in a `send`, or in a `recv` with a close not reported yet. -/
def Hears (s : Channel) : Prop :=
  (∃ msg, s.call = .entered msg ∨ s.call = .enabled msg ∨ s.call = .sending msg) ∧ 0 < s.closes ∨
    s.call = .receiving ∧ told s.returned < s.closes

/-- A call that is to hear of a close is not stuck. -/
theorem Wired.not_stuck (h : Wired s) (hh : Hears s) : ¬ Stuck s := by
  intro hstuck
  obtain ⟨hstore, hnotify, hpush, hgranted⟩ := hstuck.rest
  have hcounted := h.counted
  rcases hh with ⟨⟨msg, hc | hc | hc⟩, hclose⟩ | ⟨hc, htold⟩
  -- a sender always has its own next step, until it waits for the flag
  · have := hstuck .enable rfl
    simp [Channel.step, hc] at this
  · have := hstuck .loadFlag rfl
    simp only [Channel.step, hc] at this
    split at this <;> cases this
  · -- the flag was set, and the waiter woken
    have hflag : s.closedFlag = true := h.flag.mpr (by omega)
    have hwoken : s.woken = true := by
      rcases h.wakes ⟨msg, hc⟩ hflag with hw | hn
      · exact hw
      · omega
    have := hstuck .wake rfl
    simp [Channel.step, hc, hwoken] at this
  · cases hq : s.queue with
    | cons item rest =>
        have := hstuck .take rfl
        cases item <;> simp [Channel.step, hc, hq] at this
    | nil =>
        -- the close waits for a permit, though all are free
        rw [hstore, hnotify, hpush, hgranted, hq, List.append_nil, List.append_nil] at hcounted
        have hblocked : s.blocked ≠ [] := by
          intro hb
          rw [hb, closures_nil] at hcounted
          omega
        have hpermits := h.permits
        rw [hq, hgranted, h.full hblocked] at hpermits
        cases hpermits

theorem acquire_owner (s : Channel) (item : Item) :
    (s.acquire item).call = s.call ∧ (s.acquire item).returned = s.returned ∧
      (s.acquire item).closes = s.closes := by
  rw [Channel.acquire]
  split
  · exact ⟨rfl, rfl, rfl⟩
  · exact ⟨rfl, rfl, rfl⟩

/-- **What a step does to the owner's call.** It lets it be, takes it further, or ends it; or the owner
begins one. -/
theorem step_owner (hs : s.step a = some s') :
    (s'.returned = s.returned ∧ s.closes ≤ s'.closes ∧
      (s'.call = s.call ∨ s.call = .idle ∨ ∃ msg, s.call = .entered msg ∧ s'.call = .enabled msg ∨
        s.call = .enabled msg ∧ s'.call = .sending msg)) ∨
    (a = .loadFlag ∨ a = .wake ∨ a = .take ∨ ∃ r, a = .dcSend r) ∧
      ∃ r, s'.returned = s.returned ++ [r] := by
  cases a with
  | onMessage m =>
      obtain ⟨-, hs⟩ := Option.ite_none_left_eq_some.mp hs
      cases hs
      exact .inl ⟨rfl, le_rfl, .inl rfl⟩
  | onClose =>
      cases hs
      exact .inl ⟨rfl, Nat.le_succ _, .inl rfl⟩
  | send msg =>
      rw [Channel.step] at hs
      split at hs
      · next hc =>
          cases hs
          exact .inl ⟨rfl, le_rfl, .inr (.inl hc)⟩
      · cases hs
  | recv =>
      rw [Channel.step] at hs
      split at hs
      · next hc =>
          cases hs
          exact .inl ⟨rfl, le_rfl, .inr (.inl hc)⟩
      · cases hs
  | dcSend r =>
      rw [Channel.step] at hs
      split at hs
      · cases hs
        exact .inr ⟨by simp, _, rfl⟩
      · cases hs
  | enable =>
      rw [Channel.step] at hs
      split at hs
      · next msg hc =>
          cases hs
          exact .inl ⟨rfl, le_rfl, .inr (.inr ⟨msg, .inl ⟨hc, rfl⟩⟩)⟩
      · cases hs
  | loadFlag =>
      rw [Channel.step] at hs
      split at hs
      · next msg hc =>
          split at hs
          · cases hs
            exact .inr ⟨by simp, _, rfl⟩
          · cases hs
            exact .inl ⟨rfl, le_rfl, .inr (.inr ⟨msg, .inr ⟨hc, rfl⟩⟩)⟩
      · cases hs
  | wake =>
      rw [Channel.step] at hs
      split at hs
      · obtain ⟨-, hs⟩ := Option.ite_none_right_eq_some.mp hs
        cases hs
        exact .inr ⟨by simp, _, rfl⟩
      · cases hs
  | take =>
      -- only `finish` adds to what the owner was told
      have hreturned : ∀ rest, ({ s with queue := rest } : Channel).release.returned = s.returned := by
        intro rest
        rw [Channel.release]
        split <;> rfl
      rw [Channel.step] at hs
      split at hs
      · cases hs
        exact .inr ⟨by simp, _, by rw [Channel.finish, hreturned]⟩
      · cases hs
        exact .inr ⟨by simp, _, by rw [Channel.finish, hreturned]⟩
      · cases hs
  | storeFlag =>
      obtain ⟨-, hs⟩ := Option.ite_none_right_eq_some.mp hs
      cases hs
      exact .inl ⟨rfl, le_rfl, .inl rfl⟩
  | notifyWaiters =>
      obtain ⟨-, hs⟩ := Option.ite_none_right_eq_some.mp hs
      cases hs
      exact .inl ⟨rfl, le_rfl, .inl rfl⟩
  | askClosed =>
      obtain ⟨-, hs⟩ := Option.ite_none_right_eq_some.mp hs
      cases hs
      obtain ⟨hc, hr, hn⟩ := acquire_owner { s with toPush := s.toPush - 1 } .closed
      exact .inl ⟨hr, hn.ge, .inl hc⟩
  | askMsg =>
      rw [Channel.step] at hs
      split at hs
      · next m hm =>
          cases hs
          obtain ⟨hc, hr, hn⟩ := acquire_owner { s with fresh := none } (.msg m)
          exact .inl ⟨hr, hn.ge, .inl hc⟩
      · cases hs
  | push n =>
      rw [Channel.step] at hs
      split at hs
      · cases hs
        exact .inl ⟨rfl, le_rfl, .inl rfl⟩
      · cases hs

theorem returned_step (hs : s.step a = some s') : s.returned <+: s'.returned := by
  rcases step_owner hs with ⟨hr, -⟩ | ⟨-, r, hr⟩
  · rw [hr]
  · rw [hr]
    exact List.prefix_append _ _

theorem returned_run {acts : List Act} (hs : s.run acts = some s') : s.returned <+: s'.returned := by
  refine Channel.runOf.invariant (I := fun u => s.returned <+: u.returned) ?_ (List.prefix_refl _) hs
  exact fun u a u' h hu => h.trans (returned_step hu)

/-- A call that is to hear of a close is so until it returns. -/
theorem Hears.step (h : Hears s) (hs : s.step a = some s') (hr : s'.returned = s.returned) : Hears s' := by
  rcases step_owner hs with ⟨-, hclose, hc⟩ | ⟨-, r, hr'⟩
  -- no call returned: the owner is where it was, or one step further
  · rcases h with ⟨⟨msg, hcall⟩, h⟩ | ⟨hcall, h⟩
    · refine .inl ⟨⟨msg, ?_⟩, Nat.lt_of_lt_of_le h hclose⟩
      rcases hc with hc | hc | ⟨msg', ⟨hc, hc'⟩ | ⟨hc, hc'⟩⟩
      · rwa [hc]
      · rw [hc] at hcall
        simp at hcall
      · rw [hc] at hcall
        simp at hcall
        exact .inr (.inl (hcall ▸ hc'))
      · rw [hc] at hcall
        simp at hcall
        exact .inr (.inr (hcall ▸ hc'))
    · right
      rw [hr]
      refine ⟨?_, Nat.lt_of_lt_of_le h hclose⟩
      rcases hc with hc | hc | ⟨msg', ⟨hc, hc'⟩ | ⟨hc, hc'⟩⟩
      · rwa [hc]
      all_goals
        rw [hc] at hcall
        cases hcall
  · rw [hr'] at hr
    simp at hr

theorem Hears.run {acts : List Act} (h : Hears s) (hs : s.run acts = some s')
    (hr : s'.returned = s.returned) : Hears s' := by
  induction acts generalizing s with
  | nil =>
      cases hs
      exact h
  | cons a acts ih =>
      obtain ⟨u, hu, hrest⟩ := Option.bind_eq_some_iff.mp hs
      have hle := (returned_step hu).length_le
      have hle' := (returned_run hrest).length_le
      have hsame : u.returned = s.returned := by
        refine ((returned_step hu).eq_of_length ?_).symm
        rw [hr] at hle'
        omega
      exact ih (h.step hu hsame) hrest (hr.trans hsame.symm)

/-- What the outside does costs the channel's code a bounded number of steps. -/
theorem weight_outside (ha : a.internal = false) (hs : s.step a = some s') : s'.weight ≤ s.weight + 5 := by
  cases a with
  | onMessage m =>
      obtain ⟨-, hs⟩ := Option.ite_none_left_eq_some.mp hs
      cases hs
      simp only [Channel.weight, Option.toList_some, List.length_singleton]
      omega
  | onClose =>
      cases hs
      simp only [Channel.weight]
      omega
  | send msg =>
      rw [Channel.step] at hs
      split at hs
      · cases hs
        have hweight : (Call.entered msg).weight = 3 := rfl
        simp only [Channel.weight, hweight]
        omega
      · cases hs
  | recv =>
      rw [Channel.step] at hs
      split at hs
      · cases hs
        have hweight : Call.receiving.weight = 1 := rfl
        simp only [Channel.weight, hweight]
        omega
      · cases hs
  | dcSend r =>
      rw [Channel.step] at hs
      split at hs
      · next msg hc =>
          cases hs
          exact Nat.le_trans (weight_finish _ (by rw [hc]; simp)).le (Nat.le_add_right _ _)
      · cases hs
  | _ => cases ha

/-- The steps of the channel's own code are bounded by what it had to do, and what the outside did. -/
theorem internal_bounded {acts : List Act} (hs : s.run acts = some s') :
    acts.countP Act.internal + s'.weight ≤ s.weight + 5 * acts.countP fun a => !a.internal := by
  induction acts generalizing s with
  | nil =>
      cases hs
      simp
  | cons a acts ih =>
      obtain ⟨u, hu, hrest⟩ := Option.bind_eq_some_iff.mp hs
      have hu' := ih hrest
      cases ha : a.internal with
      | true =>
          have hlt := weight_step ha hu
          rw [List.countP_cons_of_pos ha, List.countP_cons_of_neg (by simp [ha])]
          omega
      | false =>
          have hle := weight_outside ha hu
          rw [List.countP_cons_of_neg (by simp [ha]), List.countP_cons_of_pos (by simp [ha])]
          omega

end progress

/-- **No call hangs on a dead peer.** In every reachable state in which a close was noticed, and the owner
is in a `send`, or in a `recv` that has not been told of that many closes yet: whatever the outside does from
there, and though `dc.send` may never finish and no message may ever come, the channel's own code has a step
left to take until the call returns. It takes at most so many: a number fixed by the state, and five for
each thing the outside did. -/
theorem no_hang {past acts : List Act} {s t : Channel} (hpast : Channel.init.run past = some s)
    (hh : Hears s) (ht : s.run acts = some t) :
    (t.returned = s.returned → ¬ Stuck t) ∧
      acts.countP Act.internal ≤ s.weight + 5 * acts.countP fun a => !a.internal := by
  constructor
  · intro hr
    exact ((wired_init.run hpast).run ht).not_stuck (hh.run ht hr)
  · have := internal_bounded ht
    omega

/-- A `send` that `dc.send` never finishes, on a channel whose peer dies meanwhile: it can be woken. -/
theorem no_hang_send : ∃ t, Channel.init.run [.send [1], .enable, .loadFlag, .onClose, .storeFlag,
    .notifyWaiters] = some t ∧ t.call = .sending [1] ∧ ¬ Stuck t :=
  ⟨_, rfl, rfl, (no_hang (rfl : Channel.init.run [.send [1], .enable, .loadFlag, .onClose] = some _)
    (.inl ⟨⟨[1], .inr (.inr rfl)⟩, by decide⟩)
    (rfl : Channel.run _ [.storeFlag, .notifyWaiters] = some _)).1 rfl⟩

/-! ## What the calls return -/

/-- The close is reported only if there was one, and `recv` reports nothing else. -/
structure Honest (s : Channel) : Prop where
  sent : .sent (.error closedByPeer) ∈ s.returned → 0 < s.closes
  received : ∀ e, .received (.error e) ∈ s.returned → e = closedByPeer

theorem Honest.keep {s s' : Channel} (h : Honest s) (hr : s'.returned = s.returned)
    (hc : s.closes ≤ s'.closes) : Honest s' := by
  refine ⟨?_, ?_⟩
  · rw [hr]
    exact fun hm => Nat.lt_of_lt_of_le (h.sent hm) hc
  · rw [hr]
    exact h.received

theorem Honest.finish {s : Channel} (h : Honest s) {r : Return}
    (hsent : r = .sent (.error closedByPeer) → 0 < s.closes)
    (hreceived : ∀ e, r = .received (.error e) → e = closedByPeer) : Honest (s.finish r) := by
  refine ⟨?_, ?_⟩
  · intro hm
    rcases List.mem_append.mp hm with hm | hm
    · exact h.sent hm
    · exact hsent (List.mem_singleton.mp hm).symm
  · intro e hm
    rcases List.mem_append.mp hm with hm | hm
    · exact h.received e hm
    · exact hreceived e (List.mem_singleton.mp hm).symm

theorem Honest.step {s s' : Channel} {a : Act} (h : Honest s) (hw : Wired s) (hs : s.step a = some s') :
    Honest s' := by
  have hflag : s.closedFlag = true → 0 < s.closes := fun hf => Nat.zero_lt_of_lt (hw.flag.mp hf)
  cases a with
  | dcSend r =>
      rw [Channel.step] at hs
      split at hs
      · cases hs
        refine h.finish ?_ (fun e he => by cases he)
        intro he
        cases r with
        | ok u => cases he
        | error e => cases he
      · cases hs
  -- closed by the peer is told only when the flag is set, after a close
  | loadFlag =>
      rw [Channel.step] at hs
      split at hs
      · split at hs
        · next hf =>
            cases hs
            exact h.finish (fun _ => hflag hf) (fun e he => by cases he)
        · cases hs
          exact h.keep rfl le_rfl
      · cases hs
  | wake =>
      rw [Channel.step] at hs
      split at hs
      · obtain ⟨hk, hs⟩ := Option.ite_none_right_eq_some.mp hs
        cases hs
        exact h.finish (fun _ => hflag (hw.woken hk)) (fun e he => by cases he)
      · cases hs
  | take =>
      have hkeep : ∀ rest, Honest ({ s with queue := rest } : Channel).release := by
        intro rest
        have hsame : ({ s with queue := rest } : Channel).release.returned = s.returned ∧
            ({ s with queue := rest } : Channel).release.closes = s.closes := by
          rw [Channel.release]
          split <;> exact ⟨rfl, rfl⟩
        exact h.keep hsame.1 hsame.2.ge
      rw [Channel.step] at hs
      split at hs
      · cases hs
        exact (hkeep _).finish (fun he => by cases he) (fun e he => by cases he)
      · cases hs
        refine (hkeep _).finish (fun he => by cases he) ?_
        intro e he
        cases he
        rfl
      · cases hs
  -- no other step tells the owner anything
  | _ =>
      rcases step_owner hs with ⟨hr, hc, -⟩ | ⟨he, -⟩
      · exact h.keep hr hc
      · simp at he

/-- **What `recv` returns.** In every run: the messages in the order they arrived, none twice and none left
out; what it has not returned yet is on its way through the queue, which holds at most `capacity` items. It
reports a close no more often than one was noticed, and a `send` fails with it only if one was. -/
theorem received_in_order {acts : List Act} {s : Channel} (hs : Channel.init.run acts = some s) :
    s.arrived = receivedBy s.returned ++
        (messages s.queue ++ messages (s.granted ++ s.blocked) ++ s.fresh.toList) ∧
      s.queue.length ≤ capacity ∧ told s.returned ≤ s.closes ∧
      (∀ e, .received (.error e) ∈ s.returned → e = closedByPeer) ∧
      (.sent (.error closedByPeer) ∈ s.returned → 0 < s.closes) := by
  have hw := wired_init.run hs
  have hh : Honest s := by
    have hboth := Channel.runOf.invariant (I := fun u => Wired u ∧ Honest u)
      (fun _ _ _ h hu => ⟨h.1.step hu, h.2.step h.1 hu⟩)
      ⟨wired_init, ⟨fun hm => by simp [Channel.init] at hm, fun e hm => by simp [Channel.init] at hm⟩⟩ hs
    exact hboth.2
  refine ⟨?_, ?_, ?_, hh.received, hh.sent⟩
  · rw [hw.ordered]
    simp only [List.append_assoc]
  · have := hw.permits
    omega
  · have := hw.counted
    omega

/-- Two messages and a close: the first is returned, the second waits in the queue. -/
theorem received_in_order_two : ∃ s, Channel.init.run [.onMessage [1], .askMsg, .push 0, .onMessage [2],
    .askMsg, .push 0, .onClose, .recv, .take] = some s ∧ s.arrived = [[1]] ++ [[2]] :=
  ⟨_, rfl, (received_in_order (rfl : Channel.init.run [.onMessage [1], .askMsg, .push 0, .onMessage [2],
    .askMsg, .push 0, .onClose, .recv, .take] = some _)).1⟩

end Webrtc
end B2p
