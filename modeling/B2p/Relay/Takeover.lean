import B2p.Lib.Runs
import B2p.Relay.Direction
import B2p.Relay.Room

/-!
# One client in a room whose sockets change

A client joins a room, waits until it hears of a peer, and goes on with a `RelayChannel` on the same
socket. Everybody else may do anything to the room meanwhile. The room forwards what any listed socket
of the other role sends, and tells of a socket that replaces another only by a second `peer-joined`,
which `io_task` ignores: the channel then goes on with the new socket's messages, in the middle of what
it had of the old one's.

* `Visit`, `Visit.step` — the client, the room and what is on the way between them. Who sent the
  messages that frames were made of is recorded beside it.
* `Isolated` — all that the channel hands on comes from one socket, and it ends when it is told of
  another.
* `Meets` — no socket joins a role that has one already, while the client is there.
* `isolated_of_allMeet` — every run that meets this is isolated.
* `takeover_not_isolated` — a run with a takeover that is not.
-/

namespace B2p

/-- A message on its way to the client, and the socket whose message it forwards; the room's own
messages have none. -/
structure Delivery where
  origin : Option Nat
  msg : WsMessage
  deriving DecidableEq

inductive Client where
  | away
  /-- In the loop of `connect`, on the socket `ws`. -/
  | waiting (ws : Nat)
  | up (ws : Nat) (ch : RelayChannel)
  | gone

/-- The socket the client has in the room. -/
def Client.socket : Client → Option Nat
  | .waiting ws => some ws
  | .up ws _ => some ws
  | _ => none

/-- One client's visit to a room. The last four fields are history, which no step reads: the origins of
what the frame being reassembled is made of, those of every frame reassembled so far, those of the
acknowledgments applied, and whether `io_task` has been told of a new peer. -/
structure Visit where
  room : Room
  client : Client
  wire : List Delivery
  opened : List (Option Nat)
  frames : List (List (Option Nat))
  acks : List (Option Nat)
  told : Bool

inductive VisitEvent where
  /-- Anything in the room, what the client itself sends included. -/
  | room (e : RoomEvent)
  /-- The client's own join. -/
  | dial
  /-- A pong or a close frame of the platform's. -/
  | platform (close : Bool)
  /-- `connect` takes a message. -/
  | wait
  /-- `connect` gives up. -/
  | giveUp
  | chan (a : RelayChannel.Act)

/-- What a frame completed by a message from `o` is made of: the first of `n` frames also of what was
there before. -/
def provenance (opened : List (Option Nat)) (o : Option Nat) : Nat → List (List (Option Nat))
  | 0 => []
  | n + 1 => (opened ++ [o]) :: List.replicate n [o]

namespace Visit

open Framing

section

variable (parse : String → Option Control) (role : Role)

/-- A message as the client reads it. `parse` is `parse_control`; a text that is no control is
ignored, as a pong is. -/
def toMessage : Sent → WsMessage
  | .notice .peerJoined => .text .peerJoined
  | .notice .peerLeft => .text .peerLeft
  | .forwarded (.binary b) => .binary b
  | .forwarded (.text t) => .text ((parse t).getD .pong)

/-- The socket whose message an event is. -/
def originOf : RoomEvent → Option Nat
  | .message _ ws _ => some ws
  | _ => none

/-- What the room sends to a socket on an event, in order. -/
def posted (r : Room) (e : RoomEvent) (ws : Nat) : List Delivery :=
  let new := (r.step e).sent.take ((r.step e).sent.length - r.sent.length)
  (new.reverse.filter fun x => decide (x.1 = ws)).map fun x => ⟨originOf e, toMessage parse x.2⟩

/-- `role_s`. -/
def roleText : Role → String
  | .send => "send"
  | .recv => "recv"

/-- The request of `dial`. -/
def joinEvent : RoomEvent := .join (some "websocket") (some (roleText role))

/-- The history after `io_task` has taken `d`. -/
def note (s : Visit) (ch : RelayChannel) (d : Delivery) : Visit :=
  match d.msg with
  | .binary b =>
      match ch.debatch.push b with
      | (.ok frames, debatch) => { s with
          frames := s.frames ++ provenance s.opened d.origin frames.length
          opened := if debatch.partial_ = [] then []
            else (if frames = [] then s.opened else []) ++ [d.origin] }
      | (.error _, _) => s
  | .text (.ack _) => { s with acks := s.acks ++ [d.origin] }
  | .text .peerJoined => if d.origin = none then { s with told := true } else s
  | _ => s

/-- The client after `connect` has taken `m`. -/
def waited (ws : Nat) : WsMessage → Client
  | .text .peerJoined => .up ws .spawn
  | .close => .gone
  | _ => .waiting ws

/-- A step of the channel. -/
def chanStep (s : Visit) (ws : Nat) (ch : RelayChannel) (a : RelayChannel.Act) : Option Visit :=
  (ch.step (s.wire.map Delivery.msg) a).map fun r =>
    let s' := match a, s.wire with
      | .next, d :: _ => s.note ch d
      | _, _ => s
    { s' with
      client := .up ws r.1
      wire := s.wire.drop (s.wire.length - r.2.1.length) }

def step (s : Visit) : VisitEvent → Option Visit
  | .room e => some { s with
      room := s.room.step e
      wire := s.wire ++ (match s.client.socket with
        | some ws => posted parse s.room e ws
        | none => []) }
  | .dial =>
      match s.client with
      | .away =>
          match s.room.handle (joinEvent role) with
          | .ok _ room => some { s with
              room := room
              client := .waiting s.room.next
              wire := posted parse s.room (joinEvent role) s.room.next }
          | .error _ room => some { s with room := room, client := .gone }
      | _ => none
  | .platform close => some { s with
      wire := s.wire ++ [⟨none, if close then .close else .text .pong⟩] }
  | .wait =>
      match s.client, s.wire with
      | .waiting ws, d :: rest => some { s with wire := rest, client := waited ws d.msg }
      | _, _ => none
  | .giveUp =>
      match s.client with
      | .waiting _ => some { s with client := .gone }
      | _ => none
  | .chan a =>
      match s.client with
      | .up ws ch => s.chanStep ws ch a
      | _ => none

def run (s : Visit) : List VisitEvent → Option Visit
  | [] => some s
  | e :: es => (s.step parse role e).bind fun s => s.run es

/-- Nobody has joined yet. -/
def start : Visit := ⟨.empty, .away, [], [], [], [], false⟩

/-- How many frames `recv` has returned. -/
def received (s : Visit) : Nat :=
  match s.client with
  | .up _ ch => ch.received.length
  | _ => 0

/-- All that the channel has handed on comes from one socket, and once it is told of another one it has
ended. -/
structure Isolated (s : Visit) : Prop where
  source : ∃ peer, (∀ origins ∈ s.frames.take s.received, ∀ o ∈ origins, o = some peer) ∧
    ∀ o ∈ s.acks, o = some peer
  ended : s.told = true → ∀ ws ch, s.client = .up ws ch → ch.dead.isSome

/-- While the client has a socket in the room, nobody joins a role that has one listed; and when the
client joins, its role has none and the other at most one. -/
def Meets (s : Visit) : VisitEvent → Prop
  | .dial => s.room.sockets role = [] ∧ (s.room.sockets role.other).length ≤ 1
  | .room (.join upgrade param) => s.client.socket.isSome → ∀ r, Room.joinRole upgrade param = some r →
      s.room.sockets r = []
  | _ => True

/-- Every event of a run meets the condition where it happens. -/
def AllMeet (s : Visit) : List VisitEvent → Prop
  | [] => True
  | e :: es => s.Meets role e ∧ ∀ s', s.step parse role e = some s' → s'.AllMeet es

end

/-! ## What a room without takeovers tells a client -/

/-- What is still on the way to a client that has heard of the peer `p` so far (if of any): one peer at
a time, its messages between the room's two notices about it; `q` is the last one. -/
inductive Script : Option Nat → List Delivery → Option Nat → Prop
  | nil (p : Option Nat) : Script p [] p
  | joined {o : Nat} {rest : List Delivery} {q : Option Nat} (h : Script (some o) rest q) :
      Script none (⟨none, .text .peerJoined⟩ :: rest) q
  | forwarded {o : Nat} {m : WsMessage} {rest : List Delivery} {q : Option Nat}
      (h : Script (some o) rest q) : Script (some o) (⟨some o, m⟩ :: rest) q
  | left {o : Nat} {rest : List Delivery} {q : Option Nat} (h : Script none rest q) :
      Script (some o) (⟨none, .text .peerLeft⟩ :: rest) q
  | noise {p : Option Nat} {m : WsMessage} (hm : m = .text .pong ∨ m = .close) {rest : List Delivery}
      {q : Option Nat} (h : Script p rest q) : Script p (⟨none, m⟩ :: rest) q

theorem Script.append {p q q' : Option Nat} {l l' : List Delivery} (h : Script p l q)
    (h' : Script q l' q') : Script p (l ++ l') q' := by
  induction h with
  | nil p => exact h'
  | joined _ ih => exact .joined (ih h')
  | forwarded _ ih => exact .forwarded (ih h')
  | left _ ih => exact .left (ih h')
  | noise hm _ ih => exact .noise hm (ih h')

section room

variable {r : Room} {role : Role} {ws : Nat} {q : Option Nat}

/-- No role has more than one socket listed. -/
def Solo (r : Room) : Prop := ∀ role, (r.sockets role).length ≤ 1

/-- The client's socket is its own: older than the next one, and none of the other role's. -/
structure Seat (r : Room) (role : Role) (ws : Nat) : Prop where
  solo : Solo r
  lt : ws < r.next
  apart : ∀ s ∈ r.sockets role.other, s.id ≠ ws

/-- As long as the client can be reached, `q` is the socket of the other role. -/
def Linked (r : Room) (role : Role) (ws : Nat) (q : Option Nat) : Prop :=
  ∀ s ∈ r.sockets role, s.id = ws → s.closed = false →
    q = (r.sockets role.other).head?.map Socket.id

theorem Solo.eq_singleton (h : Solo r) {role : Role} {s : Socket} (hs : s ∈ r.sockets role) :
    r.sockets role = [s] := by
  have hone := h role
  cases hl : r.sockets role with
  | nil => simp [hl] at hs
  | cons t rest =>
      rw [hl, List.length_cons] at hone
      have hrest : rest = [] := List.length_eq_zero_iff.mp (by omega)
      rw [hl, hrest, List.mem_singleton] at hs
      rw [hs, hrest]

variable (parse : String → Option Control)

theorem posted_eq {e : RoomEvent} {new : List (Nat × Sent)} (h : (r.step e).sent = new ++ r.sent) :
    posted parse r e ws = (new.reverse.filter fun x => decide (x.1 = ws)).map
      fun x => ⟨originOf e, toMessage parse x.2⟩ := by
  rw [posted, h]
  simp

/-- A socket that is out of reach is linked to anything. -/
theorem linked_of_unreachable (h : ∀ s ∈ r.sockets role, s.id = ws → s.closed = true) :
    Linked r role ws q := by
  intro s hs hid hopen
  rw [h s hs hid] at hopen
  cases hopen

/-- The event is not a join to a role that has a socket. -/
def Vacant (r : Room) (e : RoomEvent) : Prop :=
  ∀ upgrade param role, e = .join upgrade param → Room.joinRole upgrade param = some role →
    r.sockets role = []

theorem Seat.joined (h : Seat r role ws) {a : Role} (ha : r.sockets a = []) :
    Seat (r.joined a) role ws := by
  have hself : (r.joined a).sockets a = [⟨r.next, false⟩] := by
    rw [Room.joined_self, ha]
    rfl
  refine ⟨?_, ?_, ?_⟩
  · intro b
    rcases Role.eq_or_eq_other b a with rfl | rfl
    · rw [hself]
      exact le_refl 1
    · rw [Room.joined_other]
      exact h.solo _
  · exact Nat.lt_succ_of_lt h.lt
  · intro s hs
    rcases Role.eq_or_eq_other role.other a with rfl | heq
    · rw [hself, List.mem_singleton] at hs
      rw [hs]
      exact (Nat.ne_of_lt h.lt).symm
    · rw [heq, Room.joined_other, ← heq] at hs
      exact h.apart s hs

theorem Seat.unlist (h : Seat r role ws) (a : Role) (ws' : Nat) : Seat (r.unlist a ws') role ws := by
  have hsub : ∀ b, ((r.unlist a ws').sockets b).Sublist (r.sockets b) := by
    intro b
    rcases Role.eq_or_eq_other b a with rfl | rfl
    · rw [Room.unlist_self]
      exact List.filter_sublist
    · rw [Room.unlist_other]
  refine ⟨?_, h.lt, ?_⟩
  · intro b
    exact Nat.le_trans (hsub b).length_le (h.solo b)
  · intro s hs
    exact h.apart s ((hsub _).subset hs)

/-- The client keeps its seat. -/
theorem Seat.step (h : Seat r role ws) {e : RoomEvent} (he : Vacant r e) :
    Seat (r.step e) role ws := by
  have hout := Room.outcome r e
  generalize r.step e = r' at hout
  cases hout with
  | idle => exact h
  | joinedAlone hj hh =>
      have hjoined := h.joined (he _ _ _ rfl hj)
      exact ⟨hjoined.solo, hjoined.lt, hjoined.apart⟩
  | joinThrew hj hh ho =>
      have hjoined := h.joined (he _ _ _ rfl hj)
      exact ⟨hjoined.solo, hjoined.lt, hjoined.apart⟩
  | paired hj hh ho =>
      have hjoined := h.joined (he _ _ _ rfl hj)
      exact ⟨hjoined.solo, hjoined.lt, hjoined.apart⟩
  | forwarded => exact ⟨h.solo, h.lt, h.apart⟩
  | @leftQuietly _ a ws' => exact h.unlist a ws'
  | @left _ a ws' =>
      have hunlist := h.unlist a ws'
      exact ⟨hunlist.solo, hunlist.lt, hunlist.apart⟩
  -- the alarm closes every socket, but takes none off the list
  | expired =>
      refine ⟨?_, h.lt, ?_⟩
      · intro b
        simpa [Room.expired, Room.closeAll] using h.solo b
      · intro s hs
        obtain ⟨t, ht, rfl⟩ := Room.mem_closeAll hs
        exact h.apart t ht

/-- Nothing is posted to a client that no new message is for. -/
theorem posted_eq_nil {e : RoomEvent} {new : List (Nat × Sent)}
    (h : (r.step e).sent = new ++ r.sent) (hnew : ∀ x ∈ new, x.1 ≠ ws) : posted parse r e ws = [] := by
  rw [posted_eq parse h, List.map_eq_nil_iff, List.filter_eq_nil_iff]
  intro x hx
  simpa using hnew x (List.mem_reverse.mp hx)

/-- One message to the client, and perhaps one to somebody else. -/
theorem posted_one {e : RoomEvent} {m : Sent} (h : (r.step e).sent = [(ws, m)] ++ r.sent) :
    posted parse r e ws = [⟨originOf e, toMessage parse m⟩] := by
  rw [posted_eq parse h]
  simp

theorem posted_pair {e : RoomEvent} {m m' : Sent} {n : Nat} (hn : n ≠ ws)
    (h : (r.step e).sent = [(ws, m), (n, m')] ++ r.sent) :
    posted parse r e ws = [⟨originOf e, toMessage parse m⟩] := by
  rw [posted_eq parse h]
  simp [hn]

theorem joined_role (r : Room) (role : Role) : (r.joined role.other).sockets role = r.sockets role := by
  have h := Room.joined_other r role.other
  rwa [Role.other_other] at h

theorem unlist_role (r : Room) (role : Role) (ws : Nat) :
    (r.unlist role.other ws).sockets role = r.sockets role := by
  have h := Room.unlist_other r role.other ws
  rwa [Role.other_other] at h

/-- In a room of single sockets, a client is out of reach if somebody else, or nobody, is first. -/
theorem Seat.unreachable (h : Seat r role ws)
    (hh : ∀ o, (r.sockets role).head? = some o → o.id = ws → o.closed = true) :
    ∀ s ∈ r.sockets role, s.id = ws → s.closed = true := by
  intro s hs hid
  refine hh s ?_ hid
  rw [h.solo.eq_singleton hs]
  rfl

theorem Seat.unreachable_of_head (h : Seat r role ws) {o : Socket} (hh : (r.sockets role).head? = some o)
    (ho : o.id = ws → o.closed = true) : ∀ s ∈ r.sockets role, s.id = ws → s.closed = true := by
  refine h.unreachable fun o' ho' => ?_
  rw [hh] at ho'
  cases ho'
  exact ho

/-- A client that can be reached has the socket of the other role as its peer. -/
theorem Linked.eq_some (hlink : Linked r role ws q) (hseat : Seat r role ws) {o x : Socket}
    (hh : (r.sockets role).head? = some o) (hid : o.id = ws) (ho : o.closed = false)
    (hx : x ∈ r.sockets role.other) : q = some x.id := by
  rw [hlink o (List.mem_of_mem_head? hh) hid ho, hseat.solo.eq_singleton hx]
  rfl

/-- **One event**: what the client is sent goes on with the same peer, or with another one after
`peer-left`. -/
theorem script_step (hseat : Seat r role ws) (hlink : Linked r role ws q) {e : RoomEvent}
    (he : Vacant r e) : ∃ q', Script q (posted parse r e ws) q' ∧ Linked (r.step e) role ws q' := by
  have hnext : r.next ≠ ws := (Nat.ne_of_lt hseat.lt).symm
  have hquiet : ∀ {n : List (Nat × Sent)}, (r.step e).sent = n ++ r.sent →
      (∀ x ∈ n, x.1 ≠ ws) → Linked (r.step e) role ws q →
      ∃ q', Script q (posted parse r e ws) q' ∧ Linked (r.step e) role ws q' := by
    intro new hsent hnew hlink'
    rw [posted_eq_nil parse hsent hnew]
    exact ⟨q, .nil q, hlink'⟩
  -- a socket that has just joined the client's role is not the client's
  have hfresh : ∀ l, l = [(⟨r.next, false⟩ : Socket)] → ∀ s ∈ l, s.id = ws → s.closed = true := by
    rintro _ rfl s hs hid
    rw [List.mem_singleton] at hs
    rw [hs] at hid
    exact absurd hid hnext
  have hout := Room.outcome r e
  generalize hr' : r.step e = r' at hout hquiet ⊢
  cases hout with
  | idle => exact hquiet (n := []) rfl (by simp) hlink
  -- the newcomer finds no peer, so nobody hears of it
  | @joinedAlone upgrade param a hj hh =>
      refine hquiet (n := []) rfl (by simp) (linked_of_unreachable ?_)
      rcases Role.eq_or_eq_other a role with rfl | rfl
      · exact hfresh _ (by rw [Room.joined_self, he _ _ _ rfl hj]; rfl)
      · intro s hs
        rw [Role.other_other, List.head?_eq_none_iff] at hh
        rw [show _ = _ from joined_role r role, hh] at hs
        cases hs
  -- `peerOf` gave a socket that is closed, and the second `send` throws: only the newcomer was told
  | @joinThrew upgrade param a o hj hh ho =>
      refine hquiet (n := [(r.next, .notice .peerJoined)]) rfl (by simpa using hnext)
        (linked_of_unreachable ?_)
      rcases Role.eq_or_eq_other a role with rfl | rfl
      · exact hfresh _ (by rw [Room.joined_self, he _ _ _ rfl hj]; rfl)
      · intro s hs hid
        rw [Role.other_other] at hh
        rw [show _ = _ from joined_role r role] at hs
        exact hseat.unreachable_of_head hh (fun _ => ho) s hs hid
  | @paired upgrade param a o hj hh ho =>
      rcases Role.eq_or_eq_other a role with rfl | rfl
      · -- a join to the client's own role, which has no socket
        refine hquiet (n := [(o.id, .notice .peerJoined), (r.next, .notice .peerJoined)]) rfl ?_
          (linked_of_unreachable (hfresh _ (by rw [Room.joined_self, he _ _ _ rfl hj]; rfl)))
        intro x hx
        rcases List.mem_pair.mp hx with rfl | rfl
        · exact hseat.apart o (List.mem_of_mem_head? hh)
        · exact hnext
      · rw [Role.other_other] at hh
        by_cases hid : o.id = ws
        · -- the client hears of the new socket, and there was none before it
          have hq : q = none := by
            rw [hlink o (List.mem_of_mem_head? hh) hid ho, he _ _ _ rfl hj]
            rfl
          subst hq
          have hsent : (r.step (.join upgrade param)).sent = [(ws, .notice .peerJoined),
              (r.next, .notice .peerJoined)] ++ r.sent := by rw [hr', ← hid]; rfl
          refine ⟨some r.next, ?_, ?_⟩
          · rw [posted_pair parse hnext hsent]
            exact .joined (.nil _)
          · intro s hs hs' _
            show _ = ((r.joined role.other).sockets role.other).head?.map Socket.id
            rw [Room.joined_self, he _ _ _ rfl hj]
            rfl
        · refine hquiet (n := [(o.id, .notice .peerJoined), (r.next, .notice .peerJoined)]) rfl
            (by simpa using ⟨hid, hnext⟩) (linked_of_unreachable ?_)
          intro s hs hs'
          rw [show _ = _ from joined_role r role] at hs
          exact hseat.unreachable_of_head hh (fun hid' => absurd hid' hid) s hs hs'
  -- a frame reaches the client, and comes from the one it is linked to
  | @forwarded a ws' p o hl hh ho =>
      by_cases hid : o.id = ws
      · have ha : a = role.other := by
          rcases Role.eq_or_eq_other a role with rfl | rfl
          · exact absurd hid (hseat.apart o (List.mem_of_mem_head? hh))
          · rfl
        subst ha
        rw [Role.other_other] at hh
        obtain ⟨x, hx, rfl⟩ := hl
        obtain rfl : q = some x.id := hlink.eq_some hseat hh hid ho hx
        have hsent : (r.step (.message role.other x.id p)).sent
            = [(ws, .forwarded p)] ++ r.sent := by rw [hr', ← hid]; rfl
        refine ⟨some x.id, ?_, hlink⟩
        rw [posted_one parse hsent]
        exact .forwarded (.nil _)
      · exact hquiet (n := [(o.id, .forwarded p)]) rfl (by simpa using hid) hlink
  -- somebody left, and no `peer-left` is sent
  | @leftQuietly _ a ws' hev hl hq =>
      refine hquiet (n := []) rfl (by simp) ?_
      rcases Role.eq_or_eq_other a role with rfl | rfl
      · intro s hs hid hopen
        rw [Room.unlist_self] at hs
        rw [Room.unlist_other]
        exact hlink s (List.mem_of_mem_filter hs) hid hopen
      · rcases hq with ⟨s, hs, hne⟩ | hclosed
        · -- the one socket of the other role is the one that left
          obtain ⟨x, hx, rfl⟩ := hl
          rw [hseat.solo.eq_singleton hx, List.mem_singleton] at hs
          exact absurd (congrArg Socket.id hs) hne
        · rw [Role.other_other] at hclosed
          refine linked_of_unreachable ?_
          intro s hs hid
          rw [unlist_role] at hs
          exact hseat.unreachable (fun o ho _ => hclosed o ho) s hs hid
  -- the client's peer hears of its leaving, or the client of its peer's
  | @left _ a ws' o hev hl honly hh ho =>
      rcases Role.eq_or_eq_other a role with rfl | rfl
      · refine hquiet (n := [(o.id, .notice .peerLeft)]) rfl
          (by simpa using hseat.apart o (List.mem_of_mem_head? hh)) (linked_of_unreachable ?_)
        intro s hs
        rw [show _ = _ from Room.unlist_self r a ws', List.mem_filter, decide_eq_true_iff] at hs
        exact absurd (honly s hs.1) hs.2
      · rw [Role.other_other] at hh
        by_cases hid : o.id = ws
        · obtain ⟨x, hx, rfl⟩ := hl
          obtain rfl : q = some x.id := hlink.eq_some hseat hh hid ho hx
          have hsent : (r.step e).sent = [(ws, .notice .peerLeft)] ++ r.sent := by rw [hr', ← hid]; rfl
          have horigin : originOf e = none := by
            rcases hev with rfl | rfl
            · rfl
            · rfl
          refine ⟨none, ?_, ?_⟩
          · rw [posted_one parse hsent, horigin]
            exact .left (.nil _)
          · intro s _ _ _
            show none = ((r.unlist role.other x.id).sockets role.other).head?.map Socket.id
            rw [Room.unlist_self, hseat.solo.eq_singleton hx]
            simp
        · refine hquiet (n := [(o.id, .notice .peerLeft)]) rfl (by simpa using hid)
            (linked_of_unreachable ?_)
          intro s hs hs'
          rw [show _ = _ from unlist_role r role ws'] at hs
          exact hseat.unreachable_of_head hh (fun hid' => absurd hid' hid) s hs hs'
  -- every socket is closed now, so the client is out of reach
  | expired ha =>
      refine hquiet (n := []) rfl (by simp) (linked_of_unreachable ?_)
      intro s hs hid
      obtain ⟨t, -, rfl⟩ := Room.mem_closeAll hs
      rfl

end room

/-! ## The channel -/

/-- A task that has ended does not come back. -/
theorem dead_of_step {h h' : RecvHalf} {ps ps' : List Bytes} {as : List Nat}
    (hs : h.Step ps h' ps' as) (hdead : h'.dead = none) : h.dead = none := by
  cases hs with
  | bad => cases hdead
  | die => cases hdead
  | _ => exact hdead

/-- Only `ws.next()` takes a message. -/
theorem incoming_of_ioStep {ch ch' : RelayChannel} {msgs msgs' out : List WsMessage}
    {a : RelayChannel.Act} (ha : a ≠ .next) (h : ch.ioStep msgs a = some (ch', msgs', out)) :
    msgs' = msgs := by
  cases a with
  | next => exact absurd rfl ha
  | send f stalled => cases h
  | recv => cases h
  | close => cases h
  | drop => cases h
  | _ =>
      obtain ⟨_, _, heq⟩ := Option.map_eq_some_iff.mp h
      cases heq
      rfl

/-- A channel either takes the next message, or leaves the messages alone; and it does not come back to
life. -/
theorem chan_cases {ch ch' : RelayChannel} {msgs msgs' out : List WsMessage} {a : RelayChannel.Act}
    (h : ch.step msgs a = some (ch', msgs', out)) :
    (a = .next ∧ ch.dead = none ∧ ch.phase = .top ∧ ∃ m, msgs = m :: msgs' ∧ ch' = ch.handle m) ∨
      (a ≠ .next ∧ msgs' = msgs ∧ (ch'.dead = none → ch.dead = none)) := by
  have hmoves := RelayChannel.moves h
  rw [RelayChannel.step] at h
  split at h
  · next ch₁ happ =>
      cases h
      refine .inr ⟨?_, rfl, dead_of_step hmoves.recv⟩
      rintro rfl
      cases happ
  split at h
  · next hdead =>
      by_cases ha : a = .next
      · subst ha
        obtain ⟨⟨ch₁, rest⟩, h₁, heq⟩ := Option.map_eq_some_iff.mp h
        cases heq
        -- only `next` takes a message off the wire
        unfold RelayChannel.next at h₁
        split at h₁
        · cases h₁
        · next m rest =>
            split at h₁
            · next hsel =>
                cases h₁
                exact .inl ⟨rfl, hdead, hsel.1, m, rfl, rfl⟩
            · cases h₁
      · exact .inr ⟨ha, incoming_of_ioStep ha h, fun _ => hdead⟩
  · cases h

/-- The channel takes a message that its reassembly accepts. -/
theorem chanStep_binary {s : Visit} {ws : Nat} {ch : RelayChannel} {o : Option Nat} {b : Bytes}
    {rest : List Delivery} {frames : List Bytes} {d : Debatcher} (hwire : s.wire = ⟨o, .binary b⟩ :: rest)
    (hdead : ch.dead = none) (hsel : ch.Selecting) (hpush : ch.debatch.push b = (.ok frames, d)) :
    s.chanStep ws ch .next = some { s with
      client := .up ws { ch with debatch := d, phase := .delivering frames }
      wire := rest
      frames := s.frames ++ provenance s.opened o frames.length
      opened := if d.partial_ = [] then [] else (if frames = [] then s.opened else []) ++ [o] } := by
  have hnote : s.note ch ⟨o, .binary b⟩ = { s with
      frames := s.frames ++ provenance s.opened o frames.length
      opened := if d.partial_ = [] then [] else (if frames = [] then s.opened else []) ++ [o] } := by
    simp only [note, hpush]
  have hhandle : ch.handle (.binary b) = { ch with debatch := d, phase := .delivering frames } := by
    simp only [RelayChannel.handle, hpush]
  have hstep : ch.step (⟨o, .binary b⟩ :: rest |>.map Delivery.msg) .next
      = some (ch.handle (.binary b), rest.map Delivery.msg, []) := by
    simp [RelayChannel.step, RelayChannel.appStep, RelayChannel.ioStep, RelayChannel.next, hdead, hsel]
  simp only [chanStep, hwire, hstep, hhandle, hnote, Option.map_some, List.length_map,
    List.length_cons, Nat.add_sub_cancel_left, List.drop_succ_cons, List.drop_zero]

/-! ## The invariant -/

/-- All that has been noted comes from `peer`, and nothing of another one. -/
structure OnlyFrom (peer : Nat) (s : Visit) : Prop where
  opened : ∀ o ∈ s.opened, o = some peer
  frames : ∀ origins ∈ s.frames, ∀ o ∈ origins, o = some peer
  acks : ∀ o ∈ s.acks, o = some peer
  told : s.told = false

/-- Nothing has been noted. -/
structure Blank (s : Visit) : Prop where
  opened : s.opened = []
  frames : s.frames = []
  acks : s.acks = []
  told : s.told = false

theorem Blank.onlyFrom {s : Visit} (h : Blank s) (peer : Nat) : OnlyFrom peer s := by
  refine ⟨?_, ?_, ?_, h.told⟩
  · simp [h.opened]
  · simp [h.frames]
  · simp [h.acks]

section

variable {s : Visit} {role : Role}

/-- Where the client is, given what is on the way to it. -/
def Placed (role : Role) (s : Visit) : Client → Prop
  | .away => Blank s
  | .gone => Blank s
  | .waiting ws => Blank s ∧ Seat s.room role ws ∧
      ∃ q, Script none s.wire q ∧ Linked s.room role ws q
  | .up ws ch => Seat s.room role ws ∧ ∃ peer, OnlyFrom peer s ∧
      (ch.dead = none → ∃ q, Script (some peer) s.wire q ∧ Linked s.room role ws q)

theorem mem_provenance {opened : List (Option Nat)} {o : Option Nat} {n : Nat}
    {origins : List (Option Nat)} (h : origins ∈ provenance opened o n) :
    ∀ x ∈ origins, x ∈ opened ∨ x = o := by
  intro x hx
  cases n with
  | zero => cases h
  | succ n =>
      rcases List.mem_cons.mp h with rfl | h
      · simpa using hx
      · rw [List.eq_of_mem_replicate h, List.mem_singleton] at hx
        exact .inr hx

/-- A message from the peer keeps the history to it. -/
theorem OnlyFrom.note {peer : Nat} (h : OnlyFrom peer s) (ch : RelayChannel) (m : WsMessage) :
    OnlyFrom peer (s.note ch ⟨some peer, m⟩) := by
  unfold Visit.note
  split
  · next b =>
      split
      · next frames debatch hpush =>
          -- the frame that was begun, and those that this message ends
          refine ⟨?_, ?_, h.acks, h.told⟩
          · intro o ho
            dsimp only at ho
            split at ho
            · cases ho
            rcases List.mem_append.mp ho with ho | ho
            · split at ho
              · exact h.opened o ho
              · cases ho
            · exact List.mem_singleton.mp ho
          · intro origins horigins o ho
            rcases List.mem_append.mp horigins with hold | hnew
            · exact h.frames origins hold o ho
            · rcases mem_provenance hnew o ho with hin | rfl
              · exact h.opened o hin
              · rfl
      · exact h
  · refine ⟨h.opened, h.frames, ?_, h.told⟩
    intro o ho
    rcases List.mem_append.mp ho with ho | ho
    · exact h.acks o ho
    · exact List.mem_singleton.mp ho
  · exact h
  · exact h

theorem note_room (s : Visit) (ch : RelayChannel) (d : Delivery) : (s.note ch d).room = s.room := by
  unfold Visit.note
  repeat' split
  all_goals rfl

/-- **A step of the channel**: it notes messages of its peer only, and ends when the peer has left. -/
theorem placed_chan {s' : Visit} {ws : Nat} {ch : RelayChannel} {a : RelayChannel.Act}
    (h : Placed role s (.up ws ch)) (hs : s.chanStep ws ch a = some s') :
    Placed role s' s'.client := by
  obtain ⟨hseat, peer, honly, hscript⟩ := h
  obtain ⟨⟨ch', msgs', out⟩, hstep, rfl⟩ := Option.map_eq_some_iff.mp hs
  rcases chan_cases hstep with ⟨rfl, hdead, -, m, hmsgs, rfl⟩ | ⟨ha, rfl, hdead⟩
  · -- the head of the wire is taken
    obtain ⟨q, hq, hlink⟩ := hscript hdead
    obtain ⟨d, rest, hwire, rfl, hrest⟩ := List.map_eq_cons_iff.mp hmsgs
    have hdrop : s.wire.drop (s.wire.length - msgs'.length) = rest := by
      rw [hwire, ← hrest]
      simp
    rw [hwire] at hq
    dsimp only
    rw [hdrop, hwire]
    refine ⟨(note_room s ch d).symm ▸ hseat, peer, ?_, ?_⟩
    · have hnoted : OnlyFrom peer (s.note ch d) := by
        cases hq with
        | forwarded hq => exact honly.note ch _
        | left hq => exact honly
        | noise hm hq =>
            rcases hm with rfl | rfl
            · exact honly
            · exact honly
      exact ⟨hnoted.opened, hnoted.frames, hnoted.acks, hnoted.told⟩
    · intro halive
      refine ⟨q, ?_, (note_room s ch d).symm ▸ hlink⟩
      cases hq with
      | forwarded hq => exact hq
      -- after `peer-left` the task is dead
      | left hq => cases halive
      | noise hm hq => exact hq
  -- anything else leaves the wire alone
  · have hdrop : s.wire.drop (s.wire.length - (s.wire.map Delivery.msg).length) = s.wire := by
      simp
    dsimp only
    rw [hdrop]
    split
    · exact absurd rfl ha
    · exact ⟨hseat, peer, ⟨honly.opened, honly.frames, honly.acks, honly.told⟩,
        fun halive => hscript (hdead halive)⟩

/-- `connect` takes a message. -/
theorem placed_wait {ws : Nat} {d : Delivery} {rest : List Delivery} (hwire : s.wire = d :: rest)
    (h : Placed role s (.waiting ws)) :
    Placed role { s with wire := rest, client := waited ws d.msg } (waited ws d.msg) := by
  obtain ⟨hblank, hseat, q, hq, hlink⟩ := h
  have hblank' : Blank { s with wire := rest, client := waited ws d.msg } :=
    ⟨hblank.opened, hblank.frames, hblank.acks, hblank.told⟩
  rw [hwire] at hq
  cases hq with
  | @joined o _ _ hq => exact ⟨hseat, o, hblank'.onlyFrom o, fun _ => ⟨q, hq, hlink⟩⟩
  | noise hm hq =>
      rcases hm with rfl | rfl
      · exact ⟨hblank', hseat, q, hq, hlink⟩
      · exact hblank'

variable (parse : String → Option Control)

theorem Blank.withWire (h : Blank s) (r : Room) (c : Client) (w : List Delivery) :
    Blank { s with room := r, client := c, wire := w } := ⟨h.opened, h.frames, h.acks, h.told⟩

/-- The client's own join. -/
theorem placed_dial (hblank : Blank s) (hown : s.room.sockets role = [])
    (hother : (s.room.sockets role.other).length ≤ 1) (hwf : s.room.Wf) {room : Room}
    (h : s.room.handle (joinEvent role) = .ok () room) :
    Placed role { s with
      room := room
      client := .waiting s.room.next
      wire := posted parse s.room (joinEvent role) s.room.next } (.waiting s.room.next) := by
  have hjoin : Room.joinRole (some "websocket") (some (roleText role)) = some role := by
    cases role <;> rfl
  have hself : (s.room.joined role).sockets role = [⟨s.room.next, false⟩] := by
    rw [Room.joined_self, hown]
    rfl
  have hapart : ∀ x ∈ s.room.sockets role.other, x.id ≠ s.room.next :=
    fun x hx => Nat.ne_of_lt (hwf.fresh _ x hx)
  have hseat : Seat (s.room.joined role) role s.room.next := by
    refine ⟨?_, Nat.lt_succ_self _, ?_⟩
    · intro b
      rcases Role.eq_or_eq_other b role with rfl | rfl
      · rw [hself]
        exact le_refl 1
      · rw [Room.joined_other]
        exact hother
    · rw [Room.joined_other]
      exact hapart
  have hstep : s.room.step (joinEvent role) = room := by
    rw [Room.step, h]
    rfl
  have hsent : ∀ new : List (Nat × Sent), room.sent = new ++ s.room.sent →
      posted parse s.room (joinEvent role) s.room.next
        = (new.reverse.filter fun x => decide (x.1 = s.room.next)).map
          fun x => ⟨none, toMessage parse x.2⟩ :=
    fun new hnew => posted_eq parse (by rw [hstep, hnew])
  rw [joinEvent, Room.handle_join s.room hjoin] at h
  -- does the client find a peer in the room?
  cases hh : (s.room.sockets role.other).head? with
  | none =>
      rw [hh] at h
      cases h
      rw [hsent [] rfl]
      refine ⟨hblank.withWire _ _ _, ⟨hseat.solo, hseat.lt, hseat.apart⟩, none, .nil _, ?_⟩
      intro x _ _ _
      show none = ((s.room.joined role).sockets role.other).head?.map Socket.id
      rw [Room.joined_other, hh]
      rfl
  | some o =>
      rw [hh] at h
      dsimp only at h
      split at h
      · cases h
      · cases h
        have hne := hapart o (List.mem_of_mem_head? hh)
        -- both are told, the client first
        rw [hsent [(o.id, .notice .peerJoined), (s.room.next, .notice .peerJoined)] rfl]
        refine ⟨hblank.withWire _ _ _, ⟨hseat.solo, hseat.lt, hseat.apart⟩, some o.id, ?_, ?_⟩
        · simp only [List.reverse_cons, List.reverse_nil, List.nil_append, List.cons_append,
            List.filter_cons, decide_true, hne, decide_false, List.filter_nil, if_true,
            Bool.false_eq_true, if_false, List.map_cons, List.map_nil]
          exact .joined (.nil _)
        · intro x _ _ _
          show some o.id = ((s.room.joined role).sockets role.other).head?.map Socket.id
          rw [Room.joined_other, hh]
          rfl

/-- What always holds of a visit without takeovers. -/
structure Inv (role : Role) (s : Visit) : Prop where
  wf : s.room.Wf
  placed : Placed role s s.client

theorem inv_start : Inv role start := ⟨Room.wf_empty, rfl, rfl, rfl, rfl⟩

/-- An event in the room. -/
theorem Inv.room (h : Inv role s) {e : RoomEvent} (hm : s.Meets role (.room e)) :
    Inv role { s with
      room := s.room.step e
      wire := s.wire ++ (match s.client.socket with
        | some ws => posted parse s.room e ws
        | none => []) } := by
  refine ⟨h.wf.step e, ?_⟩
  have hvacant : s.client.socket.isSome → Vacant s.room e := by
    rintro hsome upgrade param a rfl hj
    exact hm hsome a hj
  have hplaced := h.placed
  dsimp only
  cases hc : s.client with
  -- without a socket nothing is sent to the client
  | away =>
      rw [hc] at hplaced
      exact ⟨hplaced.opened, hplaced.frames, hplaced.acks, hplaced.told⟩
  | gone =>
      rw [hc] at hplaced
      exact ⟨hplaced.opened, hplaced.frames, hplaced.acks, hplaced.told⟩
  | waiting ws =>
      rw [hc] at hplaced hvacant
      obtain ⟨hblank, hseat, q, hq, hlink⟩ := hplaced
      obtain ⟨q', hq', hlink'⟩ := script_step parse hseat hlink (hvacant rfl)
      exact ⟨⟨hblank.opened, hblank.frames, hblank.acks, hblank.told⟩, hseat.step (hvacant rfl), q',
        hq.append hq', hlink'⟩
  | up ws ch =>
      rw [hc] at hplaced hvacant
      obtain ⟨hseat, peer, honly, hscript⟩ := hplaced
      refine ⟨hseat.step (hvacant rfl), peer,
        ⟨honly.opened, honly.frames, honly.acks, honly.told⟩, fun halive => ?_⟩
      -- what the room sends carries the script on
      obtain ⟨q, hq, hlink⟩ := hscript halive
      obtain ⟨q', hq', hlink'⟩ := script_step parse hseat hlink (hvacant rfl)
      exact ⟨q', hq.append hq', hlink'⟩

/-- A message of the platform's own. -/
theorem Inv.platform (h : Inv role s) (close : Bool) :
    Inv role { s with wire := s.wire ++ [⟨none, if close then .close else .text .pong⟩] } := by
  have hnoise : ∀ p, Script p [⟨none, if close then .close else .text .pong⟩] p := by
    intro p
    cases close with
    | true => exact .noise (.inr rfl) (.nil _)
    | false => exact .noise (.inl rfl) (.nil _)
  -- the room is not touched
  refine ⟨h.wf, ?_⟩
  have hplaced := h.placed
  dsimp only
  cases hc : s.client with
  | away =>
      rw [hc] at hplaced
      exact ⟨hplaced.opened, hplaced.frames, hplaced.acks, hplaced.told⟩
  | gone =>
      rw [hc] at hplaced
      exact ⟨hplaced.opened, hplaced.frames, hplaced.acks, hplaced.told⟩
  | waiting ws =>
      rw [hc] at hplaced
      obtain ⟨hblank, hseat, q, hq, hlink⟩ := hplaced
      exact ⟨⟨hblank.opened, hblank.frames, hblank.acks, hblank.told⟩, hseat, q,
        hq.append (hnoise q), hlink⟩
  | up ws ch =>
      rw [hc] at hplaced
      obtain ⟨hseat, peer, honly, hscript⟩ := hplaced
      refine ⟨hseat, peer, ⟨honly.opened, honly.frames, honly.acks, honly.told⟩, fun halive => ?_⟩
      obtain ⟨q, hq, hlink⟩ := hscript halive
      exact ⟨q, hq.append (hnoise q), hlink⟩

/-- **One event keeps the invariant.** -/
theorem Inv.step (h : Inv role s) {e : VisitEvent} (hm : s.Meets role e) {s' : Visit}
    (hs : s.step parse role e = some s') : Inv role s' := by
  have hplaced := h.placed
  cases e with
  | room e =>
      cases hs
      exact h.room parse hm
  | platform close =>
      cases hs
      exact h.platform close
  -- the upgrade, or an error from the room
  | dial =>
      simp only [Visit.step] at hs
      split at hs
      · next hc =>
          rw [hc] at hplaced
          split at hs
          · next room hok =>
              cases hs
              have hwf : room.Wf := by
                have hwf := h.wf.step (joinEvent role)
                rwa [Room.step, hok] at hwf
              exact ⟨hwf, placed_dial parse hplaced hm.1 hm.2 h.wf hok⟩
          · next room herr =>
              cases hs
              have hwf : room.Wf := by
                have hwf := h.wf.step (joinEvent role)
                rwa [Room.step, herr] at hwf
              exact ⟨hwf, ⟨hplaced.opened, hplaced.frames, hplaced.acks, hplaced.told⟩⟩
      · cases hs
  | wait =>
      simp only [Visit.step] at hs
      split at hs
      · next ws d rest hc hwire =>
          rw [hc] at hplaced
          cases hs
          exact ⟨h.wf, placed_wait hwire hplaced⟩
      · cases hs
  -- the patience of the client has run out
  | giveUp =>
      simp only [Visit.step] at hs
      split at hs
      · next ws hc =>
          rw [hc] at hplaced
          cases hs
          exact ⟨h.wf, hplaced.1.opened, hplaced.1.frames, hplaced.1.acks, hplaced.1.told⟩
      · cases hs
  | chan a =>
      simp only [Visit.step] at hs
      split at hs
      · next ws ch hc =>
          rw [hc] at hplaced
          refine ⟨?_, placed_chan hplaced hs⟩
          obtain ⟨r, -, rfl⟩ := Option.map_eq_some_iff.mp hs
          dsimp only
          split
          · rw [note_room]
            exact h.wf
          · exact h.wf
      · cases hs

theorem runOf : Machines.RunOf (step parse role) (run parse role) := ⟨fun _ => rfl, fun _ _ _ => rfl⟩

theorem Inv.run (h : Inv role s) {es : List VisitEvent} (hm : s.AllMeet parse role es) {s' : Visit}
    (hs : s.run parse role es = some s') : Inv role s' :=
  (runOf parse).invariant_of_all ⟨fun _ _ _ => id⟩ (fun _ _ _ h hm hs => h.step parse hm hs) h hm hs

theorem Inv.isolated (h : Inv role s) : Isolated s := by
  have hplaced := h.placed
  -- before the channel is up, nothing has come in
  have hblank : Blank s → Isolated s := by
    intro hb
    refine ⟨⟨0, ?_, ?_⟩, ?_⟩
    · simp [hb.frames]
    · simp [hb.acks]
    · simp [hb.told]
  cases hc : s.client with
  | away =>
      rw [hc] at hplaced
      exact hblank hplaced
  | gone =>
      rw [hc] at hplaced
      exact hblank hplaced
  | waiting ws =>
      rw [hc] at hplaced
      exact hblank hplaced.1
  | up ws ch =>
      rw [hc] at hplaced
      obtain ⟨-, peer, honly, -⟩ := hplaced
      refine ⟨⟨peer, ?_, honly.acks⟩, ?_⟩
      · exact fun origins horigins => honly.frames origins (List.mem_of_mem_take horigins)
      · simp [honly.told]

/-- **Without takeovers a channel is isolated**: in every run in which nobody joins a role that has a
socket while the client is there, all frames it returns and all acknowledgments it applies come from
one socket, and it is never told of another one. -/
theorem isolated_of_allMeet {es : List VisitEvent} (hm : start.AllMeet parse role es)
    (hs : start.run parse role es = some s) : Isolated s :=
  (inv_start.run parse hm hs).isolated

end

/-- A join of the sender's role. -/
def senderJoins : VisitEvent := .room (joinEvent .send)

/-- The sender's socket `ws` sends one piece of a frame. -/
def senderSends (ws : Nat) (p : Piece UInt8) : VisitEvent :=
  .room (.message .send ws (.binary (encode [p])))

/-- A frame of its only peer is on the way to the client. -/
def paired : Visit where
  room := ((Room.empty.step (joinEvent .recv)).step (joinEvent .send)).step
    (.message .send 1 (.binary (encode [⟨false, [7]⟩])))
  client := .up 0 .spawn
  wire := [⟨some 1, .binary (encode [⟨false, [7]⟩])⟩]
  opened := []
  frames := []
  acks := []
  told := false

/-- The client hears of its peer, which sends a frame. -/
def pairing : List VisitEvent := [.dial, senderJoins, .wait, senderSends 1 ⟨false, [7]⟩]

/-- … and `recv` returns it. -/
def returning : List VisitEvent := [.chan .next, .chan .count, .chan .offer, .chan .recv]

theorem allMeet_paired : start.AllMeet (fun _ => none) .recv (pairing ++ returning) := by
  refine ⟨⟨rfl, Nat.zero_le _⟩, fun s₁ h₁ => ⟨?_, ?_⟩⟩
  · -- the peer's role is free
    cases h₁
    intro _ r hr
    cases hr
    rfl
  · -- nobody joins any more
    intro _ _
    iterate 6 refine ⟨trivial, fun _ _ => ?_⟩
    trivial

/-- A client that gets a frame of its only peer. -/
theorem isolated_of_allMeet_paired : ∃ s, start.AllMeet (fun _ => none) .recv (pairing ++ returning) ∧
    start.run (fun _ => none) .recv (pairing ++ returning) = some s ∧ s.received = 1 ∧
    s.frames = [[some 1]] ∧ Isolated s := by
  have hpush : Debatcher.empty.push (encode [⟨false, [7]⟩]) = (.ok [[7]], ⟨[]⟩) :=
    push_encode (by simp) (by simp [Fits, Debatcher.empty, MAX_LOGICAL_FRAME])
  have hnext : paired.chanStep 0 .spawn .next = some _ := chanStep_binary rfl rfl (by decide) hpush
  have hpaired : start.run (fun _ => none) .recv pairing = some paired := rfl
  have hrun : ∃ s, start.run (fun _ => none) .recv (pairing ++ returning) = some s ∧ s.received = 1 ∧
      s.frames = [[some 1]] := by
    rw [(runOf _).append, hpaired, Option.bind_some]
    show ∃ s, (paired.chanStep 0 .spawn .next).bind _ = some s ∧ _
    rw [hnext]
    exact ⟨_, rfl, rfl, rfl⟩
  obtain ⟨s, hs, hreceived, hframes⟩ := hrun
  exact ⟨s, allMeet_paired, hs, hreceived, hframes, isolated_of_allMeet _ allMeet_paired hs⟩

/-! ## A frame of two senders -/

/-- The first sender's message, the beginning of a frame, is on the way to the client. -/
def begun : Visit where
  room := ((Room.empty.step (joinEvent .recv)).step (joinEvent .send)).step
    (.message .send 1 (.binary (encode [⟨true, [7]⟩])))
  client := .up 0 .spawn
  wire := [⟨some 1, .binary (encode [⟨true, [7]⟩])⟩]
  opened := []
  frames := []
  acks := []
  told := false

/-- The channel has the beginning and has been told of the second sender, whose message is on the way. -/
def midway : Visit where
  room := (begun.room.step (joinEvent .send)).step
    (.message .send 2 (.binary (encode [⟨false, [8]⟩])))
  client := .up 0 { RelayChannel.spawn with debatch := ⟨[7]⟩ }
  wire := [⟨some 2, .binary (encode [⟨false, [8]⟩])⟩]
  opened := [some 1]
  frames := []
  acks := []
  told := true

/-- The channel has a frame of both. -/
def mixed : Visit where
  room := midway.room
  client := .up 0 { RelayChannel.spawn with phase := .delivering [[7, 8]] }
  wire := []
  opened := []
  frames := [[some 1, some 2]]
  acks := []
  told := true

/-- Up to the takeover, and the first message of the second sender. -/
def takeover : List VisitEvent :=
  [.dial, senderJoins, .wait, senderSends 1 ⟨true, [7]⟩] ++
    .chan .next :: [.chan (.ack true), senderJoins, senderSends 2 ⟨false, [8]⟩, .chan .next]

theorem run_takeover : start.run (fun _ => none) .recv takeover = some midway := by
  have hpush : Debatcher.empty.push (encode [⟨true, [7]⟩]) = (.ok [], ⟨[7]⟩) :=
    push_encode (by simp) (by simp [Fits, Debatcher.empty, MAX_LOGICAL_FRAME])
  have hbegun : start.run (fun _ => none) .recv
      [.dial, senderJoins, .wait, senderSends 1 ⟨true, [7]⟩] = some begun := rfl
  have hnext : begun.chanStep 0 .spawn .next = some _ :=
    chanStep_binary rfl rfl (by decide) hpush
  rw [takeover, (runOf _).append, hbegun, Option.bind_some]
  show (begun.chanStep 0 .spawn .next).bind _ = _
  rw [hnext]
  rfl

theorem run_midway : midway.run (fun _ => none) .recv [.chan .next] = some mixed := by
  have hpush : (Debatcher.mk [7]).push (encode [⟨false, [8]⟩]) = (.ok [[7, 8]], ⟨[]⟩) :=
    push_encode (by simp) (by simp [Fits, MAX_LOGICAL_FRAME])
  have hnext : midway.chanStep 0 { RelayChannel.spawn with debatch := ⟨[7]⟩ } .next = some _ :=
    chanStep_binary rfl rfl (by decide) hpush
  show (midway.chanStep 0 { RelayChannel.spawn with debatch := ⟨[7]⟩ } .next).bind _ = _
  rw [hnext]
  rfl

/-- **A frame of two senders**: the second takes over the role in the middle of a frame of the first,
and `recv` returns the beginning of the one and the end of the other, long after the channel was told
of the second. -/
theorem takeover_not_isolated : ∃ es s, start.run (fun _ => none) .recv es = some s ∧
    s.frames = [[some 1, some 2]] ∧ s.received = 1 ∧ ¬ Isolated s := by
  have hrun : ∃ s, start.run (fun _ => none) .recv
      (takeover ++ ([.chan .next] ++ [.chan .count, .chan .offer, .chan .recv])) = some s ∧
      s.frames = [[some 1, some 2]] ∧ s.received = 1 := by
    rw [(runOf _).append, run_takeover, Option.bind_some, (runOf _).append, run_midway]
    exact ⟨_, rfl, rfl, rfl⟩
  obtain ⟨s, hs, hframes, hreceived⟩ := hrun
  refine ⟨_, s, hs, hframes, hreceived, fun h => ?_⟩
  obtain ⟨⟨peer, hframe, -⟩, -⟩ := h
  rw [hframes, hreceived] at hframe
  have hone := hframe [some 1, some 2] (List.mem_singleton.mpr rfl) (some 1) (by decide)
  have htwo := hframe [some 1, some 2] (List.mem_singleton.mpr rfl) (some 2) (by decide)
  rw [← htwo] at hone
  cases hone

/-! ## The history has an entry for every frame -/

/-- The frames `io_task` still has in hand. -/
def inHand : IoPhase → Nat
  | .delivering frames => frames.length
  | .offering _ rest => rest.length + 1
  | _ => 0

/-- The frames that a channel has returned, or may still. -/
def load (h : RecvHalf) : Nat := h.received.length + h.inQueue.length + inHand h.phase

/-- Only a message brings frames. -/
theorem load_of_step {h h' : RecvHalf} {ps : List Bytes} {as : List Nat} (hs : h.Step ps h' ps as) :
    load h' ≤ load h := by
  cases hs with
  | stutter => exact le_refl _
  | close => exact le_refl _
  | die => exact le_refl _
  | recv _ hq =>
      simp only [load, hq, List.length_append, List.length_cons, List.length_nil]
      omega
  | drop =>
      simp only [load, List.length_nil]
      omega
  | turn _ phase c hphase hphase' =>
      -- it turns with nothing in its hands
      have hnone : inHand phase = 0 := by
        rcases hphase' with rfl | ⟨rfl, -⟩
        · rfl
        · rfl
      simp only [load, hnone]
      omega
  | count _ hphase => simp [load, inHand, hphase]
  | offer _ hphase =>
      simp only [load, inHand, hphase, List.length_append, List.length_cons, List.length_nil]
      omega
  | gone _ hphase =>
      simp only [load, inHand, List.length_nil]
      omega
  | ack _ hphase => simp [load, inHand, hphase]
  | noAck _ hphase => simp [load, inHand, hphase]

theorem length_provenance (opened : List (Option Nat)) (o : Option Nat) (n : Nat) :
    (provenance opened o n).length = n := by
  cases n <;> simp [provenance]

/-- Every frame that is returned, or may still be, has its entry. -/
def Counted (s : Visit) : Prop := ∀ ws ch, s.client = .up ws ch → load ch.recvHalf ≤ s.frames.length

variable {s s' : Visit} {parse : String → Option Control} {role : Role}

theorem counted_chan {ws : Nat} {ch : RelayChannel} {a : RelayChannel.Act}
    (h : load ch.recvHalf ≤ s.frames.length) (hs : s.chanStep ws ch a = some s') : Counted s' := by
  obtain ⟨⟨ch', msgs', out⟩, hstep, rfl⟩ := Option.map_eq_some_iff.mp hs
  intro ws' ch₁ hc
  cases hc
  rcases chan_cases hstep with ⟨rfl, -, hphase, m, hmsgs, rfl⟩ | ⟨ha, rfl, -⟩
  · obtain ⟨d, rest, hwire, rfl, -⟩ := List.map_eq_cons_iff.mp hmsgs
    obtain ⟨origin, m⟩ := d
    dsimp only
    rw [hwire]
    dsimp only
    cases m with
    | binary b =>
        rcases hpush : ch.debatch.push b with ⟨frames | frames, debatch⟩
        · simp only [RelayChannel.handle, note, hpush]
          exact h
        · simp only [RelayChannel.handle, note, hpush]
          -- as many frames are noted as the `Debatcher` gives
          simp only [load, inHand, hphase, List.length_append, length_provenance] at h ⊢
          omega
    | text c =>
        cases c with
        | peerJoined =>
            rw [note]
            dsimp only
            split
            · exact h
            · exact h
        | _ => exact h
    | close => exact h
  · have hload := load_of_step (RelayChannel.moves hstep).recv
    dsimp only
    split
    · exact absurd rfl ha
    · exact hload.trans h

theorem Counted.step (h : Counted s) {e : VisitEvent} (hs : s.step parse role e = some s') :
    Counted s' := by
  cases e with
  | room e =>
      cases hs
      exact h
  | platform close =>
      cases hs
      exact h
  | dial =>
      simp only [Visit.step] at hs
      repeat' split at hs
      all_goals cases hs
      all_goals exact nofun
  | wait =>
      simp only [Visit.step] at hs
      split at hs
      · next ws d rest hc hwire =>
          cases hs
          -- a channel that has just come up holds nothing
          intro ws' ch hup
          simp only [waited] at hup
          split at hup
          all_goals cases hup
          exact Nat.zero_le _
      · cases hs
  | giveUp =>
      simp only [Visit.step] at hs
      split at hs
      · cases hs
        exact nofun
      · cases hs
  | chan a =>
      simp only [Visit.step] at hs
      split at hs
      · next ws ch hc => exact counted_chan (h ws ch hc) hs
      · cases hs

/-- **The history covers what is returned**: in every run there is an entry for every frame that `recv`
has returned. -/
theorem received_le_frames {es : List VisitEvent} (hs : start.run parse role es = some s) :
    s.received ≤ s.frames.length := by
  have hstart : Counted start := nofun
  have hcounted : Counted s := (runOf parse).invariant (fun _ _ _ h => h.step) hstart hs
  rw [received]
  split
  · next ws ch hc =>
      have hload := hcounted ws ch hc
      simp only [load] at hload
      omega
  · exact Nat.zero_le _

end Visit
end B2p
