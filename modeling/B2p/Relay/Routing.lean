import B2p.Relay.Room

/-!
# Routing through a room

A message goes to the *first* listed socket of the other role. That is the current one as long as
the server has not closed it; a socket replaced by a takeover stays listed, in front of the one that
replaced it, until its disconnect is observed.

* `Room.Routed` — an event is handled as it should be: messages and notices go to current sockets,
  and a join does not throw.
* `Room.Clear` — no closed socket is listed first where the handler looks.
* `Room.allSteps_routed_iff` — over any run, the two are the same.
-/

namespace B2p
namespace Room

/-- A message from a current socket is forwarded to the current socket of the other role; a join
does not throw, and on pairing sends `peer-joined` to the two current sockets and to nobody else;
whatever is sent goes to a current socket, so nothing goes to a replaced one. -/
def Routed (r : Room) (e : RoomEvent) : Prop :=
  (match e with
    | .join upgrade param => ∀ role, joinRole upgrade param = some role →
        r.handle e = .ok () (r.step e) ∧
        ∃ n, (r.step e).current role = some n ∧ n.id = r.next ∧
          (r.step e).sent = (match r.current role.other with
            | some c => [(c.id, .notice .peerJoined), (n.id, .notice .peerJoined)]
            | none => []) ++ r.sent
    | .message role ws p => ∀ s c, r.current role = some s → s.id = ws →
        r.current role.other = some c → (r.step e).sent = (c.id, .forwarded p) :: r.sent
    | _ => True) ∧
  ∃ new, (r.step e).sent = new ++ r.sent ∧
    ∀ x ∈ new, ∃ role c, (r.step e).current role = some c ∧ c.id = x.1

/-- Where the handler of a join or of a forwarded message looks for the peer, no socket the server
has closed is listed first. -/
def Clear (r : Room) : RoomEvent → Prop
  | .join upgrade param => ∀ role, joinRole upgrade param = some role → r.FirstOpen role.other
  | .message role ws _ =>
      (∃ s, r.current role = some s ∧ s.id = ws) → (r.current role.other).isSome →
        r.FirstOpen role.other
  | _ => True

section steps

variable {r : Room}

/-- Nothing is sent to a socket that is not current, whatever happens. -/
theorem sent_current_of_outcome (hwf : r.Wf) {r' : Room} {e : RoomEvent} (h : Outcome r e r') :
    ∃ new, r'.sent = new ++ r.sent ∧
      ∀ x ∈ new, ∃ role c, r'.current role = some c ∧ c.id = x.1 := by
  have hfirst : ∀ {role : Role} {o : Socket}, (r.sockets role).head? = some o → o.closed = false →
      r.current role = some o :=
    fun hh ho => hwf.current_eq (List.mem_of_mem_head? hh) ho
  cases h with
  | idle => exact ⟨[], rfl, by simp⟩
  | joinedAlone => exact ⟨[], rfl, by simp⟩
  -- only the newcomer is told, and it is the current one of its role
  | @joinThrew _ _ role =>
      refine ⟨[(r.next, .notice .peerJoined)], rfl, ?_⟩
      intro x hx
      rw [List.mem_singleton.mp hx]
      exact ⟨role, _, current_joined_self r role, rfl⟩
  | @paired _ _ role o hj hh ho =>
      refine ⟨[(o.id, .notice .peerJoined), (r.next, .notice .peerJoined)], rfl, ?_⟩
      intro x hx
      rcases List.mem_pair.mp hx with rfl | rfl
      · exact ⟨role.other, o, (current_congr (joined_other r role)).trans (hfirst hh ho), rfl⟩
      · exact ⟨role, _, current_joined_self r role, rfl⟩
  -- the receiver is the first listed; as it is open, it is the current one
  | @forwarded role ws p o hl hh ho =>
      refine ⟨[(o.id, .forwarded p)], rfl, ?_⟩
      intro x hx
      rw [List.mem_singleton.mp hx]
      exact ⟨role.other, o, hfirst hh ho, rfl⟩
  | leftQuietly => exact ⟨[], rfl, by simp⟩
  | @left _ role ws o he hl honly hh ho =>
      refine ⟨[(o.id, .notice .peerLeft)], rfl, ?_⟩
      intro x hx
      rw [List.mem_singleton.mp hx]
      exact ⟨role.other, o, (current_congr (unlist_other r role ws)).trans (hfirst hh ho), rfl⟩
  | expired => exact ⟨[], rfl, by simp⟩

theorem sent_current (hwf : r.Wf) (e : RoomEvent) :
    ∃ new, (r.step e).sent = new ++ r.sent ∧
      ∀ x ∈ new, ∃ role c, (r.step e).current role = some c ∧ c.id = x.1 :=
  sent_current_of_outcome hwf (outcome r e)

/-- A join throws exactly if a closed socket is listed first on the other side. -/
theorem routed_join_iff (hwf : r.Wf) (upgrade param : Option String) :
    r.Routed (.join upgrade param) ↔ r.Clear (.join upgrade param) := by
  refine (and_iff_left (sent_current hwf _)).trans (forall₂_congr ?_)
  intro role hj
  constructor
  · rintro ⟨hok, -⟩ o hh
    by_contra ho
    rw [handle_join r hj, hh] at hok
    simp [ho] at hok
  · intro hfirst
    have hcur := hwf.head?_eq_current hfirst
    rw [step, handle_join r hj]
    cases hh : (r.sockets role.other).head? with
    | none =>
        rw [← hcur, hh]
        exact ⟨rfl, _, current_joined_self r role, rfl, rfl⟩
    | some o =>
        rw [← hcur, hh]
        simp only [hfirst o hh, after]
        exact ⟨rfl, _, current_joined_self r role, rfl, rfl⟩

theorem routed_message_iff (hwf : r.Wf) (role : Role) (ws : Nat) (p : Payload) :
    r.Routed (.message role ws p) ↔ r.Clear (.message role ws p) := by
  refine (and_iff_left (sent_current hwf _)).trans ?_
  constructor
  · rintro h ⟨s, hs, hid⟩ hsome o hh
    obtain ⟨c, hc⟩ := Option.isSome_iff_exists.mp hsome
    by_contra ho
    have hl : r.Listed role ws := ⟨s, (mem_of_current hs).1, hid⟩
    have hsent := h s c hs hid hc
    rw [step, handle_message hl, hh] at hsent
    rw [Bool.not_eq_false] at ho
    simp [ho, after] at hsent
  · intro h s c hs hid hc
    have hl : r.Listed role ws := ⟨s, (mem_of_current hs).1, hid⟩
    have hfirst := h ⟨s, hs, hid⟩ (by rw [hc]; rfl)
    have hh := hwf.head?_eq_current hfirst
    rw [hc] at hh
    rw [step, handle_message hl, hh]
    simp [hfirst c hh, after]

theorem routed_iff (hwf : r.Wf) (e : RoomEvent) : r.Routed e ↔ r.Clear e := by
  cases e with
  | join upgrade param => exact routed_join_iff hwf upgrade param
  | message role ws p => exact routed_message_iff hwf role ws p
  | closed role ws => exact iff_of_true ⟨trivial, sent_current hwf _⟩ trivial
  | errored role ws => exact iff_of_true ⟨trivial, sent_current hwf _⟩ trivial
  | alarm => exact iff_of_true ⟨trivial, sent_current hwf _⟩ trivial

end steps

/-- **A run is routed throughout exactly if no closed socket is ever listed first where a join or a
message looks for its peer.** -/
theorem allSteps_routed_iff (es : List RoomEvent) :
    AllSteps Routed empty es ↔ AllSteps Clear empty es :=
  AllSteps.iff (I := Wf) (fun _ e hwf _ => hwf.step e) (fun _ e hwf => routed_iff hwf e) wf_empty es

/-- A receiver is replaced by a takeover, its stale socket never answers the close, and a sender
joins. -/
def staleReceiver : List RoomEvent :=
  [.join (some "websocket") (some "recv"), .join (some "websocket") (some "recv"),
    .join (some "websocket") (some "send")]

theorem not_routed_staleReceiver : ¬ AllSteps Routed empty staleReceiver := by
  rintro ⟨-, -, h, -⟩
  have hcur := (h.1 .send rfl).1
  cases hcur

end Room
end B2p
