import B2p.Relay.Routing

/-!
# Departures and expiry

A room with one current socket should have its expiry alarm armed, and its survivor should know it
is alone; a room with two should have none. `departed` does nothing as long as another socket of the
role is listed, and a takeover leaves just such a socket behind.

* `Room.Settled` — the invariant.
* `Room.Unobstructed` — no closed socket stands in the way of a join or of the departure of a current
  socket.
* `Room.allSteps_settles_iff` — over any run, the invariant holds after every event exactly if every
  event is unobstructed.
-/

namespace B2p
namespace Room

/-- The last notice the room sent to a socket. -/
def lastNotice : List (Nat × Sent) → Nat → Option Notice
  | [], _ => none
  | (ws, .notice n) :: sent, id => if ws = id then some n else lastNotice sent id
  | (_, .forwarded _) :: sent, id => lastNotice sent id

/-- With two current sockets no alarm is armed; with one, it is, and the survivor was told: the last
notice it got, if any, is not `peer-joined`. -/
structure Settled (r : Room) : Prop where
  paired : (r.current .send).isSome → (r.current .recv).isSome → r.alarm = false
  alone : ∀ role s, r.current role = some s → r.current role.other = none →
    r.alarm = true ∧ lastNotice r.sent s.id ≠ some .peerJoined

/-- A closed socket is listed first on the other side of a join only if both roles had a current
socket already; and where a current socket with a current peer departs, it is the only one its role
lists, and the first one listed on the other side is open. -/
def Unobstructed (r : Room) : RoomEvent → Prop
  | .join upgrade param => ∀ role, joinRole upgrade param = some role → ¬ r.FirstOpen role.other →
      (r.current role).isSome ∧ (r.current role.other).isSome
  | .closed role ws | .errored role ws =>
      (∃ s, r.current role = some s ∧ s.id = ws) → (r.current role.other).isSome →
        (∀ t ∈ r.sockets role, t.id = ws) ∧ r.FirstOpen role.other
  | _ => True

/-- What the notices are sent to: sockets that exist. -/
structure Inv (r : Room) : Prop extends Wf r, Settled r where
  sentOld : ∀ x ∈ r.sent, x.1 < r.next

/-! ## Notices -/

theorem lastNotice_fresh {sent : List (Nat × Sent)} {id : Nat} (h : ∀ x ∈ sent, x.1 < id) :
    lastNotice sent id = none := by
  induction sent with
  | nil => rfl
  | cons x sent ih =>
      obtain ⟨ws, m⟩ := x
      have hlt : ws < id := h _ List.mem_cons_self
      have hrest := ih fun y hy => h y (List.mem_cons_of_mem _ hy)
      cases m with
      | notice n => rw [lastNotice, if_neg (Nat.ne_of_lt hlt), hrest]
      | forwarded p => exact hrest

theorem next_le_of_outcome {r r' : Room} {e : RoomEvent} (h : Outcome r e r') :
    r.next ≤ r'.next := by
  cases h with
  | joinedAlone => exact Nat.le_succ _
  | joinThrew => exact Nat.le_succ _
  | paired => exact Nat.le_succ _
  | _ => exact Nat.le_refl _

/-- Everything was sent to a socket accepted before. -/
theorem sentOld_step {r : Room} (hwf : r.Wf) (h : ∀ x ∈ r.sent, x.1 < r.next) (e : RoomEvent) :
    ∀ x ∈ (r.step e).sent, x.1 < (r.step e).next := by
  obtain ⟨new, hnew, hcur⟩ := sent_current hwf e
  rw [hnew]
  intro x hx
  rcases List.mem_append.mp hx with hx | hx
  · obtain ⟨role, c, hc, hid⟩ := hcur x hx
    rw [← hid]
    exact (hwf.step e).fresh role c (mem_of_current hc).1
  · exact Nat.lt_of_lt_of_le (h x hx) (next_le_of_outcome (outcome r e))

/-! ## Departing sockets -/

theorem current_unlist_self {r : Room} (hwf : r.Wf) {role : Role} {s : Socket}
    (hs : r.current role = some s) : (r.unlist role s.id).current role = none := by
  obtain ⟨hmem, ho⟩ := mem_of_current hs
  have hop : opens ((r.unlist role s.id).sockets role) = [] := by
    rw [unlist_self, opens, List.filter_comm]
    show List.filter _ (opens (r.sockets role)) = []
    rw [hwf.opens_eq hmem ho]
    simp
  rw [current, hop]
  rfl

theorem current_unlist_of_ne {r : Room} {role : Role} {ws : Nat}
    (h : ∀ s, r.current role = some s → s.id ≠ ws) (hwf : r.Wf) :
    (r.unlist role ws).current role = r.current role := by
  rw [current, current, unlist_self]
  congr 1
  rw [opens, List.filter_comm]
  refine List.filter_eq_self.mpr ?_
  intro s hs
  obtain ⟨hmem, ho⟩ := mem_opens.mp hs
  simpa using h s (hwf.current_eq hmem ho)

/-! ## The invariant -/

theorem Settled.congr {r r' : Room} (h : r.Settled) (hc : ∀ role, r'.current role = r.current role)
    (ha : r'.alarm = r.alarm) (hs : ∀ id, lastNotice r'.sent id = lastNotice r.sent id) :
    r'.Settled := by
  refine ⟨?_, ?_⟩
  · rw [hc, hc, ha]
    exact h.paired
  · intro role s hcur hno
    rw [hc] at hcur hno
    rw [ha, hs]
    exact h.alone role s hcur hno

/-- A room with two current sockets is settled if no alarm is armed. -/
theorem Settled.of_paired {r : Room} (role : Role) (h : (r.current role).isSome)
    (h' : (r.current role.other).isSome) (ha : r.alarm = false) : r.Settled := by
  refine ⟨fun _ _ => ha, ?_⟩
  intro a s hs hno
  rcases Role.eq_or_eq_other a role with rfl | rfl
  · rw [hno] at h'
    cases h'
  · rw [Role.other_other] at hno
    rw [hno] at h
    cases h

/-- A room with one is settled if its alarm is armed and its last notice is not `peer-joined`. -/
theorem Settled.of_alone {r : Room} {role : Role} {s : Socket} (h : r.current role = some s)
    (hno : r.current role.other = none) (ha : r.alarm = true)
    (hs : lastNotice r.sent s.id ≠ some .peerJoined) : r.Settled := by
  have hempty : ∀ a, (r.current a).isSome → (r.current a.other).isSome → False := by
    intro a h₁ h₂
    rcases Role.eq_or_eq_other a role with rfl | rfl
    · rw [hno] at h₂
      cases h₂
    · rw [hno] at h₁
      cases h₁
  refine ⟨fun h₁ h₂ => (hempty .send h₁ h₂).elim, ?_⟩
  intro a t ht hno'
  rcases Role.eq_or_eq_other a role with rfl | rfl
  · rw [h, Option.some.injEq] at ht
    subst ht
    exact ⟨ha, hs⟩
  · rw [hno] at ht
    cases ht

theorem Settled.of_none {r : Room} (h : ∀ role, r.current role = none) : r.Settled := by
  refine ⟨fun h₁ => ?_, fun role s hs => ?_⟩
  · rw [h] at h₁
    cases h₁
  · rw [h] at hs
    cases hs

theorem Settled.paired_role {r : Room} (h : r.Settled) (role : Role) (h₁ : (r.current role).isSome)
    (h₂ : (r.current role.other).isSome) : r.alarm = false := by
  cases role with
  | send => exact h.paired h₁ h₂
  | recv => exact h.paired h₂ h₁

/-- A takeover that throws: the other side is told nothing, and the alarm is left as it was. -/
theorem settled_joinThrew_iff {r : Room} (h : r.Inv) (role : Role) :
    ({ r.joined role with sent := (r.next, .notice .peerJoined) :: r.sent } : Room).Settled
      ↔ (r.current role).isSome ∧ (r.current role.other).isSome := by
  have hself := current_joined_self r role
  have hother : (r.joined role).current role.other = r.current role.other :=
    current_congr (joined_other r role)
  constructor
  -- with a peer, the alarm must be off: as it was before, with both there
  · intro hset
    cases hc : r.current role.other with
    | none =>
        have := (hset.alone role _ hself (hother.trans hc)).2
        simp [lastNotice] at this
    | some c =>
        have ha : r.alarm = false := hset.paired_role role (by
          show ((r.joined role).current role).isSome
          rw [hself]; rfl) (by
          show ((r.joined role).current role.other).isSome
          rw [hother, hc]; rfl)
        refine ⟨?_, rfl⟩
        cases hr : r.current role with
        | some s => rfl
        | none =>
            have := (h.alone role.other c hc (by rw [Role.other_other, hr])).1
            rw [ha] at this
            cases this
  · rintro ⟨hs, hc⟩
    refine Settled.of_paired role ?_ ?_ (h.paired_role role hs hc)
    · show ((r.joined role).current role).isSome
      rw [hself]
      rfl
    · show ((r.joined role).current role.other).isSome
      rw [hother]
      exact hc

/-- What `Unobstructed` asks of a departure. -/
def LeavesClean (r : Room) (role : Role) (ws : Nat) : Prop :=
  (∃ s, r.current role = some s ∧ s.id = ws) → (r.current role.other).isSome →
    (∀ t ∈ r.sockets role, t.id = ws) ∧ r.FirstOpen role.other

theorem current_unlist_other (r : Room) (role : Role) (ws : Nat) :
    (r.unlist role ws).current role.other = r.current role.other :=
  current_congr (unlist_other r role ws)

/-- A departure nobody is told about settles exactly if nobody had to be told. -/
theorem settled_leftQuietly_iff {r : Room} (h : r.Inv) {role : Role} {ws : Nat}
    (hq : (∃ s ∈ r.sockets role, s.id ≠ ws) ∨
      ∀ o ∈ (r.sockets role.other).head?, o.closed = true) :
    (r.unlist role ws).Settled ↔ r.LeavesClean role ws := by
  have hother := current_unlist_other r role ws
  by_cases hcur : ∃ s, r.current role = some s ∧ s.id = ws
  · obtain ⟨s, hs, rfl⟩ := hcur
    have hself := current_unlist_self h.toWf hs
    cases hc : r.current role.other with
    -- the room is empty now
    | none =>
        refine iff_of_true (Settled.of_none ?_) ?_
        · intro a
          rcases Role.eq_or_eq_other a role with rfl | rfl
          · exact hself
          · exact hother.trans hc
        · intro _ hsome
          rw [hc] at hsome
          cases hsome
    -- the peer is left behind, with no alarm set
    | some c =>
        refine iff_of_false ?_ ?_
        · intro hset
          have hon := (hset.alone role.other c (hother.trans hc) (by
            rw [Role.other_other]
            exact hself)).1
          have hoff := h.paired_role role (by rw [hs]; rfl) (by rw [hc]; rfl)
          have : r.alarm = true := hon
          rw [hoff] at this
          cases this
        · intro hclean
          obtain ⟨honly, hfirst⟩ := hclean ⟨s, hs, rfl⟩ (by rw [hc]; rfl)
          rcases hq with ⟨t, ht, hne⟩ | hclosed
          · exact hne (honly t ht)
          · have hhead := (h.head?_eq_current hfirst).trans hc
            have := hclosed c (by rw [hhead]; rfl)
            rw [hfirst c hhead] at this
            cases this
  · refine iff_of_true (h.toSettled.congr ?_ rfl fun _ => rfl) fun hex => absurd hex hcur
    intro a
    rcases Role.eq_or_eq_other a role with rfl | rfl
    · exact current_unlist_of_ne (fun s hs hid => hcur ⟨s, hs, hid⟩) h.toWf
    · exact hother

/-- A departure the survivor is told about settles. -/
theorem settled_left {r : Room} (h : r.Inv) {role : Role} {ws : Nat} {o : Socket}
    (honly : ∀ s ∈ r.sockets role, s.id = ws)
    (hh : (r.sockets role.other).head? = some o) (ho : o.closed = false) :
    ({ r.unlist role ws with
      sent := (o.id, .notice .peerLeft) :: r.sent
      alarm := true } : Room).Settled := by
  have hc : r.current role.other = some o := h.current_eq (List.mem_of_mem_head? hh) ho
  have hgone : (r.unlist role ws).sockets role = [] := by
    rw [unlist_self, List.filter_eq_nil_iff]
    intro s hs
    simp [honly s hs]
  refine Settled.of_alone ((current_unlist_other r role ws).trans hc) ?_ rfl ?_
  · rw [Role.other_other]
    show (opens ((r.unlist role ws).sockets role)).getLast? = none
    rw [hgone]
    rfl
  · simp [lastNotice]

theorem settled_of_outcome_iff {r r' : Room} (h : r.Inv) {e : RoomEvent} (ho : Outcome r e r') :
    r'.Settled ↔ r.Unobstructed e := by
  cases ho with
  | idle hi =>
      refine iff_of_true h.toSettled ?_
      cases e with
      | join upgrade param =>
          intro role hj
          rw [show joinRole upgrade param = none from hi] at hj
          cases hj
      | message role ws p => trivial
      | closed role ws =>
          rintro ⟨s, hs, rfl⟩
          exact absurd ⟨s, (mem_of_current hs).1, rfl⟩ hi
      | errored role ws =>
          rintro ⟨s, hs, rfl⟩
          exact absurd ⟨s, (mem_of_current hs).1, rfl⟩ hi
      | alarm => trivial
  -- the newcomer is alone, and the alarm is set
  | @joinedAlone upgrade param role hj hh =>
      have hnil : r.sockets role.other = [] := List.head?_eq_none_iff.mp hh
      refine iff_of_true ?_ ?_
      · refine Settled.of_alone (current_joined_self r role) ?_ rfl ?_
        · show (opens ((r.joined role).sockets role.other)).getLast? = none
          rw [joined_other, hnil]
          rfl
        · show lastNotice r.sent r.next ≠ _
          rw [lastNotice_fresh h.sentOld]
          exact fun hx => by cases hx
      · intro role' hj' hfirst
        rw [hj, Option.some.injEq] at hj'
        subst hj'
        exact absurd (fun o ho => by rw [hh] at ho; cases ho) hfirst
  | @joinThrew upgrade param role o hj hh ho =>
      rw [settled_joinThrew_iff h]
      constructor
      · intro hboth role' hj' _
        rw [hj, Option.some.injEq] at hj'
        subst hj'
        exact hboth
      · intro hun
        refine hun role hj ?_
        intro hfirst
        rw [hfirst o hh] at ho
        cases ho
  -- both are there, both were told, and the alarm is off
  | @paired upgrade param role o hj hh ho =>
      have hc : r.current role.other = some o := h.current_eq (List.mem_of_mem_head? hh) ho
      refine iff_of_true ?_ ?_
      · refine Settled.of_paired role ?_ ?_ rfl
        · show ((r.joined role).current role).isSome
          rw [current_joined_self]
          rfl
        · show ((r.joined role).current role.other).isSome
          rw [current_congr (joined_other r role), hc]
          rfl
      · intro role' hj' hfirst
        rw [hj, Option.some.injEq] at hj'
        subst hj'
        refine absurd ?_ hfirst
        intro o' ho'
        rw [hh, Option.some.injEq] at ho'
        subst ho'
        exact ho
  | forwarded => exact iff_of_true (h.toSettled.congr (fun _ => rfl) rfl fun _ => rfl) trivial
  | @leftQuietly _ role ws he hl hq =>
      rw [settled_leftQuietly_iff h hq]
      rcases he with rfl | rfl
      · exact Iff.rfl
      · exact Iff.rfl
  | @left _ role ws o he hl honly hh ho =>
      -- `peer-left` went to the peer that is left
      have hclean : r.LeavesClean role ws := by
        refine fun _ _ => ⟨honly, ?_⟩
        intro o' ho'
        rw [hh, Option.some.injEq] at ho'
        subst ho'
        exact ho
      refine iff_of_true (settled_left h honly hh ho) ?_
      rcases he with rfl | rfl
      · exact hclean
      · exact hclean
  | expired ha =>
      refine iff_of_true (Settled.of_none ?_) trivial
      intro role
      show (opens (closeAll (r.sockets role))).getLast? = none
      rw [opens_closeAll]
      rfl

/-! ## The results -/

/-- The room is settled once the event has been handled. -/
def Settles (r : Room) (e : RoomEvent) : Prop := (r.step e).Settled

theorem inv_empty : empty.Inv :=
  { wf_empty, Settled.of_none (fun _ => rfl) with sentOld := fun _ h => by cases h }

/-- **After every event of a run the room is settled, exactly if no event of it is obstructed by a
socket the server has closed.** -/
theorem allSteps_settles_iff (es : List RoomEvent) :
    AllSteps Settles empty es ↔ AllSteps Unobstructed empty es := by
  refine AllSteps.iff (I := Inv) ?_ ?_ inv_empty es
  · intro r e h hset
    exact { h.toWf.step e, hset with sentOld := sentOld_step h.toWf h.sentOld e }
  · intro r e h
    exact settled_of_outcome_iff h (outcome r e)

/-- A sender takes over from a stale one, and leaves before the close of the stale one is seen: the
receiver is alone, with no notice and no alarm. -/
def staleSender : List RoomEvent :=
  [.join (some "websocket") (some "recv"), .join (some "websocket") (some "send"),
    .join (some "websocket") (some "send"), .closed .send 2]

theorem not_settles_staleSender : ¬ AllSteps Settles empty staleSender := by
  rintro ⟨-, -, -, h, -⟩
  have halarm := (h.alone .recv ⟨0, false⟩ rfl rfl).1
  cases halarm

end Room
end B2p
