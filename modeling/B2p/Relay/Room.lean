import B2p.Crypto
import Mathlib.Logic.Function.Basic

/-!
# The relay's room (`relay-worker/src/index.js`)

A room pairs one `send` and one `recv` socket and forwards between them. The platform lists a socket
from its acceptance until its disconnect is observed, also after the server has closed it; sending
to a closed socket throws. A handler that throws leaves what it has done so far.

* `Room.fetch`, `Room.webSocketMessage`, `Room.departed`, `Room.onAlarm` — the handlers.
* `RoomEvent`, `Room.step` — what can happen to a room, one handler at a time.
* `Room.current` — the socket a role's messages should go to; `Room.Wf` — at most one per role, which
  every event keeps.
-/

namespace B2p

inductive Role where
  | send
  | recv
  deriving DecidableEq, Repr

def Role.other : Role → Role
  | .send => .recv
  | .recv => .send

@[simp] theorem Role.other_other (role : Role) : role.other.other = role := by
  cases role <;> rfl

@[simp] theorem Role.other_ne (role : Role) : role.other ≠ role := by
  cases role <;> decide

theorem Role.eq_or_eq_other (a b : Role) : a = b ∨ a = b.other := by
  cases a <;> cases b <;> decide

/-- A WebSocket message. -/
inductive Payload where
  | text (s : String)
  | binary (b : Bytes)
  deriving DecidableEq

/-- The two notices the room itself sends. -/
inductive Notice where
  | peerJoined
  | peerLeft
  deriving DecidableEq, Repr

/-- Something the room sent to a socket. -/
inductive Sent where
  | notice (n : Notice)
  | forwarded (p : Payload)
  deriving DecidableEq

/-- The room's end of an accepted socket. -/
structure Socket where
  id : Nat
  /-- The server has called `close`. -/
  closed : Bool
  deriving DecidableEq

structure Room where
  /-- `ctx.getWebSockets(role)`, in acceptance order. -/
  sockets : Role → List Socket
  next : Nat
  alarm : Bool
  /-- Latest first. -/
  sent : List (Nat × Sent)

/-- `send` on a socket the server has closed. -/
inductive Thrown where
  | sendAfterClose
  deriving DecidableEq, Repr

abbrev RoomM := EStateM Thrown Room

namespace Room

/-! ## The platform -/

def getWebSockets (role : Role) : RoomM (List Socket) := do
  return (← get).sockets role

def closeAll (l : List Socket) : List Socket := l.map fun s => { s with closed := true }

/-- `for (const old of this.ctx.getWebSockets(role)) old.close(..)`. -/
def closeRole (role : Role) : RoomM Unit :=
  modify fun r => { r with sockets := Function.update r.sockets role (closeAll (r.sockets role)) }

/-- `this.ctx.acceptWebSocket(server, [role])`, for a fresh pair. -/
def acceptWebSocket (role : Role) : RoomM Socket :=
  modifyGet fun r =>
    (⟨r.next, false⟩, { r with
      sockets := Function.update r.sockets role (r.sockets role ++ [⟨r.next, false⟩])
      next := r.next + 1 })

def send (ws : Socket) (m : Sent) : RoomM Unit :=
  if ws.closed then throw .sendAfterClose
  else modify fun r => { r with sent := (ws.id, m) :: r.sent }

def setAlarm : RoomM Unit := modify fun r => { r with alarm := true }

def deleteAlarm : RoomM Unit := modify fun r => { r with alarm := false }

/-! ## The handlers -/

def peerOf (role : Role) : RoomM (Option Socket) := do
  return (← getWebSockets role.other).head?

/-- The `role` query parameter. -/
def parseRole : Option String → Option Role
  | some "send" => some .send
  | some "recv" => some .recv
  | _ => none

/-- The part of `fetch` after its checks. -/
def join (role : Role) : RoomM Nat := do
  closeRole role
  let server ← acceptWebSocket role
  match ← peerOf role with
  | some other =>
      send server (.notice .peerJoined)
      send other (.notice .peerJoined)
      deleteAlarm
  | none => setAlarm
  return 101

/-- `Room.fetch`: the status of the response. -/
def fetch (upgrade role : Option String) : RoomM Nat :=
  if upgrade ≠ some "websocket" then return 426
  else match parseRole role with
    | none => return 400
    | some role => join role

def webSocketMessage (role : Role) (message : Payload) : RoomM Unit := do
  match ← peerOf role with
  | some peer => send peer (.forwarded message)
  | none => return ()

/-- `departed`, for a socket that is `ws`. -/
def departed (role : Role) (ws : Nat) : RoomM Unit := do
  if (← getWebSockets role).any (fun s => decide (s.id ≠ ws)) then return ()
  match ← peerOf role with
  | some peer =>
      send peer (.notice .peerLeft)
      setAlarm
  | none => return ()

def onAlarm : RoomM Unit := do
  closeRole .send
  closeRole .recv

/-! ## Events -/

end Room

/-- What happens to a room. A ping is answered by the platform and is no event; `message` is one the
handler gets. -/
inductive RoomEvent where
  | join (upgrade role : Option String)
  | message (role : Role) (ws : Nat) (p : Payload)
  /-- `webSocketClose`. -/
  | closed (role : Role) (ws : Nat)
  /-- `webSocketError`. -/
  | errored (role : Role) (ws : Nat)
  | alarm
  deriving DecidableEq

namespace Room

/-- The socket is listed under its role. -/
def Listed (r : Room) (role : Role) (ws : Nat) : Prop := ∃ s ∈ r.sockets role, s.id = ws

instance (r : Room) (role : Role) (ws : Nat) : Decidable (r.Listed role ws) :=
  inferInstanceAs (Decidable (∃ s ∈ r.sockets role, s.id = ws))

/-- The disconnect of a socket is observed: it is no longer listed. -/
def unlist (r : Room) (role : Role) (ws : Nat) : Room :=
  { r with
    sockets := Function.update r.sockets role
      ((r.sockets role).filter fun s => decide (s.id ≠ ws)) }

/-- Drop a response. -/
def forget {α : Type} : EStateM.Result Thrown Room α → EStateM.Result Thrown Room Unit
  | .ok _ r => .ok () r
  | .error e r => .error e r

/-- The handler an event runs, and how it ends. -/
def handle (r : Room) : RoomEvent → EStateM.Result Thrown Room Unit
  | .join upgrade role => forget ((fetch upgrade role).run r)
  | .message role ws p =>
      if r.Listed role ws then (webSocketMessage role p).run r else .ok () r
  | .closed role ws =>
      if r.Listed role ws then (departed role ws).run (r.unlist role ws) else .ok () r
  | .errored role ws =>
      if r.Listed role ws then (departed role ws).run (r.unlist role ws) else .ok () r
  | .alarm => if r.alarm then onAlarm.run { r with alarm := false } else .ok () r

/-- The room a handler leaves, also when it throws. -/
def after : EStateM.Result Thrown Room Unit → Room
  | .ok _ r => r
  | .error _ r => r

def step (r : Room) (e : RoomEvent) : Room := after (r.handle e)

/-- A room nobody has joined. -/
def empty : Room where
  sockets _ := []
  next := 0
  alarm := false
  sent := []

/-- `P` holds of every event of a run and the room it finds. -/
def AllSteps (P : Room → RoomEvent → Prop) : Room → List RoomEvent → Prop
  | _, [] => True
  | r, e :: es => P r e ∧ AllSteps P (r.step e) es

/-! ## What each handler does -/

section handlers

variable (r : Room) (role : Role)

/-- The room after the first half of a join: the role's older sockets closed, the new one listed. -/
def joined : Room :=
  { r with
    sockets := Function.update r.sockets role
      (closeAll (r.sockets role) ++ [⟨r.next, false⟩])
    next := r.next + 1 }

@[simp] theorem joined_self : (r.joined role).sockets role
    = closeAll (r.sockets role) ++ [⟨r.next, false⟩] := Function.update_self _ _ _

@[simp] theorem joined_other : (r.joined role).sockets role.other = r.sockets role.other :=
  Function.update_of_ne role.other_ne _ _

theorem join_run : (join role).run r = match (r.sockets role.other).head? with
    | none => .ok 101 { r.joined role with alarm := true }
    | some o =>
        if o.closed then
          .error .sendAfterClose
            { r.joined role with sent := (r.next, .notice .peerJoined) :: r.sent }
        else .ok 101 { r.joined role with
          sent := (o.id, .notice .peerJoined) :: (r.next, .notice .peerJoined) :: r.sent
          alarm := false } := by
  have hpeer : ∀ r' : Room, r' = r.joined role → (do
      match ← peerOf role with
      | some other =>
          send ⟨r.next, false⟩ (.notice .peerJoined)
          send other (.notice .peerJoined)
          deleteAlarm
      | none => setAlarm
      return 101 : RoomM Nat).run r' = (do
      match (r.sockets role.other).head? with
      | some other =>
          send ⟨r.next, false⟩ (.notice .peerJoined)
          send other (.notice .peerJoined)
          deleteAlarm
      | none => setAlarm
      return 101 : RoomM Nat).run (r.joined role) := by
    rintro r' rfl
    rw [← joined_other r role]
    rfl
  have hacc : (join role).run r = _ := hpeer _ (by simp [joined])
  -- both ends of the pair are told, unless the peer's socket is closed already
  rw [hacc]
  cases (r.sockets role.other).head? with
  | none => rfl
  | some o =>
      obtain ⟨id, closed⟩ := o
      cases closed with
      | true => rfl
      | false => rfl

theorem webSocketMessage_run (p : Payload) :
    (webSocketMessage role p).run r = match (r.sockets role.other).head? with
      | none => .ok () r
      | some o =>
          if o.closed then .error .sendAfterClose r
          else .ok () { r with sent := (o.id, .forwarded p) :: r.sent } := by
  have hpeer : (webSocketMessage role p).run r = (match (r.sockets role.other).head? with
      | some peer => send peer (.forwarded p)
      | none => return () : RoomM Unit).run r := rfl
  rw [hpeer]
  cases (r.sockets role.other).head? with
  | none => rfl
  | some o =>
      dsimp only
      rw [send]
      split
      · rfl
      · rfl

theorem departed_run (ws : Nat) : (departed role ws).run r =
    if (r.sockets role).any (fun s => decide (s.id ≠ ws)) then .ok () r
    else match (r.sockets role.other).head? with
      | none => .ok () r
      | some o =>
          if o.closed then .error .sendAfterClose r
          else .ok () { r with sent := (o.id, .notice .peerLeft) :: r.sent, alarm := true } := by
  have hlist : (departed role ws).run r = (if (r.sockets role).any (fun s => decide (s.id ≠ ws)) then
      return ()
    else match (r.sockets role.other).head? with
      | some peer => do
          send peer (.notice .peerLeft)
          setAlarm
      | none => return () : RoomM Unit).run r := by
    show EStateM.run (if (r.sockets role).any (fun s => decide (s.id ≠ ws)) then _ else _) r = _
    split <;> rfl
  -- another socket in the role: the early return
  rw [hlist]
  split
  · rfl
  · cases (r.sockets role.other).head? with
    | none => rfl
    | some o =>
        obtain ⟨id, closed⟩ := o
        cases closed with
        | true => rfl
        | false => rfl

end handlers

/-- The role an accepted join is for. -/
def joinRole (upgrade role : Option String) : Option Role :=
  if upgrade = some "websocket" then parseRole role else none

theorem handle_join (r : Room) {upgrade param : Option String} {role : Role}
    (h : joinRole upgrade param = some role) :
    r.handle (.join upgrade param) = match (r.sockets role.other).head? with
      | none => .ok () { r.joined role with alarm := true }
      | some o =>
          if o.closed then
            .error .sendAfterClose
              { r.joined role with sent := (r.next, .notice .peerJoined) :: r.sent }
          else .ok () { r.joined role with
            sent := (o.id, .notice .peerJoined) :: (r.next, .notice .peerJoined) :: r.sent
            alarm := false } := by
  rw [joinRole] at h
  split at h
  · next hu =>
      have hfetch : fetch upgrade param = join role := by
        rw [fetch, if_neg (not_not.mpr hu), h]
      rw [handle, hfetch, join_run]
      cases (r.sockets role.other).head? with
      | none => rfl
      | some o => cases ho : o.closed <;> simp [ho, forget]
  · cases h

theorem handle_join_none (r : Room) {upgrade param : Option String}
    (h : joinRole upgrade param = none) : r.handle (.join upgrade param) = .ok () r := by
  rw [joinRole] at h
  rw [handle, fetch]
  split at h
  · next hu =>
      rw [if_neg (not_not.mpr hu), h]
      rfl
  · next hu =>
      rw [if_pos hu]
      rfl

theorem handle_message {r : Room} {role : Role} {ws : Nat} (h : r.Listed role ws) (p : Payload) :
    r.handle (.message role ws p) = match (r.sockets role.other).head? with
      | none => .ok () r
      | some o =>
          if o.closed then .error .sendAfterClose r
          else .ok () { r with sent := (o.id, .forwarded p) :: r.sent } := by
  rw [handle, if_pos h, webSocketMessage_run]

/-- A departure, however it is noticed. -/
def depart (r : Room) (role : Role) (ws : Nat) : EStateM.Result Thrown Room Unit :=
  if r.Listed role ws then (departed role ws).run (r.unlist role ws) else .ok () r

theorem unlist_other (r : Room) (role : Role) (ws : Nat) :
    (r.unlist role ws).sockets role.other = r.sockets role.other :=
  Function.update_of_ne role.other_ne _ _

theorem unlist_self (r : Room) (role : Role) (ws : Nat) :
    (r.unlist role ws).sockets role = (r.sockets role).filter fun s => decide (s.id ≠ ws) :=
  Function.update_self _ _ _

theorem depart_eq {r : Room} {role : Role} {ws : Nat} (h : r.Listed role ws) :
    r.depart role ws = if ∃ s ∈ r.sockets role, s.id ≠ ws then .ok () (r.unlist role ws)
      else match (r.sockets role.other).head? with
        | none => .ok () (r.unlist role ws)
        | some o =>
            if o.closed then .error .sendAfterClose (r.unlist role ws)
            else .ok () { r.unlist role ws with
              sent := (o.id, .notice .peerLeft) :: r.sent
              alarm := true } := by
  have hany : ((r.unlist role ws).sockets role).any (fun s => decide (s.id ≠ ws)) = true
      ↔ ∃ s ∈ r.sockets role, s.id ≠ ws := by
    simp [unlist_self]
  rw [depart, if_pos h, departed_run, unlist_other]
  by_cases hex : ∃ s ∈ r.sockets role, s.id ≠ ws
  · rw [if_pos (hany.mpr hex), if_pos hex]
  · rw [if_neg (mt hany.mp hex), if_neg hex]
    rfl

/-- The room after its alarm has closed every socket. -/
def expired (r : Room) : Room :=
  { r with sockets := fun role => closeAll (r.sockets role), alarm := false }

theorem handle_alarm (r : Room) :
    r.handle .alarm = .ok () (if r.alarm then r.expired else r) := by
  rw [handle]
  split
  · next ha =>
      have hboth : Function.update (Function.update r.sockets .send (closeAll (r.sockets .send))) .recv
          (closeAll (r.sockets .recv)) = fun role => closeAll (r.sockets role) := by
        funext role
        cases role <;> simp
      rw [expired, ← hboth]
      rfl
  · rfl

/-! ## The current socket -/

/-- The sockets the server has not closed. -/
def opens (l : List Socket) : List Socket := l.filter fun s => !s.closed

/-- The most recently accepted socket of a role that the server has not closed and that has not
disconnected. -/
def current (r : Room) (role : Role) : Option Socket := (opens (r.sockets role)).getLast?

/-- At most one socket of a role is open, and an id names one socket. -/
structure Wf (r : Room) : Prop where
  one : ∀ role, (opens (r.sockets role)).length ≤ 1
  fresh : ∀ role, ∀ s ∈ r.sockets role, s.id < r.next
  ids : ∀ a b, ∀ s ∈ r.sockets a, ∀ t ∈ r.sockets b, s.id = t.id → a = b ∧ s = t

@[simp] theorem opens_closeAll (l : List Socket) : opens (closeAll l) = [] := by
  simp [opens, closeAll, List.filter_map]

theorem mem_opens {l : List Socket} {s : Socket} : s ∈ opens l ↔ s ∈ l ∧ s.closed = false := by
  simp [opens]

theorem opens_append (l m : List Socket) : opens (l ++ m) = opens l ++ opens m :=
  List.filter_append ..

theorem Wf.opens_eq {r : Room} (hwf : r.Wf) {role : Role} {s : Socket}
    (h : s ∈ r.sockets role) (ho : s.closed = false) : opens (r.sockets role) = [s] := by
  have hmem : s ∈ opens (r.sockets role) := mem_opens.mpr ⟨h, ho⟩
  have hone := hwf.one role
  match hl : opens (r.sockets role), hmem, hone with
  | [t], hmem, _ => rw [List.mem_singleton.mp hmem]
  | _ :: _ :: _, _, hone => simp at hone

/-- An open socket is the current one. -/
theorem Wf.current_eq {r : Room} (hwf : r.Wf) {role : Role} {s : Socket}
    (h : s ∈ r.sockets role) (ho : s.closed = false) : r.current role = some s := by
  rw [current, hwf.opens_eq h ho]
  rfl

theorem mem_of_current {r : Room} {role : Role} {s : Socket} (h : r.current role = some s) :
    s ∈ r.sockets role ∧ s.closed = false :=
  mem_opens.mp (List.mem_of_getLast? h)

theorem current_congr {r r' : Room} {role : Role} (h : r'.sockets role = r.sockets role) :
    r'.current role = r.current role := by
  rw [current, h, current]

theorem current_joined_self (r : Room) (role : Role) :
    (r.joined role).current role = some ⟨r.next, false⟩ := by
  rw [current, joined_self, opens_append, opens_closeAll]
  rfl

/-- The first listed socket of a role is not one the server has closed. -/
def FirstOpen (r : Room) (role : Role) : Prop :=
  ∀ o, (r.sockets role).head? = some o → o.closed = false

instance (r : Room) (role : Role) : Decidable (r.FirstOpen role) :=
  match h : (r.sockets role).head? with
  | none => isTrue fun o ho => by rw [h] at ho; cases ho
  | some o =>
      if ho : o.closed = false then isTrue fun o' ho' => by rw [h] at ho'; cases ho'; exact ho
      else isFalse fun hf => ho (hf o h)

/-- Then what `peerOf` picks is the current socket. -/
theorem Wf.head?_eq_current {r : Room} (hwf : r.Wf) {role : Role} (h : r.FirstOpen role) :
    (r.sockets role).head? = r.current role := by
  cases hl : r.sockets role with
  | nil => rw [current, hl]; rfl
  | cons o l =>
      have hhead : (r.sockets role).head? = some o := by rw [hl]; rfl
      rw [hwf.current_eq (List.mem_of_mem_head? hhead) (h o hhead)]
      rfl

theorem Wf.congr {r r' : Room} (hwf : r.Wf) (hs : r'.sockets = r.sockets) (hn : r'.next = r.next) :
    r'.Wf := by
  refine ⟨?_, ?_, ?_⟩
  · rw [hs]
    exact hwf.one
  · rw [hs, hn]
    exact hwf.fresh
  · rw [hs]
    exact hwf.ids

theorem wf_empty : empty.Wf where
  one role := Nat.zero_le _
  fresh role s hs := by cases hs
  ids a b s hs := by cases hs

theorem mem_closeAll {l : List Socket} {s : Socket} (h : s ∈ closeAll l) :
    ∃ t ∈ l, s = { t with closed := true } := by
  obtain ⟨t, ht, rfl⟩ := List.mem_map.mp h
  exact ⟨t, ht, rfl⟩

/-- Closing a role's sockets, for the alarm and for a takeover. -/
theorem Wf.closeAll {r : Room} (hwf : r.Wf) (roles : Role → Bool) :
    ({ r with sockets := fun role =>
        if roles role then closeAll (r.sockets role) else r.sockets role } : Room).Wf := by
  have hold : ∀ role, ∀ s ∈ (if roles role then Room.closeAll (r.sockets role)
      else r.sockets role), ∃ t ∈ r.sockets role, s.id = t.id ∧
        s = if roles role then { t with closed := true } else t := by
    intro role s hs
    split at hs
    · next hr =>
        obtain ⟨t, ht, rfl⟩ := mem_closeAll hs
        exact ⟨t, ht, rfl, by rw [if_pos hr]⟩
    · next hr => exact ⟨s, hs, rfl, by rw [if_neg hr]⟩
  -- closing opens none, and keeps the ids
  refine ⟨?_, ?_, ?_⟩
  · intro role
    dsimp only
    split
    · simp
    · exact hwf.one role
  · intro role s hs
    obtain ⟨t, ht, hid, -⟩ := hold role s hs
    rw [hid]
    exact hwf.fresh role t ht
  · intro a b s hs t ht hid
    obtain ⟨s', hs', hid', rfl⟩ := hold a s hs
    obtain ⟨t', ht', hid'', rfl⟩ := hold b t ht
    obtain ⟨rfl, rfl⟩ := hwf.ids a b s' hs' t' ht' (hid'.symm.trans (hid.trans hid''))
    exact ⟨rfl, rfl⟩

/-- A fresh socket joins a role with no open one. -/
theorem Wf.accept {r : Room} (hwf : r.Wf) (role : Role) (hno : opens (r.sockets role) = []) :
    ({ r with
      sockets := Function.update r.sockets role (r.sockets role ++ [⟨r.next, false⟩])
      next := r.next + 1 } : Room).Wf := by
  have hold : ∀ a, ∀ s ∈ Function.update r.sockets role (r.sockets role ++ [⟨r.next, false⟩]) a,
      s ∈ r.sockets a ∨ a = role ∧ s = ⟨r.next, false⟩ := by
    intro a s hs
    by_cases ha : a = role
    · subst ha
      rw [Function.update_self, List.mem_append, List.mem_singleton] at hs
      exact hs.imp_right fun h => ⟨rfl, h⟩
    · rw [Function.update_of_ne ha] at hs
      exact .inl hs
  refine ⟨?_, ?_, ?_⟩
  · intro a
    dsimp only
    by_cases ha : a = role
    · subst ha
      rw [Function.update_self, opens_append, hno]
      exact Nat.le_refl 1
    · rw [Function.update_of_ne ha]
      exact hwf.one a
  · intro a s hs
    rcases hold a s hs with h | ⟨-, rfl⟩
    · exact Nat.lt_succ_of_lt (hwf.fresh a s h)
    · exact Nat.lt_succ_self _
  · intro a b s hs t ht hid
    -- the new id is above all the others
    rcases hold a s hs with h | ⟨rfl, rfl⟩ <;> rcases hold b t ht with h' | ⟨rfl, rfl⟩
    · exact hwf.ids a b s h t h' hid
    · exact absurd (hwf.fresh a s h) (by rw [hid]; exact Nat.lt_irrefl _)
    · exact absurd (hwf.fresh b t h') (by rw [← hid]; exact Nat.lt_irrefl _)
    · exact ⟨rfl, rfl⟩

theorem Wf.joined {r : Room} (hwf : r.Wf) (role : Role) : (r.joined role).Wf := by
  have hc := hwf.closeAll (fun a => decide (a = role))
  refine (hc.accept role (by simp)).congr ?_ rfl
  funext a
  by_cases ha : a = role
  · subst ha
    simp
  · simp [Room.joined, ha]

theorem Wf.unlist {r : Room} (hwf : r.Wf) (role : Role) (ws : Nat) : (r.unlist role ws).Wf := by
  have hsub : ∀ a, ((r.unlist role ws).sockets a).Sublist (r.sockets a) := by
    intro a
    by_cases ha : a = role
    · subst ha
      rw [unlist_self]
      exact List.filter_sublist
    · rw [show (r.unlist role ws).sockets a = r.sockets a from Function.update_of_ne ha _ _]
  refine ⟨?_, ?_, ?_⟩
  · intro a
    exact Nat.le_trans ((hsub a).filter _).length_le (hwf.one a)
  · intro a s hs
    exact hwf.fresh a s ((hsub a).subset hs)
  · intro a b s hs t ht hid
    exact hwf.ids a b s ((hsub a).subset hs) t ((hsub b).subset ht) hid

theorem Wf.expired {r : Room} (hwf : r.Wf) : r.expired.Wf := by
  refine (hwf.closeAll (fun _ => true)).congr ?_ rfl
  simp [Room.expired]

/-- **Everything an event can do to a room.** -/
inductive Outcome (r : Room) : RoomEvent → Room → Prop
  /-- Nothing: a refused join, an event of a socket that is not listed, a message with nobody to
  forward it to, or an alarm that is not armed. -/
  | idle {e : RoomEvent} (h : match e with
      | .join upgrade param => joinRole upgrade param = none
      | .message role ws _ => r.Listed role ws → ∀ o ∈ (r.sockets role.other).head?, o.closed = true
      | .closed role ws | .errored role ws => ¬ r.Listed role ws
      | .alarm => r.alarm = false) : Outcome r e r
  | joinedAlone {upgrade param : Option String} {role : Role}
      (hj : joinRole upgrade param = some role) (hh : (r.sockets role.other).head? = none) :
      Outcome r (.join upgrade param) { r.joined role with alarm := true }
  | joinThrew {upgrade param : Option String} {role : Role} {o : Socket}
      (hj : joinRole upgrade param = some role) (hh : (r.sockets role.other).head? = some o)
      (ho : o.closed = true) :
      Outcome r (.join upgrade param)
        { r.joined role with sent := (r.next, .notice .peerJoined) :: r.sent }
  | paired {upgrade param : Option String} {role : Role} {o : Socket}
      (hj : joinRole upgrade param = some role) (hh : (r.sockets role.other).head? = some o)
      (ho : o.closed = false) :
      Outcome r (.join upgrade param) { r.joined role with
        sent := (o.id, .notice .peerJoined) :: (r.next, .notice .peerJoined) :: r.sent
        alarm := false }
  | forwarded {role : Role} {ws : Nat} {p : Payload} {o : Socket} (hl : r.Listed role ws)
      (hh : (r.sockets role.other).head? = some o) (ho : o.closed = false) :
      Outcome r (.message role ws p) { r with sent := (o.id, .forwarded p) :: r.sent }
  /-- A departure nobody is told about: another socket of the role is listed, or nobody can be. -/
  | leftQuietly {e : RoomEvent} {role : Role} {ws : Nat}
      (he : e = .closed role ws ∨ e = .errored role ws) (hl : r.Listed role ws)
      (hq : (∃ s ∈ r.sockets role, s.id ≠ ws) ∨
        ∀ o ∈ (r.sockets role.other).head?, o.closed = true) : Outcome r e (r.unlist role ws)
  | left {e : RoomEvent} {role : Role} {ws : Nat} {o : Socket}
      (he : e = .closed role ws ∨ e = .errored role ws) (hl : r.Listed role ws)
      (honly : ∀ s ∈ r.sockets role, s.id = ws) (hh : (r.sockets role.other).head? = some o)
      (ho : o.closed = false) :
      Outcome r e { r.unlist role ws with
        sent := (o.id, .notice .peerLeft) :: r.sent
        alarm := true }
  | expired (ha : r.alarm = true) : Outcome r .alarm r.expired

theorem outcome_depart {r : Room} {e : RoomEvent} {role : Role} {ws : Nat}
    (he : e = .closed role ws ∨ e = .errored role ws) : Outcome r e (after (r.depart role ws)) := by
  by_cases hl : r.Listed role ws
  · rw [depart_eq hl]
    split
    · next hex => exact .leftQuietly he hl (.inl hex)
    · next hex =>
        cases hh : (r.sockets role.other).head? with
        | none => exact .leftQuietly he hl (.inr (by simp [hh]))
        | some o =>
            cases ho : o.closed with
            | true =>
                simp only [ho, after]
                exact .leftQuietly he hl (.inr (by simp [hh, ho]))
            | false =>
                simp only [ho, after]
                exact .left he hl (by simpa using hex) hh ho
  · rw [depart, if_neg hl]
    refine .idle ?_
    rcases he with rfl | rfl
    · exact hl
    · exact hl

theorem outcome (r : Room) (e : RoomEvent) : Outcome r e (r.step e) := by
  cases e with
  | join upgrade param =>
      rw [step]
      cases hj : joinRole upgrade param with
      | none =>
          rw [handle_join_none r hj]
          exact .idle hj
      | some role =>
          rw [handle_join r hj]
          cases hh : (r.sockets role.other).head? with
          | none => exact .joinedAlone hj hh
          | some o =>
              cases ho : o.closed with
              | true => simpa [ho, after] using .joinThrew hj hh ho
              | false => simpa [ho, after] using .paired hj hh ho
  | message role ws p =>
      rw [step]
      by_cases hl : r.Listed role ws
      -- the sender is listed; has it a peer, and is that one open?
      · rw [handle_message hl]
        cases hh : (r.sockets role.other).head? with
        | none => exact .idle fun _ => by simp [hh]
        | some o =>
            cases ho : o.closed with
            | true => simpa [ho, after] using .idle fun _ => by simp [hh, ho]
            | false => simpa [ho, after] using .forwarded hl hh ho
      · rw [handle, if_neg hl]
        exact .idle fun h => absurd h hl
  | closed role ws => exact outcome_depart (.inl rfl)
  | errored role ws => exact outcome_depart (.inr rfl)
  | alarm =>
      rw [step, handle_alarm]
      cases ha : r.alarm with
      | true => exact .expired ha
      | false => exact .idle ha

theorem Wf.of_outcome {r r' : Room} (hwf : r.Wf) {e : RoomEvent} (h : Outcome r e r') : r'.Wf := by
  cases h with
  | idle => exact hwf
  | @joinedAlone _ _ role => exact (hwf.joined role).congr rfl rfl
  | @joinThrew _ _ role => exact (hwf.joined role).congr rfl rfl
  | @paired _ _ role => exact (hwf.joined role).congr rfl rfl
  | forwarded => exact hwf.congr rfl rfl
  | @leftQuietly _ role ws => exact hwf.unlist role ws
  | @left _ role ws => exact (hwf.unlist role ws).congr rfl rfl
  | expired => exact hwf.expired

/-- **Every event keeps the room well formed.** -/
theorem Wf.step {r : Room} (hwf : r.Wf) (e : RoomEvent) : (r.step e).Wf :=
  hwf.of_outcome (outcome r e)

/-- The rule for runs: what an event needs and does, for every event of a run. -/
theorem AllSteps.iff {P Q : Room → RoomEvent → Prop} {I : Room → Prop}
    (hstep : ∀ r e, I r → P r e → I (r.step e)) (hiff : ∀ r e, I r → (P r e ↔ Q r e))
    {r : Room} (hr : I r) (es : List RoomEvent) : AllSteps P r es ↔ AllSteps Q r es := by
  induction es generalizing r with
  | nil => exact Iff.rfl
  | cons e es ih =>
      constructor
      · rintro ⟨h, hes⟩
        exact ⟨(hiff r e hr).mp h, (ih (hstep r e hr h)).mp hes⟩
      · rintro ⟨h, hes⟩
        have hP := (hiff r e hr).mpr h
        exact ⟨hP, (ih (hstep r e hr hP)).mpr hes⟩

end Room
end B2p
