import B2p.Tunnel.Session
import B2p.Stream.Outcome

/-!
# Requests handled at the same time

Any number of requests, each past `auth_mw` and in its handler. The handlers take turns at every
operation on the disk, and share the slot of the active transfer behind its mutex.

* `Shared` — the disk, the slot and who holds the lock; `Shared.Allows` — the answers an operation may get.
* `Handling` — the runs.
* `Position` — where a handler is, read off what it has done.
* `CommitSafe` — what a commit that was answered `ok: true` should mean.
* `Disciplined` — a handler takes the lock once, and gives it back as the last thing it does.
-/

namespace B2p

open Interaction Prog Fs

namespace Server

abbrev ServerAction := Action serverEffects

/-! ## The shared state -/

/-- What the handlers share. The lock is held by the handler of request `holder`. -/
structure Shared (I : Type) where
  disk : Fs
  slot : Option ActiveTransfer
  holder : Option I

section Shared

variable {I : Type} (X : Externals)

/-- The state an operation leaves. -/
def Shared.next (w : Shared I) : I × ServerAction → Shared I
  | (_, ⟨.fs o, _⟩) => { w with disk := (X.handle o w.disk).2 }
  | (i, ⟨.lock, _⟩) => { w with holder := some i }
  | (_, ⟨.unlock t, _⟩) => { w with slot := t, holder := none }
  | _ => w

/-- The disk answers as it does, the lock is granted when it is free, the user says anything. -/
def Shared.Allows (w : Shared I) : I × ServerAction → Prop
  | (_, ⟨.fs o, r⟩) => r = (X.handle o w.disk).1
  | (_, ⟨.lock, r⟩) => w.holder = none ∧ r = w.slot
  | _ => True

/-- The server when it starts. -/
def Shared.start (fs : Fs) : Shared I := ⟨fs, none, none⟩

/-- The state after a log. -/
def Shared.after (fs : Fs) (log : List (I × ServerAction)) : Shared I :=
  log.foldl (Shared.next X) (Shared.start fs)

theorem Shared.after_snoc (fs : Fs) (log : List (I × ServerAction)) (x : I × ServerAction) :
    Shared.after X fs (log ++ [x]) = (Shared.after X fs log).next X x := by
  simp [Shared.after]

end Shared

variable {I : Type} [DecidableEq I] (X : Externals) (cfg : ServerCfg) (key : Key) (reqs : I → Request)

/-- The requests `reqs` being handled, in the order of `log`, by a server that started on `fs`. -/
abbrev Handling (fs : Fs) (log : List (I × ServerAction)) (qs : I → ServerProg Response) : Prop :=
  Run (fun i => handler X cfg key (reqs i)) (fun log x => (Shared.after X fs log).Allows X x) log qs

/-! ## Where a handler is -/

/-- Where a handler is: not in any staging directory yet; opening the store of one, without and with
the lock; working on the active transfer under the lock; only looking at the slot under the lock; done. -/
inductive Position where
  | before
  | opening (dir : String)
  | installing (dir : String)
  | holding (active : ActiveTransfer)
  | peeking (slot : Option ActiveTransfer)
  | left

/-- The lock is taken: by a chunk or a commit to work on what is in the slot. -/
def Position.locked (e : Endpoint) (slot : Option ActiveTransfer) : Position :=
  match e, slot with
  | .status, slot => .peeking slot
  | _, some active => .holding active
  | _, none => .peeking none

def Position.next (e : Endpoint) : Position → ServerAction → Position
  | .before, ⟨.fs (.createDirAll dir), .ok ()⟩ => .opening dir
  | .before, ⟨.lock, slot⟩ => .locked e slot
  | .opening dir, ⟨.lock, _⟩ => .installing dir
  | _, ⟨.unlock _, _⟩ => .left
  | pos, _ => pos

/-- The staging directory of a transfer. -/
def ActiveTransfer.dir (active : ActiveTransfer) : String := stagingDir (Stream.safeName active.manifest.name)

/-- The staging directory a handler is in. -/
def Position.dir : Position → Option String
  | .opening dir => some dir
  | .installing dir => some dir
  | .holding active => some active.dir
  | _ => none

/-- It has the lock. -/
def Position.isLocked : Position → Bool
  | .installing _ => true
  | .holding _ => true
  | .peeking _ => true
  | _ => false

/-- Where the handler of request `i` is after `log`. -/
def position (log : List (I × ServerAction)) (i : I) : Position :=
  (own i log).foldl (Position.next (reqs i).endpoint) .before

theorem position_snoc_self (log : List (I × ServerAction)) (i : I) (a : ServerAction) :
    position reqs (log ++ [(i, a)]) i = (position reqs log i).next (reqs i).endpoint a := by
  rw [position, own_snoc_self, List.foldl_append]
  rfl

variable {reqs} in
theorem position_snoc_of_ne {i j : I} (h : j ≠ i) (log : List (I × ServerAction)) (a : ServerAction) :
    position reqs (log ++ [(j, a)]) i = position reqs log i := by
  rw [position, own_snoc_of_ne h]
  rfl

/-- At no time are two requests in one staging directory. -/
def Serialized (log : List (I × ServerAction)) : Prop :=
  ∀ before, before <+: log → ∀ i j dir, (position reqs before i).dir = some dir →
    (position reqs before j).dir = some dir → i = j

/-! ## What a commit promises -/

/-- The chunk was opened: a request for chunk `index` found a transfer with this id active and opened,
under that id. -/
def Opened (log : List (I × ServerAction)) (transferId : String) (index : Nat) (plaintext : Bytes) : Prop :=
  ∃ i active, (i, (⟨.lock, some active⟩ : ServerAction)) ∈ log ∧
    active.manifest.transferId = transferId ∧ (reqs i).endpoint = .chunk index ∧
    X.cipher.open_ key .data index (asBytes transferId) (reqs i).body = some plaintext

/-- The chunk was staged, and listed for this very transfer, when the server started. -/
def Found (fs : Fs) (m : Manifest) (index : Nat) (plaintext : Bytes) : Prop :=
  index ∈ (startState X m fs).haves ∧ plaintext = blockOf m (startData X m fs) index

/-- Where a staged chunk may come from. -/
def Genuine (fs : Fs) (log : List (I × ServerAction)) (m : Manifest) (index : Nat) (plaintext : Bytes) :
    Prop :=
  Opened X key reqs log m.transferId index plaintext ∨ Found X fs m index plaintext

/-- The destination holds a file with the commit's hash, every chunk of which is genuine. On a chunk
size of zero `div_ceil` panics before the commit is answered. -/
def Delivered (fs : Fs) (log : List (I × ServerAction)) (m : Manifest) (commit : Commit) (disk : Fs) :
    Prop :=
  ∃ content, disk.content (.out (Stream.safeName m.name)) = some content ∧
    X.blake3 content = commit.blake3Hex ∧
    (0 < m.chunkSize → ∀ index < m.totalChunks, Genuine X key reqs fs log m index (blockOf m content index))

/-- The last action of request `i`, after `before`, answers a commit of a file with `ok: true`. -/
structure Answered (before : List (I × ServerAction)) (i : I) (qs : I → ServerProg Response)
    (active : ActiveTransfer) (commit : Commit) : Prop where
  endpoint : (reqs i).endpoint = .commit
  holding : position reqs before i = .holding active
  opens : openJson X key X.commitJson .commit (asBytes active.manifest.transferId) (reqs i).body = some commit
  kind : active.manifest.kind = .file
  ok : qs i = .ret ⟨200, X.commitAckJson.toVec ⟨true, none⟩⟩

/-- In this run a commit answered `ok: true` has put the file in place, whole and genuine, and nothing
later changes it. -/
def CommitSafe (fs : Fs) (log : List (I × ServerAction)) : Prop :=
  ∀ before i a later qs active commit, log = before ++ (i, a) :: later →
    Handling X cfg key reqs fs (before ++ [(i, a)]) qs → Answered X key reqs before i qs active commit →
    Delivered X key reqs fs (before ++ [(i, a)]) active.manifest commit
      (Shared.after X fs (before ++ [(i, a)])).disk ∧
    (Shared.after X fs log).disk.content (.out (Stream.safeName active.manifest.name))
      = (Shared.after X fs (before ++ [(i, a)])).disk.content (.out (Stream.safeName active.manifest.name))

/-- The action may put something else in place of the file `name`: a file is moved onto it, or an archive
is unpacked. -/
def Replaces (name : String) (a : ServerAction) : Prop :=
  (∃ p, a.op = .fs (.rename p (.out name))) ∨ ∃ p, a.op = .fs (.unpackTar p)

/-- The same, except that a later commit under the same name and an unpacked archive do change the file. -/
def CommitKept (fs : Fs) (log : List (I × ServerAction)) : Prop :=
  ∀ before i a later qs active commit, log = before ++ (i, a) :: later →
    Handling X cfg key reqs fs (before ++ [(i, a)]) qs → Answered X key reqs before i qs active commit →
    Delivered X key reqs fs (before ++ [(i, a)]) active.manifest commit
      (Shared.after X fs (before ++ [(i, a)])).disk ∧
    ((∀ x ∈ later, ¬ Replaces (Stream.safeName active.manifest.name) x.2) →
      (Shared.after X fs log).disk.content (.out (Stream.safeName active.manifest.name))
        = (Shared.after X fs (before ++ [(i, a)])).disk.content
            (.out (Stream.safeName active.manifest.name)))

/-! ## The lock -/

/-- The program takes the lock once, and gives it back as the last thing it does. `locked` says whether
it has it. -/
def Disciplined {α : Type} (locked : Bool) : ServerProg α → Prop
  | .ret _ => locked = false
  | .fail _ => locked = false
  | .step .lock k => locked = false ∧ ∀ slot, Disciplined true (k slot)
  | .step (.unlock _) k => locked = true ∧ ∃ a, k () = .ret a
  | .step (.fs _) k => ∀ r, Disciplined locked (k r)
  | .step (.accept _) k => ∀ r, Disciplined locked (k r)
  | .step (.event _) k => Disciplined locked (k ())
  | .step .shutdown k => Disciplined locked (k ())

section Disciplined

variable {X cfg key} {α β : Type} {locked : Bool}

/-- Whatever happens on the disk has nothing to do with the lock. -/
theorem disciplined_onDisk {p : FsProg α} {f : α → ServerProg β} (hp : FailsWith (fun _ => locked = false) p)
    (hf : ∀ a, Disciplined locked (f a)) : Disciplined locked (onDisk p >>= f) := by
  induction p with
  | ret a => exact hf a
  | fail e => exact hp
  | step o k ih => exact fun r => ih r (hp r)

theorem disciplined_attempt {p : FsProg α} {f : Except Anyhow α → ServerProg β}
    (hf : ∀ r, Disciplined locked (f r)) : Disciplined locked ((onDisk p).attempt >>= f) := by
  induction p with
  | ret a => exact hf _
  | fail e => exact hf _
  | step o k ih => exact fun r => ih r

theorem disciplined_acceptManifest (m : Manifest) (name : String) :
    Disciplined false (acceptManifest X m name) := by
  unfold acceptManifest
  split
  · exact rfl
  · apply disciplined_attempt
    intro r
    cases r with
    | error e => exact rfl
    | ok store => exact ⟨rfl, fun _ => ⟨rfl, _, rfl⟩⟩

theorem disciplined_decide (m : Manifest) (destExists : Bool) {k : Option Bool → ServerProg Response}
    (h : ∀ r, Disciplined false (k r)) : Disciplined false (decide_ cfg m destExists >>= k) := by
  unfold decide_
  split
  · exact h _
  · exact h

theorem disciplined_handleManifest (body : Bytes) : Disciplined false (handleManifest X cfg key body) := by
  unfold handleManifest
  split
  · exact rfl
  split
  · exact rfl
  intro destExists
  apply disciplined_decide
  intro r
  rcases r with _ | _ | _
  · exact rfl
  · exact rfl
  · exact disciplined_acceptManifest _ _

theorem disciplined_handleChunk (index : Nat) (body : Bytes) :
    Disciplined false (handleChunk X key index body) := by
  refine ⟨rfl, fun slot => ?_⟩
  cases slot with
  | none => exact ⟨rfl, _, rfl⟩
  | some active =>
      dsimp only [Prog.bind]
      split
      · exact ⟨rfl, _, rfl⟩
      · apply disciplined_onDisk
        · exact failsWith_writeChunk _ _ _ _
        · rintro ⟨r, store⟩
          cases r with
          | ok u => exact ⟨rfl, _, rfl⟩
          | error e => exact ⟨rfl, _, rfl⟩

theorem disciplined_handleCommit (body : Bytes) : Disciplined false (handleCommit X cfg key body) := by
  refine ⟨rfl, fun slot => ?_⟩
  cases slot with
  | none => exact ⟨rfl, _, rfl⟩
  | some active =>
      dsimp only [Prog.bind]
      split
      · exact ⟨rfl, _, rfl⟩
      · apply disciplined_attempt
        intro r
        cases r with
        | ok desc => exact ⟨rfl, _, rfl⟩
        | error e => exact ⟨rfl, _, rfl⟩

variable (X cfg key) in
/-- **Every handler keeps to the lock.** -/
theorem disciplined_handler (req : Request) : Disciplined false (handler X cfg key req) := by
  unfold handler
  split
  · exact disciplined_handleManifest _
  · exact disciplined_handleChunk _ _
  · refine ⟨rfl, fun slot => ⟨rfl, ?_⟩⟩
    cases slot with
    | none => exact ⟨_, rfl⟩
    | some active => exact ⟨_, rfl⟩
  · exact disciplined_handleCommit _

end Disciplined

/-! ## A handler nobody interrupts -/

section alone

variable {X cfg key reqs} {fs : Fs} {i : I} {log : List (I × ServerAction)}
  {qs : I → ServerProg Response}

variable (X cfg key reqs fs i log qs) in
/-- The handler of `i` has gone on alone, from `log`, to the outcome `r`. -/
structure Alone (log' : List (I × ServerAction)) (qs' : I → ServerProg Response)
    (r : Except Anyhow Response × App) : Prop where
  run : Handling X cfg key reqs fs (log ++ log') qs'
  self : qs' i = ofExcept r.1
  others : ∀ j, j ≠ i → qs' j = qs j
  mine : ∀ x ∈ log', x.1 = i
  after : Shared.after X fs (log ++ log') = ⟨r.2.disk, r.2.transfer, none⟩

/-- Releasing the lock is the last action of the log, and happens only there. -/
def Releases (i : I) (log : List (I × ServerAction)) : Prop :=
  ∃ pre t, log = pre ++ [(i, ⟨.unlock t, ()⟩)] ∧ ∀ x ∈ pre, ∀ t, x.2.op ≠ .unlock t

/-- One operation, then the rest. -/
theorem Alone.cons {a : ServerAction} {p : ServerProg Response} {log' : List (I × ServerAction)}
    {qs' : I → ServerProg Response} {r : Except Anyhow Response × App}
    (h : Alone X cfg key reqs fs i (log ++ [(i, a)]) (Function.update qs i p) log' qs' r) :
    Alone X cfg key reqs fs i log qs ((i, a) :: log') qs' r := by
  have heq : log ++ (i, a) :: log' = log ++ [(i, a)] ++ log' := List.append_cons ..
  refine ⟨heq ▸ h.run, h.self, ?_, ?_, heq ▸ h.after⟩
  · intro j hj
    rw [h.others j hj, Function.update_of_ne hj]
  · intro x hx
    rcases List.mem_cons.mp hx with rfl | hx
    · rfl
    · exact h.mine x hx

/-- **A handler can go on alone to its end**, and then has done what it does when requests are handled
one after the other. If it has the lock, releasing it is the last thing it does. -/
theorem exists_alone (answer : Option Bool) (app : App) {locked : Bool} {p : ServerProg Response}
    (hd : Disciplined locked p) (hrun : Handling X cfg key reqs fs log qs) (hi : qs i = p)
    (hw : Shared.after X fs log = ⟨app.disk, app.transfer, if locked then some i else none⟩) :
    ∃ log' qs', Alone X cfg key reqs fs i log qs log' qs' (p.eval (App.handle X answer) app) ∧
      (locked = true → Releases i log') := by
  induction p generalizing log qs locked app with
  | ret a =>
      cases (hd : locked = false)
      refine ⟨[], qs, ⟨by rwa [List.append_nil], hi, fun _ _ => rfl, by simp, ?_⟩, nofun⟩
      rw [List.append_nil, hw]
      rfl
  | fail e =>
      cases (hd : locked = false)
      refine ⟨[], qs, ⟨by rwa [List.append_nil], hi, fun _ _ => rfl, by simp, ?_⟩, nofun⟩
      rw [List.append_nil, hw]
      rfl
  | step o k ih =>
      have hgo : ∀ locked', Disciplined locked' (k (App.handle X answer o app).1) →
          (Shared.after X fs log).Allows X (i, ⟨o, (App.handle X answer o app).1⟩) →
          (Shared.after X fs log).next X (i, ⟨o, (App.handle X answer o app).1⟩)
            = ⟨(App.handle X answer o app).2.disk, (App.handle X answer o app).2.transfer,
                if locked' then some i else none⟩ →
          ∃ log' qs', Alone X cfg key reqs fs i log qs ((i, ⟨o, (App.handle X answer o app).1⟩) :: log') qs'
              ((step o k).eval (App.handle X answer) app) ∧ (locked' = true → Releases i log') := by
        intro locked' hd' hR hnext
        obtain ⟨log', qs', hal, hlast⟩ := ih _ _ hd' (hrun.extend hi hR) (Function.update_self _ _ _)
          (by rw [Shared.after_snoc, hnext])
        exact ⟨log', qs', hal.cons, hlast⟩
      -- every operation but those on the lock leaves it as it was
      have hstay : (∀ t, o ≠ .unlock t) → Disciplined locked (k (App.handle X answer o app).1) →
          (Shared.after X fs log).Allows X (i, ⟨o, (App.handle X answer o app).1⟩) →
          (Shared.after X fs log).next X (i, ⟨o, (App.handle X answer o app).1⟩)
            = ⟨(App.handle X answer o app).2.disk, (App.handle X answer o app).2.transfer,
                if locked then some i else none⟩ →
          ∃ log' qs', Alone X cfg key reqs fs i log qs log' qs' ((step o k).eval (App.handle X answer) app) ∧
            (locked = true → Releases i log') := by
        intro ho hd' hR hnext
        obtain ⟨log', qs', hal, hlast⟩ := hgo locked hd' hR hnext
        refine ⟨_, qs', hal, fun hl => ?_⟩
        obtain ⟨pre, t, rfl, hpre⟩ := hlast hl
        refine ⟨_ :: pre, t, rfl, ?_⟩
        intro x hx
        rcases List.mem_cons.mp hx with rfl | hx
        · exact ho
        · exact hpre x hx
      cases o with
      | fs o => exact hstay nofun (hd _) (by rw [hw]; rfl) (by rw [hw]; rfl)
      | lock =>
          obtain ⟨rfl, hd⟩ := hd
          obtain ⟨log', qs', hal, -⟩ := hgo true (hd _) (by rw [hw]; exact ⟨rfl, rfl⟩) (by rw [hw]; rfl)
          exact ⟨_, qs', hal, nofun⟩
      | unlock t =>
          obtain ⟨rfl, a, ha⟩ := hd
          have hk : k (App.handle X answer (.unlock t) app).1 = .ret a := ha
          -- nothing follows
          refine ⟨[(i, ⟨.unlock t, ()⟩)], Function.update qs i (k ()),
            ⟨hrun.extend hi trivial, ?_, fun j hj => Function.update_of_ne hj _ _, by simp, ?_⟩,
            fun _ => ⟨[], t, rfl, by simp⟩⟩
          · rw [Function.update_self, eval_step, hk]
            rfl
          · rw [Shared.after_snoc, hw, eval_step, hk]
            rfl
      | accept summary => exact hstay nofun (hd _) trivial (by rw [hw]; rfl)
      | event e => exact hstay nofun hd trivial (by rw [hw]; rfl)
      | shutdown => exact hstay nofun hd trivial (by rw [hw]; rfl)

/-! ## One request after the other -/

omit [DecidableEq I] in
variable (X fs log) in
/-- Nothing but releasing the lock changes the slot. -/
theorem slot_after_append {l : List (I × ServerAction)} (h : ∀ x ∈ l, ∀ t, x.2.op ≠ .unlock t) :
    (Shared.after X fs (log ++ l)).slot = (Shared.after X fs log).slot := by
  induction l using List.reverseRecOn with
  | nil => rw [List.append_nil]
  | append_singleton l x ih =>
      rw [← List.append_assoc, Shared.after_snoc, ← ih fun y hy => h y (List.mem_append_left _ hy)]
      obtain ⟨i, o, r⟩ := x
      cases o with
      | unlock t => exact absurd rfl (h _ (List.mem_append_right _ List.mem_cons_self) t)
      | _ => rfl

/-- A handler that has released the lock is done. -/
theorem foldl_next_left {e : Endpoint} (tr : List ServerAction) :
    tr.foldl (Position.next e) .left = .left := by
  induction tr with
  | nil => rfl
  | cons a tr ih =>
      obtain ⟨o, r⟩ := a
      cases o <;> exact ih

theorem foldl_next_of_unlock {e : Endpoint} {tr : List ServerAction} {pos : Position}
    (h : ∃ a ∈ tr, ∃ t, a.op = .unlock t) : tr.foldl (Position.next e) pos = .left := by
  induction tr generalizing pos with
  | nil =>
      obtain ⟨a, ha, -⟩ := h
      cases ha
  | cons b tr ih =>
      obtain ⟨a, ha, t, ht⟩ := h
      rcases List.mem_cons.mp ha with rfl | ha
      · obtain ⟨o, r⟩ := a
        cases ht
        have hleft : pos.next e ⟨.unlock t, r⟩ = .left := by cases pos <;> rfl
        rw [List.foldl_cons, hleft]
        exact foldl_next_left tr
      · exact ih ⟨a, ha, t, ht⟩

/-- As long as it does not, one that works on a transfer goes on with it. -/
theorem foldl_next_holding {e : Endpoint} {active : ActiveTransfer} {tr : List ServerAction}
    (h : ∀ a ∈ tr, ∀ t, a.op ≠ .unlock t) :
    tr.foldl (Position.next e) (.holding active) = .holding active := by
  induction tr with
  | nil => rfl
  | cons a tr ih =>
      have hrest := ih fun b hb => h b (List.mem_cons_of_mem _ hb)
      obtain ⟨o, r⟩ := a
      cases o with
      | unlock t => exact absurd rfl (h _ List.mem_cons_self t)
      | _ => exact hrest

theorem own_eq_nil {j : I} {l : List (I × ServerAction)} (h : ∀ x ∈ l, x.1 ≠ j) : own j l = [] := by
  rw [own, List.filterMap_eq_nil_iff]
  exact fun x hx => if_neg (h x hx)

variable (X cfg key reqs fs log qs) in
/-- No request is being handled: all are either done or have not arrived. -/
structure Resting (disk : Fs) (slot : Option ActiveTransfer) : Prop where
  run : Handling X cfg key reqs fs log qs
  after : Shared.after X fs log = ⟨disk, slot, none⟩
  serialized : Serialized reqs log
  outside : ∀ j, (position reqs log j).dir = none

variable (X cfg key reqs fs) in
theorem resting_start : Resting X cfg key reqs fs [] (fun i => handler X cfg key (reqs i)) fs none := by
  refine ⟨⟨fun i => .nil _, trivial⟩, rfl, ?_, fun j => rfl⟩
  intro before hb i j dir hi
  rw [List.prefix_nil.mp hb] at hi
  cases hi

/-- A request that has not arrived is still to be handled. -/
theorem Resting.fresh {disk : Fs} {slot : Option ActiveTransfer}
    (h : Resting X cfg key reqs fs log qs disk slot) {j : I} (hj : ∀ x ∈ log, x.1 ≠ j) :
    qs j = handler X cfg key (reqs j) := by
  have hf := h.run.follows j
  rw [own_eq_nil hj] at hf
  exact hf.of_nil.symm

theorem Serialized.of_append {later : List (I × ServerAction)} (h : Serialized reqs (log ++ later)) :
    Serialized reqs log :=
  fun before hb => h before (hb.trans (List.prefix_append log later))

/-- One more action, after which no two are in one directory. -/
theorem Serialized.snoc (hser : Serialized reqs log) {x : I × ServerAction}
    (hlast : ∀ j j' dir, (position reqs (log ++ [x]) j).dir = some dir →
      (position reqs (log ++ [x]) j').dir = some dir → j = j') : Serialized reqs (log ++ [x]) := by
  intro before hb
  rcases List.prefix_concat_iff.mp hb with rfl | hpre
  · exact hlast
  · exact hser before hpre

/-- While one handler goes on alone, and the others are in no directory, no two are in one. -/
theorem Serialized.alone (hser : Serialized reqs log)
    (hout : ∀ j, j ≠ i → (position reqs log j).dir = none)
    {log' : List (I × ServerAction)} (hmine : ∀ x ∈ log', x.1 = i) : Serialized reqs (log ++ log') := by
  intro before hb j j' dir hj hj'
  rcases List.prefix_or_prefix_of_prefix hb (List.prefix_append log log') with hpre | ⟨rest, rfl⟩
  · exact hser before hpre j j' dir hj hj'
  · -- the others are where they were, and that is nowhere
    have hi : ∀ j, (position reqs (log ++ rest) j).dir = some dir → j = i := by
      intro j hj
      by_contra hne
      have hnil : own j rest = [] := by
        refine own_eq_nil fun x hx => ?_
        have hmem : x ∈ log' := ((List.prefix_append_right_inj log).mp hb).subset hx
        rw [hmine x hmem]
        exact Ne.symm hne
      have hsame : position reqs (log ++ rest) j = position reqs log j := by
        rw [position, own_append, hnil, List.append_nil]
        rfl
      rw [hsame, hout j hne] at hj
      cases hj
    rw [hi j hj, hi j' hj']

/-- A request has been handled, and the handler has released the lock. -/
theorem Resting.extend {disk disk' : Fs} {slot slot' : Option ActiveTransfer}
    (h : Resting X cfg key reqs fs log qs disk slot) {j : I} {log' : List (I × ServerAction)}
    {qs' : I → ServerProg Response} (hrun : Handling X cfg key reqs fs (log ++ log') qs')
    (hafter : Shared.after X fs (log ++ log') = ⟨disk', slot', none⟩) (hmine : ∀ x ∈ log', x.1 = j)
    (hun : ∃ a ∈ own j log', ∃ t, a.op = .unlock t) :
    Resting X cfg key reqs fs (log ++ log') qs' disk' slot' := by
  refine ⟨hrun, hafter, h.serialized.alone (fun j _ => h.outside j) hmine, ?_⟩
  intro i
  by_cases hi : i = j
  · subst hi
    rw [position, own_append, List.foldl_append, foldl_next_of_unlock hun]
    rfl
  · have hnil : own i log' = [] := own_eq_nil fun x hx => by rw [hmine x hx]; exact Ne.symm hi
    have hsame : position reqs (log ++ log') i = position reqs log i := by
      rw [position, own_append, hnil, List.append_nil]
      rfl
    rw [hsame]
    exact h.outside i

section request

variable {answer : Option Bool} {app app' : App} {r : Response}
  (h : Resting X cfg key reqs fs log qs app.disk app.transfer) {j : I} (hj : ∀ x ∈ log, x.1 ≠ j)
  (heval : (handler X cfg key (reqs j)).eval (App.handle X answer) app = (.ok r, app'))

include h hj heval

/-- **A whole request**, from its arrival to its answer, that leaves something else in the slot. -/
theorem Resting.request (hslot : app'.transfer ≠ app.transfer) :
    ∃ log' qs', Resting X cfg key reqs fs (log ++ log') qs' app'.disk app'.transfer ∧
      ∀ x ∈ log', x.1 = j := by
  obtain ⟨log', qs', hal, -⟩ := exists_alone answer app (disciplined_handler X cfg key (reqs j)) h.run
    (h.fresh hj) (by rw [h.after]; rfl)
  rw [heval] at hal
  refine ⟨log', qs', h.extend hal.run hal.after hal.mine ?_, hal.mine⟩
  -- the slot has changed, so the lock has been released
  by_contra hno
  have hkept := slot_after_append X fs log (l := log') ?_
  · rw [hal.after, h.after] at hkept
    exact hslot hkept
  · rintro ⟨j', a⟩ hx t ht
    obtain rfl : j' = j := hal.mine _ hx
    exact hno ⟨a, mem_own.mpr hx, t, ht⟩

/-- **A whole commit**: until its last action it holds the active transfer. -/
theorem Resting.commit {active : ActiveTransfer} (hreq : (reqs j).endpoint = .commit)
    (hactive : app.transfer = some active) :
    ∃ pre t qs', Resting X cfg key reqs fs (log ++ pre ++ [(j, ⟨.unlock t, ()⟩)]) qs' app'.disk
        app'.transfer ∧
      position reqs (log ++ pre) j = .holding active ∧ qs' j = .ret r ∧
      ∀ x ∈ pre, x.1 = j := by
  have hd := disciplined_handler X cfg key (reqs j)
  have hprog := h.fresh hj
  have hcommit : handler X cfg key (reqs j) = handleCommit X cfg key (reqs j).body := by
    rw [handler, hreq]
  rw [hcommit] at hd hprog heval
  -- the lock first, then the rest
  have hrun₁ := h.run.extend hprog (r := some active) (by rw [h.after, hactive]; exact ⟨rfl, rfl⟩)
  obtain ⟨log', qs', hal, hrel⟩ := exists_alone answer app (hd.2 (some active)) hrun₁
    (Function.update_self _ _ _) (by rw [Shared.after_snoc, h.after]; rfl)
  obtain ⟨pre, t, rfl, hpre⟩ := hrel rfl
  have hlock : App.handle X answer .lock app = (some active, app) := by rw [← hactive]; rfl
  have hrest := heval
  rw [handleCommit, step_bind, eval_step_eq _ hlock] at hrest
  have hal : Alone X cfg key reqs fs j (log ++ [(j, ⟨.lock, some active⟩)]) _
      (pre ++ [(j, ⟨.unlock t, ()⟩)]) qs'
      (.ok r, app') := hrest ▸ hal
  have hmine : ∀ x ∈ (j, ⟨.lock, some active⟩) :: pre ++ [(j, ⟨.unlock t, ()⟩)], x.1 = j := by
    intro x hx
    rcases List.mem_cons.mp hx with rfl | hx
    · rfl
    · exact hal.mine x hx
  have hpremine := fun x hx => hmine x (List.mem_append_left _ hx)
  have heq : log ++ (j, ⟨.lock, some active⟩) :: pre ++ [(j, ⟨.unlock t, ()⟩)]
      = log ++ [(j, ⟨.lock, some active⟩)] ++ (pre ++ [(j, ⟨.unlock t, ()⟩)]) := by simp
  refine ⟨(j, ⟨.lock, some active⟩) :: pre, t, qs', ?_, ?_, hal.self, hpremine⟩
  · rw [List.append_assoc]
    refine h.extend ?_ ?_ hmine ?_
    · rw [← List.append_assoc, heq]
      exact hal.run
    · rw [← List.append_assoc, heq]
      exact hal.after
    · exact ⟨⟨.unlock t, ()⟩, mem_own.mpr (by simp), t, rfl⟩
  · have hown : own j ((j, (⟨.lock, some active⟩ : ServerAction)) :: pre)
        = ⟨.lock, some active⟩ :: own j pre := by
      simp [own]
    rw [position, own_append, own_eq_nil hj, List.nil_append, hown, List.foldl_cons, hreq]
    refine foldl_next_holding fun a ha => ?_
    exact hpre _ (mem_own.mp ha)

end request

/-! ## Two at a time -/

section entering

variable {p : Path} {found : Bool} {dir : String}

/-- A handler that has looked for its file and entered a staging directory. -/
def entering (i : I) (p : Path) (found : Bool) (dir : String) : List (I × ServerAction) :=
  [(i, ⟨.fs (.pathExists p), found⟩), (i, ⟨.fs (.createDirAll dir), .ok ()⟩)]

theorem position_entering (hi : ∀ x ∈ log, x.1 ≠ i) :
    position reqs (log ++ entering i p found dir) i = .opening dir := by
  rw [position, own_append, own_eq_nil hi]
  simp [entering, own, Position.next]

theorem position_entering_of_ne {j : I} (hj : j ≠ i) :
    position reqs (log ++ entering i p found dir) j = position reqs log j := by
  have hnil : own j (entering i p found dir) = [] := own_eq_nil (by simp [entering, Ne.symm hj])
  rw [position, own_append, hnil, List.append_nil]
  rfl

/-- Entering one's own directory, while nobody else is in it. -/
theorem Serialized.enter (hser : Serialized reqs log) (hi : ∀ x ∈ log, x.1 ≠ i)
    (hfree : ∀ j, (position reqs log j).dir ≠ some dir) :
    Serialized reqs (log ++ entering i p found dir) := by
  have hbefore : position reqs log i = .before := by
    rw [position, own_eq_nil hi]
    rfl
  have hfirst : ∀ j, position reqs (log ++ [(i, ⟨.fs (.pathExists p), found⟩)]) j = position reqs log j := by
    intro j
    by_cases hj : j = i
    · subst hj
      rw [position_snoc_self, hbefore]
      rfl
    · exact position_snoc_of_ne (Ne.symm hj) _ _
  have hser₁ : Serialized reqs (log ++ [(i, ⟨.fs (.pathExists p), found⟩)]) := by
    refine hser.snoc fun j j' d hj hj' => ?_
    rw [hfirst] at hj hj'
    exact hser log List.prefix_rfl j j' d hj hj'
  have heq : log ++ entering i p found dir
      = log ++ [(i, ⟨.fs (.pathExists p), found⟩)] ++ [(i, ⟨.fs (.createDirAll dir), .ok ()⟩)] := by
    simp [entering]
  rw [heq]
  refine hser₁.snoc fun j j' d hj hj' => ?_
  rw [← heq] at hj hj'
  -- the one that has entered is in a directory nobody else is in
  have hcase : ∀ j, (position reqs (log ++ entering i p found dir) j).dir = some d →
      (j = i ∧ d = dir) ∨ (j ≠ i ∧ (position reqs log j).dir = some d) := by
    intro j hj
    by_cases hji : j = i
    · subst hji
      rw [position_entering hi] at hj
      exact .inl ⟨rfl, (Option.some.inj hj).symm⟩
    · rw [position_entering_of_ne hji] at hj
      exact .inr ⟨hji, hj⟩
  rcases hcase j hj with ⟨hji, hd⟩ | ⟨-, hold⟩ <;> rcases hcase j' hj' with ⟨hji', hd'⟩ | ⟨-, hold'⟩
  · exact hji.trans hji'.symm
  · exact absurd (hd ▸ hold') (hfree j')
  · exact absurd (hd' ▸ hold) (hfree j)
  · exact hser log List.prefix_rfl j j' d hold hold'

/-- Once the lock is released, the one that has entered is alone in a directory. -/
theorem outside_entering {j : I} {t : Option ActiveTransfer}
    (hothers : ∀ j', j' ≠ j → (position reqs log j').dir = none) {j' : I} (hj' : j' ≠ i) :
    (position reqs (log ++ entering i p found dir ++ [(j, ⟨.unlock t, ()⟩)]) j').dir = none := by
  by_cases hjj : j' = j
  · subst hjj
    rw [position_snoc_self]
    cases position reqs (log ++ entering i p found dir) j' <;> rfl
  · rw [position_snoc_of_ne (Ne.symm hjj), position_entering_of_ne hj']
    exact hothers j' hjj

theorem Serialized.enter_unlock {j : I} {t : Option ActiveTransfer} (hser : Serialized reqs log)
    (hi : ∀ x ∈ log, x.1 ≠ i) (hfree : ∀ j', (position reqs log j').dir ≠ some dir)
    (hothers : ∀ j', j' ≠ j → (position reqs log j').dir = none) :
    Serialized reqs (log ++ entering i p found dir ++ [(j, ⟨.unlock t, ()⟩)]) := by
  refine (hser.enter hi hfree).snoc fun a b d ha hb => ?_
  by_contra hab
  by_cases hai : a = i
  · rw [outside_entering hothers fun hb' => hab (hai.trans hb'.symm)] at hb
    cases hb
  · rw [outside_entering hothers hai] at ha
    cases ha

/-- It does so on a disk that has room for the directory. -/
theorem handling_entering (hrun : Handling X cfg key reqs fs log qs) {k : Bool → ServerProg Response}
    {k' : Except IoError Unit → ServerProg Response} {disk₁ : Fs}
    (hexists : qs i = .step (.fs (.pathExists p)) k)
    (hfound : (X.handle (.pathExists p) (Shared.after X fs log).disk).1 = found)
    (henter : k found = .step (.fs (.createDirAll dir)) k')
    (hdir : X.handle (.createDirAll dir) (Shared.after X fs log).disk = (.ok (), disk₁)) :
    ∃ qs', Handling X cfg key reqs fs (log ++ entering i p found dir) qs' ∧ qs' i = k' (.ok ()) ∧
      (∀ j, j ≠ i → qs' j = qs j) ∧
      Shared.after X fs (log ++ entering i p found dir) = { Shared.after X fs log with disk := disk₁ } := by
  have heq : log ++ entering i p found dir
      = log ++ [(i, ⟨.fs (.pathExists p), found⟩)] ++ [(i, ⟨.fs (.createDirAll dir), .ok ()⟩)] := by
    simp [entering]
  have hrun₁ := hrun.extend hexists (r := found) hfound.symm
  have hafter : Shared.after X fs (log ++ [(i, ⟨.fs (.pathExists p), found⟩)]) = Shared.after X fs log := by
    rw [Shared.after_snoc]
    rfl
  have hrun₂ := hrun₁.extend ((Function.update_self _ _ _).trans henter) (r := .ok ()) (by
    rw [hafter]
    exact (congrArg Prod.fst hdir).symm)
  rw [heq]
  refine ⟨_, hrun₂, Function.update_self _ _ _, ?_, ?_⟩
  · intro j hj
    rw [Function.update_of_ne hj, Function.update_of_ne hj]
  · rw [Shared.after_snoc, hafter, Shared.next, hdir]

end entering

/-- Before one request releases the lock another, for another name, gets as far as its staging directory;
it is handled to its end after that. -/
theorem Resting.overlap {disk disk₁ : Fs} {slot t : Option ActiveTransfer} {j : I} {active : ActiveTransfer}
    (h : Resting X cfg key reqs fs (log ++ [(j, ⟨.unlock t, ()⟩)]) qs disk slot)
    (hpos : position reqs log j = .holding active) (hi : ∀ x ∈ log, x.1 ≠ i) (hij : i ≠ j)
    {p : Path} {found : Bool} {k : Bool → ServerProg Response} {dir : String}
    {k' : Except IoError Unit → ServerProg Response}
    (hexists : handler X cfg key (reqs i) = .step (.fs (.pathExists p)) k)
    (hfound : (X.handle (.pathExists p) disk).1 = found)
    (henter : k found = .step (.fs (.createDirAll dir)) k')
    (hdir : X.handle (.createDirAll dir) disk = (.ok (), disk₁)) (hne : active.dir ≠ dir)
    {answer : Option Bool} {app' : App} {r : Response}
    (heval : (k' (.ok ())).eval (App.handle X answer) ⟨slot, disk₁, 0, false, []⟩ = (.ok r, app')) :
    ∃ later qs', Handling X cfg key reqs fs
        (log ++ entering i p found dir ++ (j, ⟨.unlock t, ()⟩) :: later) qs' ∧
      Serialized reqs (log ++ entering i p found dir ++ (j, ⟨.unlock t, ()⟩) :: later) ∧
      Shared.after X fs (log ++ entering i p found dir ++ (j, ⟨.unlock t, ()⟩) :: later)
        = ⟨app'.disk, app'.transfer, none⟩ ∧
      ∃ qs₁, Handling X cfg key reqs fs (log ++ entering i p found dir ++ [(j, ⟨.unlock t, ()⟩)]) qs₁ ∧
        qs₁ j = qs j := by
  obtain ⟨qs₀, hrun₀, -, k₀, hk₀, hres₀⟩ := h.run.snoc
  have hend := h.after
  rw [Shared.after_snoc] at hend
  have hdisk₀ : (Shared.after X fs log).disk = disk := congrArg Shared.disk hend
  have hslot₀ : t = slot := congrArg Shared.slot hend
  have hprog : qs₀ i = handler X cfg key (reqs i) := by
    have hf := hrun₀.follows i
    rw [own_eq_nil hi] at hf
    exact hf.of_nil.symm
  have hothers : ∀ j', j' ≠ j → (position reqs log j').dir = none := by
    intro j' hj'
    have hout := h.outside j'
    rwa [position_snoc_of_ne (Ne.symm hj')] at hout
  have hfree : ∀ j', (position reqs log j').dir ≠ some dir := by
    intro j' hj'
    by_cases hjj : j' = j
    · subst hjj
      rw [hpos] at hj'
      exact hne (Option.some.inj hj')
    · rw [hothers j' hjj] at hj'
      cases hj'
  -- the other request enters, and then the lock is released
  subst hdisk₀
  obtain ⟨qs₁, hrun₁, hi₁, hothers₁, hafter₁⟩ :=
    handling_entering hrun₀ (hprog.trans hexists) hfound henter hdir
  have hrun₂ := hrun₁.extend ((hothers₁ j (Ne.symm hij)).trans hk₀) (r := ()) trivial
  have hafter₂ : Shared.after X fs (log ++ entering i p found dir ++ [(j, ⟨.unlock t, ()⟩)])
      = ⟨disk₁, slot, none⟩ := by
    rw [Shared.after_snoc, hafter₁, hslot₀]
    rfl
  -- and the other request is handled to its end
  have hdisc : Disciplined false (k' (.ok ())) := by
    have hd := disciplined_handler X cfg key (reqs i)
    rw [hexists] at hd
    have hd' := hd found
    rw [henter] at hd'
    exact hd' (.ok ())
  obtain ⟨later, qs', hal, -⟩ := exists_alone answer ⟨slot, disk₁, 0, false, []⟩ hdisc hrun₂
    (by rw [Function.update_of_ne hij, hi₁]) hafter₂
  rw [heval] at hal
  have heq : log ++ entering i p found dir ++ (j, ⟨.unlock t, ()⟩) :: later
      = log ++ entering i p found dir ++ [(j, ⟨.unlock t, ()⟩)] ++ later := List.append_cons ..
  have hser : Serialized reqs (log ++ entering i p found dir ++ [(j, ⟨.unlock t, ()⟩)] ++ later) :=
    (h.serialized.of_append.enter_unlock hi hfree hothers).alone
      (fun _ hj' => outside_entering hothers hj') hal.mine
  exact ⟨later, qs', heq ▸ hal.run, heq ▸ hser, heq ▸ hal.after, _, hrun₂,
    (Function.update_self _ _ _).trans hres₀⟩

end alone

end Server
end B2p
