import B2p.Tunnel.Handlers
import B2p.Lib.Text

/-!
# What a commit of a file means, with other requests being handled

As long as no two requests are in one staging directory at a time, every handler can rely on the
others, and a commit that is answered `ok: true` has put exactly the bytes in place it has hashed.

* `Inv` — the invariant of the whole server; `Inv.step`, `Inv.run` — it is kept.
* `commit_kept` — the promise of a commit.
-/

namespace B2p

open Interaction Prog

namespace Server

open Fs

/-! ## The whole server -/

/-- It works on the active transfer. -/
def Position.held : Position → Bool
  | .holding _ => true
  | _ => false

section server

variable {I : Type} [DecidableEq I] {X : Externals} {want : Manifest → Nat → Bytes → Prop} {cfg : ServerCfg}
  {key : Key} {reqs : I → Request} {asked : I → Option ActiveTransfer → Prop} {fs₀ : Fs}
  {log : List (I × ServerAction)} {qs qs' : I → ServerProg Response}

variable (X want key reqs asked) in
/-- The handler of `i`, in position `pos`, still being `p`. -/
def At (i : I) (pos : Position) (p : ServerProg Response) (fs : Fs) : Prop :=
  match pos with
  | .before => Ready X want key (reqs i) (asked i) p
  | pos => Inside X want key (reqs i) pos p fs

variable (X want key reqs asked fs₀) in
/-- What holds after every operation of any handler. -/
structure Inv (log : List (I × ServerAction)) (qs : I → ServerProg Response) : Prop where
  wf : (Shared.after X fs₀ log).disk.Wf
  handlers : ∀ i, At X want key reqs asked i (position reqs log i) (qs i) (Shared.after X fs₀ log).disk
  disciplined : ∀ i, Disciplined (position reqs log i).isLocked (qs i)
  lock : ∀ i, (position reqs log i).isLocked = true → (Shared.after X fs₀ log).holder = some i
  peek : ∀ i slot, position reqs log i = .peeking slot → (Shared.after X fs₀ log).slot = slot
  slot : ∀ active, (Shared.after X fs₀ log).slot = some active →
    (∃ i, (position reqs log i).dir = some active.dir) ∨
      Lodged X want active (Shared.after X fs₀ log).disk
  backed : ∀ dir, (∃ i, (position reqs log i).dir = some dir) ∨
    Backed X want dir (Shared.after X fs₀ log).disk

omit [DecidableEq I] in
/-- A handler does not mind what it relies on. -/
theorem At.stable {i : I} {pos : Position} {p : ServerProg Response} {fs fs' : Fs}
    (h : At X want key reqs asked i pos p fs) (hd : Disciplined pos.isLocked p)
    (hcalm : ∀ dir, pos.dir = some dir → Calm pos.held dir fs fs') :
    At X want key reqs asked i pos p fs' := by
  cases pos with
  | before => exact h
  | opening dir => exact Among.stable h (hcalm dir rfl) fun _ _ _ => trivial
  | installing dir => exact Among.stable h (hcalm dir rfl) fun _ _ _ => trivial
  | holding active =>
      refine Among.stable h (hcalm _ rfl) ?_
      -- it still has the lock, so it has not ended
      rintro r rfl
      cases r with
      | ok a => cases hd
      | error e => cases hd
  | peeking slot => exact h
  | left => exact h

omit [DecidableEq I] in
/-- What a handler does to the disk in position `pos`. -/
theorem At.within {i : I} {pos : Position} {o : FsOp} {k : o.Res → ServerProg Response} {fs : Fs} (hwf : fs.Wf)
    (hdir : ∀ dir, o ≠ .createDirAll dir) (hat : At X want key reqs asked i pos (.step (.fs o) k) fs)
    (hapart : ∀ p, o = .unpackTar p → StagingKept fs (X.handle o fs).2) :
    At X want key reqs asked i pos (k (X.handle o fs).1) (X.handle o fs).2 ∧
    ((∃ p, o = .pathExists p) ∨ ∃ dir, pos.dir = some dir ∧ Within pos.held dir fs o) := by
  cases pos with
  -- outside any directory a handler may only look
  | before =>
      cases o with
      | createDirAll dir => exact absurd rfl (hdir dir)
      | pathExists p => exact ⟨hat _, .inl ⟨p, rfl⟩⟩
      | _ => exact False.elim hat
  -- inside one, the terms allow the operation
  | opening dir =>
      have hstep := hat fs (Calm.refl hwf)
      exact ⟨hstep.2 _ _ ⟨rfl, hapart⟩, .inr ⟨dir, rfl, hstep.1⟩⟩
  | installing dir =>
      have hstep := hat fs (Calm.refl hwf)
      exact ⟨hstep.2 _ _ ⟨rfl, hapart⟩, .inr ⟨dir, rfl, hstep.1⟩⟩
  | holding active =>
      have hstep := hat fs (Calm.refl hwf)
      exact ⟨hstep.2 _ _ ⟨rfl, hapart⟩, .inr ⟨active.dir, rfl, hstep.1⟩⟩
  -- it has only the lock to give back
  | peeking slot =>
      obtain ⟨a, ha⟩ := hat
      cases ha
  | left =>
      obtain ⟨a, ha⟩ := hat
      cases ha

/-- The handlers after one of them has performed an operation. -/
theorem At.update {i : I} {p : ServerProg Response} {x : I × ServerAction} (hx : x.1 = i) {fs' : Fs}
    (hself : At X want key reqs asked i (position reqs (log ++ [x]) i) p fs')
    (hothers : ∀ j, j ≠ i → At X want key reqs asked j (position reqs log j) (qs j) fs') (j : I) :
    At X want key reqs asked j (position reqs (log ++ [x]) j) (Function.update qs i p j) fs' := by
  by_cases hj : j = i
  · subst hj
    rw [Function.update_self]
    exact hself
  · obtain ⟨i', a⟩ := x
    obtain rfl : i' = i := hx
    rw [Function.update_of_ne hj, position_snoc_of_ne (Ne.symm hj)]
    exact hothers j hj

theorem disciplined_update {i : I} {p : ServerProg Response} {x : I × ServerAction} (hx : x.1 = i)
    (hself : Disciplined (position reqs (log ++ [x]) i).isLocked p)
    (hothers : ∀ j, Disciplined (position reqs log j).isLocked (qs j)) (j : I) :
    Disciplined (position reqs (log ++ [x]) j).isLocked (Function.update qs i p j) := by
  by_cases hj : j = i
  · subst hj
    rw [Function.update_self]
    exact hself
  · obtain ⟨i', a⟩ := x
    obtain rfl : i' = i := hx
    rw [Function.update_of_ne hj, position_snoc_of_ne (Ne.symm hj)]
    exact hothers j

/-- A handler stays where it is, unless it enters, or takes or releases the lock. -/
theorem Position.next_of_stay {e : Endpoint} {pos : Position} {o : ServerOp} {r : o.Res}
    (hdir : ∀ dir, o ≠ .fs (.createDirAll dir)) (hlock : o ≠ .lock) (hunlock : ∀ t, o ≠ .unlock t) :
    pos.next e ⟨o, r⟩ = pos := by
  cases o with
  | fs o =>
      cases o with
      | createDirAll dir => exact absurd rfl (hdir dir)
      | _ => cases pos <;> rfl
  | lock => exact absurd rfl hlock
  | unlock t => exact absurd rfl (hunlock t)
  | _ => cases pos <;> rfl

section step

variable (h : Inv X want key reqs asked fs₀ log qs) {i : I}

include h

/-- Two handlers do not have the lock at once. -/
theorem Inv.exclusive {i j : I} (hi : (position reqs log i).isLocked = true)
    (hj : (position reqs log j).isLocked = true) : i = j :=
  Option.some.inj ((h.lock i hi).symm.trans (h.lock j hj))

/-- A handler that stays where it is changes the disk at most, and only in its own directory. -/
theorem Inv.stay {a : ServerAction} {p : ServerProg Response} (fs' : Fs) (hser : Serialized reqs log)
    (hpos : (position reqs log i).next (reqs i).endpoint a = position reqs log i)
    (hnext : (Shared.after X fs₀ log).next X (i, a) = { Shared.after X fs₀ log with disk := fs' })
    (hwf : fs'.Wf) (hself : At X want key reqs asked i (position reqs log i) p fs')
    (hdisc : Disciplined (position reqs log i).isLocked p)
    (hview : ∀ dir, (position reqs log i).dir ≠ some dir → View dir (Shared.after X fs₀ log).disk fs')
    (houts : ∀ j, j ≠ i → (position reqs log j).held = true →
      ∀ name, fs'.content (.out name) = (Shared.after X fs₀ log).disk.content (.out name)) :
    Inv X want key reqs asked fs₀ (log ++ [(i, a)]) (Function.update qs i p) := by
  -- nobody's position changes
  have hpos : ∀ j, position reqs (log ++ [(i, a)]) j = position reqs log j := by
    intro j
    by_cases hj : j = i
    · subst hj
      rw [position_snoc_self, hpos]
    · exact position_snoc_of_ne (Ne.symm hj) _ _
  have hsame : Shared.after X fs₀ (log ++ [(i, a)]) = { Shared.after X fs₀ log with disk := fs' } := by
    rw [Shared.after_snoc, hnext]
  refine ⟨?_, At.update rfl ?_ ?_, disciplined_update rfl ?_ h.disciplined, ?_, ?_, ?_, ?_⟩
  · rw [hsame]
    exact hwf
  · rw [hpos, hsame]
    exact hself
  · intro j hj
    rw [hsame]
    -- the others do not notice: the directory is not theirs
    refine (h.handlers j).stable (h.disciplined j) ?_
    intro dir hdir
    refine ⟨hview dir ?_, houts j hj⟩
    intro hi
    exact hj (hser log List.prefix_rfl j i dir hdir hi)
  · rw [hpos]
    exact hdisc
  · intro j hj
    rw [hpos] at hj
    rw [hsame]
    exact h.lock j hj
  · intro j slot hj
    rw [hpos] at hj
    rw [hsame]
    exact h.peek j slot hj
  · intro active hactive
    simp only [hpos, hsame] at hactive ⊢
    -- a transfer is held by a handler, or lies as its store left it
    rcases h.slot active hactive with hin | hl
    · exact .inl hin
    · by_cases hi : (position reqs log i).dir = some active.dir
      · exact .inl ⟨i, hi⟩
      · exact .inr (hl.view (hview _ hi))
  · intro dir
    simp only [hpos, hsame]
    rcases h.backed dir with hin | hb
    · exact .inl hin
    · by_cases hi : (position reqs log i).dir = some dir
      · exact .inl ⟨i, hi⟩
      · exact .inr (hb.view (hview _ hi))

/-- An operation on neither the disk nor the lock. -/
theorem Inv.quiet {o : ServerOp} {k : o.Res → ServerProg Response} {r : o.Res}
    (hser : Serialized reqs log) (hi : qs i = .step o k) (ho : o.Quiet) (hlock : o ≠ .lock) :
    Inv X want key reqs asked fs₀ (log ++ [(i, ⟨o, r⟩)]) (Function.update qs i (k r)) := by
  have hat := h.handlers i
  have hdisc := h.disciplined i
  rw [hi] at hat hdisc
  -- a position is changed by the lock and by a directory alone
  refine h.stay (Shared.after X fs₀ log).disk hser ?_ ?_ h.wf ?_ ?_ (fun _ _ => .refl h.wf)
    (fun _ _ _ _ => rfl)
  · apply Position.next_of_stay _ hlock
    · rintro t rfl
      exact ho
    · rintro dir rfl
      exact ho
  · cases o with
    | fs o => exact ho.elim
    | unlock t => exact ho.elim
    | lock => exact absurd rfl hlock
    | _ => rfl
  · -- once inside, the operation is one of those the terms allow, and leaves the disk alone
    have hamong : ∀ {held : Bool} {dir : String} {Q : Except Anyhow Response → Fs → Prop},
        Among (terms X want held dir) Q (.step o k) (Shared.after X fs₀ log).disk →
        Among (terms X want held dir) Q (k r) (Shared.after X fs₀ log).disk := by
      intro held dir Q hstep
      refine (hstep _ (Calm.refl h.wf)).2 r _ ?_
      cases o with
      | fs o => exact ho.elim
      | unlock t => exact ho.elim
      | _ => rfl
    cases hp : position reqs log i with
    | before =>
        rw [hp] at hat
        cases o with
        | fs o => exact ho.elim
        | unlock t => exact ho.elim
        | lock => exact absurd rfl hlock
        | accept summary => exact hat r
        | event e => exact hat
        | shutdown => exact hat
    | opening dir =>
        rw [hp] at hat
        exact hamong hat
    | installing dir =>
        rw [hp] at hat
        exact hamong hat
    | holding active =>
        rw [hp] at hat
        exact hamong hat
    | peeking slot =>
        rw [hp] at hat
        obtain ⟨a, ha⟩ := hat
        cases ha
        exact ho.elim
    | left =>
        rw [hp] at hat
        obtain ⟨a, ha⟩ := hat
        cases ha
  · cases o with
    | fs o => exact ho.elim
    | unlock t => exact ho.elim
    | lock => exact absurd rfl hlock
    | accept summary => exact hdisc r
    | event e => exact hdisc
    | shutdown => exact hdisc

/-- A call of a handler that has entered, or that only looks. -/
theorem Inv.disk {o : FsOp} {k : o.Res → ServerProg Response} (hser : Serialized reqs log)
    (hi : qs i = .step (.fs o) k) (hdir : ∀ dir, o ≠ .createDirAll dir)
    (hapart : ∀ p, o = .unpackTar p →
      StagingKept (Shared.after X fs₀ log).disk (X.handle o (Shared.after X fs₀ log).disk).2) :
    Inv X want key reqs asked fs₀
      (log ++ [(i, ⟨.fs o, (X.handle o (Shared.after X fs₀ log).disk).1⟩)])
      (Function.update qs i (k (X.handle o (Shared.after X fs₀ log).disk).1)) := by
  have hat := h.handlers i
  have hdisc := h.disciplined i
  rw [hi] at hat hdisc
  obtain ⟨hself, hin⟩ := hat.within h.wf hdir hapart
  have hstay : ∀ r, (position reqs log i).next (reqs i).endpoint ⟨.fs o, r⟩ = position reqs log i := by
    intro r
    refine Position.next_of_stay ?_ nofun nofun
    rintro dir ⟨⟩
    exact hdir dir rfl
  rcases hin with ⟨p, rfl⟩ | ⟨dir, hd, hwithin⟩
  · exact h.stay _ hser (hstay _) rfl h.wf hself (hdisc _) (fun _ _ => .refl h.wf) fun _ _ _ _ => rfl
  · have hview : ∀ dir', (position reqs log i).dir ≠ some dir' →
        View dir' (Shared.after X fs₀ log).disk (X.handle o (Shared.after X fs₀ log).disk).2 := by
      intro dir' hne
      refine hwithin.view h.wf ?_ X.unpackTar hapart
      rintro rfl
      exact hne hd
    -- some directory is not this one, and sees that the disk is still well-formed
    have hother : (position reqs log i).dir ≠ some (dir ++ "x") := by
      rw [hd, Ne, Option.some.injEq]
      intro heq
      have hlen := congrArg String.length heq
      simp at hlen
    refine h.stay _ hser (hstay _) rfl (hview _ hother).wf hself (hdisc _) hview ?_
    -- while another handler holds the lock, this one does not
    intro j hj hheld name
    have hfree : (position reqs log i).held = false := by
      by_contra hheld'
      refine hj (h.exclusive ?_ ?_)
      · cases hp : position reqs log j <;> simp_all [Position.held, Position.isLocked]
      · cases hp : position reqs log i <;> simp_all [Position.held, Position.isLocked]
    rw [hfree] at hwithin
    exact hwithin.outs h.wf X.unpackTar name

omit h in
/-- Making a directory changes nothing in the staging directories. -/
theorem view_setDir {fs : Fs} (hwf : fs.Wf) (dir dir' : String) : View dir' fs (fs.setDir dir true) := by
  refine ⟨hwf.setDir dir, ?_, fun _ => rfl, fun _ => rfl⟩
  intro hd
  show Function.update fs.dirs dir true dir' = true
  by_cases heq : dir' = dir
  · rw [heq, Function.update_self]
  · rw [Function.update_of_ne heq, hd]

/-- Only a handler that is still outside makes a directory. -/
theorem Inv.position_of_createDirAll {dir : String} {k : Except IoError Unit → ServerProg Response}
    (hi : qs i = .step (.fs (.createDirAll dir)) k) : position reqs log i = .before := by
  have hat := h.handlers i
  rw [hi] at hat
  cases hp : position reqs log i with
  | before => rfl
  | opening d =>
      rw [hp] at hat
      -- the terms of a handler that is inside know no `create_dir_all`
      exact (hat _ (Calm.refl h.wf)).1.elim
  | installing d =>
      rw [hp] at hat
      exact (hat _ (Calm.refl h.wf)).1.elim
  | holding active =>
      rw [hp] at hat
      exact (hat _ (Calm.refl h.wf)).1.elim
  | peeking slot =>
      rw [hp] at hat
      obtain ⟨a, ha⟩ := hat
      cases ha
  | left =>
      rw [hp] at hat
      obtain ⟨a, ha⟩ := hat
      cases ha

/-- Where there is a file in the directory's place, it stays outside. -/
theorem Inv.shutOut {dir : String} {k : Except IoError Unit → ServerProg Response} {e : IoError}
    (hi : qs i = .step (.fs (.createDirAll dir)) k) (hser : Serialized reqs log)
    (hfile : X.handle (.createDirAll dir) (Shared.after X fs₀ log).disk
      = (.error e, (Shared.after X fs₀ log).disk)) :
    Inv X want key reqs asked fs₀ (log ++ [(i, ⟨.fs (.createDirAll dir), .error e⟩)])
      (Function.update qs i (k (.error e))) := by
  have hat := h.handlers i
  have hdisc := h.disciplined i
  have hp := h.position_of_createDirAll hi
  rw [hi] at hdisc
  rw [hi, hp] at hat
  refine h.stay (Shared.after X fs₀ log).disk hser ?_ ?_ h.wf ?_ (hdisc _) (fun _ _ => .refl h.wf)
    (fun _ _ _ _ => rfl)
  · rw [hp]
    rfl
  · show Shared.mk (X.handle (.createDirAll dir) (Shared.after X fs₀ log).disk).2 _ _ = _
    rw [hfile]
  · rw [hp]
    exact hat.2 e

/-- A handler enters a staging directory: nobody else is there. -/
theorem Inv.enter {dir : String} {k : Except IoError Unit → ServerProg Response}
    (hi : qs i = .step (.fs (.createDirAll dir)) k) (hmakes : (Shared.after X fs₀ log).disk.Makes dir)
    (hser : Serialized reqs (log ++ [(i, ⟨.fs (.createDirAll dir), .ok ()⟩)])) :
    Inv X want key reqs asked fs₀ (log ++ [(i, ⟨.fs (.createDirAll dir), .ok ()⟩)])
      (Function.update qs i (k (.ok ()))) := by
  have hat := h.handlers i
  have hdisc := h.disciplined i
  rw [hi] at hat hdisc
  have hp := h.position_of_createDirAll hi
  have hpos : position reqs (log ++ [(i, ⟨.fs (.createDirAll dir), .ok ()⟩)]) i = .opening dir := by
    rw [position_snoc_self, hp]
    rfl
  have hother : ∀ j, j ≠ i →
      position reqs (log ++ [(i, ⟨.fs (.createDirAll dir), .ok ()⟩)]) j = position reqs log j :=
    fun j hj => position_snoc_of_ne (Ne.symm hj) _ _
  -- whoever is in a directory is another handler
  have hne : ∀ j d, (position reqs log j).dir = some d → j ≠ i := by
    rintro j d hd rfl
    rw [hp] at hd
    cases hd
  have hsame : Shared.after X fs₀ (log ++ [(i, ⟨.fs (.createDirAll dir), .ok ()⟩)])
      = { Shared.after X fs₀ log with disk := (Shared.after X fs₀ log).disk.setDir dir true } := by
    rw [Shared.after_snoc, Shared.next, Store.handle_createDirAll X hmakes]
  have hview := fun dir' => view_setDir h.wf dir dir'
  rw [hp] at hat hdisc
  refine ⟨?_, At.update rfl ?_ ?_, disciplined_update rfl ?_ h.disciplined, ?_, ?_, ?_, ?_⟩
  · rw [hsame]
    exact h.wf.setDir dir
  · rw [hpos, hsame]
    -- nobody is in this one: requests for one name do not overlap
    refine hat.1 _ ((h.backed dir).resolve_left ?_)
    rintro ⟨j, hj⟩
    refine hne j dir hj (hser _ List.prefix_rfl j i dir ?_ ?_)
    · rw [hother j (hne j dir hj)]
      exact hj
    · rw [hpos]
      rfl
  · intro j hj
    rw [hsame]
    exact (h.handlers j).stable (h.disciplined j) fun dir' _ => ⟨hview dir', fun _ _ => rfl⟩
  · rw [hpos]
    exact hdisc _
  · intro j hj
    rw [hsame]
    by_cases hji : j = i
    · subst hji
      rw [hpos] at hj
      cases hj
    · rw [hother j hji] at hj
      exact h.lock j hj
  · intro j slot hj
    rw [hsame]
    by_cases hji : j = i
    · subst hji
      rw [hpos] at hj
      cases hj
    · rw [hother j hji] at hj
      exact h.peek j slot hj
  · intro active hactive
    rw [hsame] at hactive ⊢
    rcases h.slot active hactive with ⟨j, hj⟩ | hl
    · exact .inl ⟨j, by rw [hother j (hne j _ hj)]; exact hj⟩
    · exact .inr (hl.view (hview _))
  · intro dir'
    rw [hsame]
    rcases h.backed dir' with ⟨j, hj⟩ | hb
    · exact .inl ⟨j, by rw [hother j (hne j _ hj)]; exact hj⟩
    · exact .inr (hb.view (hview _))

/-- A handler that asks for the lock when nobody has it has not had it yet. -/
theorem Inv.position_of_lock {k : Option ActiveTransfer → ServerProg Response} (hi : qs i = .step .lock k)
    (hfree : (position reqs log i).isLocked = false) :
    position reqs log i = .before ∨ ∃ dir, position reqs log i = .opening dir := by
  have hat := h.handlers i
  rw [hi] at hat
  cases hp : position reqs log i with
  | before => exact .inl rfl
  | opening dir => exact .inr ⟨dir, rfl⟩
  | left =>
      rw [hp] at hat
      obtain ⟨a, ha⟩ := hat
      cases ha
  | _ =>
      rw [hp] at hfree
      cases hfree

/-- A handler gets the lock, and with it what is in the slot. -/
theorem Inv.take {k : Option ActiveTransfer → ServerProg Response} (hi : qs i = .step .lock k)
    (hnone : (Shared.after X fs₀ log).holder = none) (hasked : asked i (Shared.after X fs₀ log).slot)
    (hser : Serialized reqs (log ++ [(i, ⟨.lock, (Shared.after X fs₀ log).slot⟩)])) :
    Inv X want key reqs asked fs₀ (log ++ [(i, ⟨.lock, (Shared.after X fs₀ log).slot⟩)])
      (Function.update qs i (k (Shared.after X fs₀ log).slot)) := by
  have hat := h.handlers i
  have hdisc := h.disciplined i
  rw [hi] at hat hdisc
  have hfree : ∀ j, (position reqs log j).isLocked = false := by
    intro j
    by_contra hj
    have hj := h.lock j (by simpa using hj)
    rw [hnone] at hj
    cases hj
  have houtside := h.position_of_lock hi (hfree i)
  have hother : ∀ j, j ≠ i → position reqs (log ++ [(i, ⟨.lock, (Shared.after X fs₀ log).slot⟩)]) j
      = position reqs log j := fun j hj => position_snoc_of_ne (Ne.symm hj) _ _
  have hpos := position_snoc_self reqs log i ⟨.lock, (Shared.after X fs₀ log).slot⟩
  have hsame : Shared.after X fs₀ (log ++ [(i, ⟨.lock, (Shared.after X fs₀ log).slot⟩)])
      = { Shared.after X fs₀ log with holder := some i } := by
    rw [Shared.after_snoc]
    rfl
  -- whoever was in a directory still is
  have hstill : ∀ dir, (∃ j, (position reqs log j).dir = some dir) →
      ∃ j, (position reqs (log ++ [(i, ⟨.lock, (Shared.after X fs₀ log).slot⟩)]) j).dir = some dir := by
    rintro dir ⟨j, hj⟩
    refine ⟨j, ?_⟩
    -- nobody else has it
    by_cases hji : j = i
    · subst hji
      rw [hpos]
      cases hp : position reqs log j with
      | before =>
          rw [hp] at hj
          cases hj
      | _ =>
          rw [hp] at hj
          exact hj
    · rw [hother j hji]
      exact hj
  -- the disk, the handlers, the lock, and whose the slot and the directories are
  refine ⟨?_, At.update rfl ?_ ?_, disciplined_update rfl ?_ h.disciplined, ?_, ?_, ?_, ?_⟩
  · rw [hsame]
    exact h.wf
  · rw [hsame]
    -- from outside, a chunk or a commit; from its directory, an offer that is about to fill the slot
    rcases houtside with hp | ⟨dir, hp⟩
    · rw [hp] at hat hpos
      have hlodged : ∀ active, Position.locked (reqs i).endpoint (Shared.after X fs₀ log).slot
          = .holding active → Lodged X want active (Shared.after X fs₀ log).disk := by
        intro active hactive
        have hslot : (Shared.after X fs₀ log).slot = some active := by
          unfold Position.locked at hactive
          split at hactive <;> cases hactive
          assumption
        -- the transfer in the slot is nobody's: it would overlap with this request
        refine (h.slot active hslot).resolve_left ?_
        rintro ⟨j, hj⟩
        have hji : j ≠ i := by
          rintro rfl
          rw [hp] at hj
          cases hj
        have hto : position reqs (log ++ [(i, ⟨.lock, (Shared.after X fs₀ log).slot⟩)]) i
            = .holding active := hpos.trans hactive
        refine hji (hser _ List.prefix_rfl j i active.dir ?_ ?_)
        · rw [hother j hji]
          exact hj
        · rw [hto]
          rfl
      have hin := hat _ hasked _ hlodged
      rw [hpos]
      show At X want key reqs asked i (.locked _ _) _ _
      unfold At
      split
      · next heq =>
          rw [heq] at hin
          exact hin.elim
      · exact hin
    · rw [hp] at hat hpos
      rw [hpos]
      -- the handler of an offer is as far as it was
      exact (hat _ (Calm.refl h.wf)).2 _ _ rfl
  · intro j hj
    rw [hsame]
    exact h.handlers j
  · have hlocked : (position reqs (log ++ [(i, ⟨.lock, (Shared.after X fs₀ log).slot⟩)]) i).isLocked
        = true := by
      rw [hpos]
      rcases houtside with hp | ⟨dir, hp⟩
      · rw [hp]
        show (Position.locked _ _).isLocked = true
        unfold Position.locked
        split <;> rfl
      · rw [hp]
        rfl
    rw [hlocked]
    exact hdisc.2 _
  · intro j hj
    rw [hsame]
    by_cases hji : j = i
    · rw [hji]
    · rw [hother j hji, hfree j] at hj
      cases hj
  · intro j slot hj
    rw [hsame]
    by_cases hji : j = i
    · subst hji
      rw [hpos] at hj
      rcases houtside with hp | ⟨dir, hp⟩
      · rw [hp] at hj
        have hj : Position.locked _ _ = .peeking slot := hj
        unfold Position.locked at hj
        split at hj <;> cases hj
        · rfl
        · assumption
      · rw [hp] at hj
        cases hj
    · rw [hother j hji] at hj
      have hf := hfree j
      rw [hj] at hf
      cases hf
  · intro active hactive
    rw [hsame] at hactive ⊢
    exact (h.slot active hactive).imp_left (hstill _)
  · intro dir
    rw [hsame]
    exact (h.backed dir).imp_left (hstill _)

/-- A handler releases the lock. -/
theorem Inv.release {t : Option ActiveTransfer} {k : Unit → ServerProg Response}
    (hi : qs i = .step (.unlock t) k) :
    Inv X want key reqs asked fs₀ (log ++ [(i, ⟨.unlock t, ()⟩)]) (Function.update qs i (k ())) := by
  have hat := h.handlers i
  have hdisc := h.disciplined i
  rw [hi] at hat hdisc
  obtain ⟨hlocked, a, ha⟩ := hdisc
  have hother : ∀ j, j ≠ i → position reqs (log ++ [(i, ⟨.unlock t, ()⟩)]) j = position reqs log j :=
    fun j hj => position_snoc_of_ne (Ne.symm hj) _ _
  have hpos : position reqs (log ++ [(i, ⟨.unlock t, ()⟩)]) i = .left := by
    rw [position_snoc_self]
    cases position reqs log i <;> rfl
  have hfree : ∀ j, j ≠ i → (position reqs log j).isLocked = false := by
    intro j hj
    by_contra hl
    exact hj (h.exclusive (by simpa using hl) hlocked)
  have hsame : Shared.after X fs₀ (log ++ [(i, ⟨.unlock t, ()⟩)])
      = { Shared.after X fs₀ log with slot := t, holder := none } := by
    rw [Shared.after_snoc]
    rfl
  -- what it leaves in the slot and in its directory
  have hleft : (∀ active, t = some active → (∃ j, j ≠ i ∧ (position reqs log j).dir = some active.dir) ∨
        Lodged X want active (Shared.after X fs₀ log).disk) ∧
      ∀ dir, (position reqs log i).dir = some dir → Backed X want dir (Shared.after X fs₀ log).disk := by
    cases hp : position reqs log i with
    | before =>
        rw [hp] at hlocked
        cases hlocked
    | opening dir =>
        rw [hp] at hlocked
        cases hlocked
    | left =>
        rw [hp] at hlocked
        cases hlocked
    -- an offer leaves the transfer it has opened
    | installing dir =>
        rw [hp] at hat
        obtain ⟨hslot, hback⟩ := (hat _ (Calm.refl h.wf)).1
        refine ⟨fun active hactive => .inr (hslot active hactive), ?_⟩
        rintro _ ⟨⟩
        exact hback
    -- a chunk or a commit leaves the transfer as the terms say
    | holding active =>
        rw [hp] at hat
        obtain ⟨hslot, hback⟩ := (hat _ (Calm.refl h.wf)).1
        refine ⟨fun active hactive => .inr (hslot active hactive), ?_⟩
        rintro _ ⟨⟩
        exact hback
    -- and a request without a transfer leaves what it found
    | peeking slot =>
        rw [hp] at hat
        obtain ⟨b, hb⟩ := hat
        cases hb
        refine ⟨?_, nofun⟩
        intro active hactive
        rcases h.slot active ((h.peek i t hp).trans hactive) with ⟨j, hj⟩ | hl
        · refine .inl ⟨j, ?_, hj⟩
          rintro rfl
          rw [hp] at hj
          cases hj
        · exact .inr hl
  refine ⟨?_, At.update rfl ?_ ?_, disciplined_update rfl ?_ h.disciplined, ?_, ?_, ?_, ?_⟩
  · rw [hsame]
    exact h.wf
  · rw [hpos, hsame]
    exact ⟨a, ha⟩
  · intro j hj
    rw [hsame]
    exact h.handlers j
  · rw [hpos, ha]
    rfl
  · intro j hj
    by_cases hji : j = i
    · rw [hji, hpos] at hj
      cases hj
    · rw [hother j hji, hfree j hji] at hj
      cases hj
  · intro j slot hj
    by_cases hji : j = i
    · rw [hji, hpos] at hj
      cases hj
    · rw [hother j hji] at hj
      have hf := hfree j hji
      rw [hj] at hf
      cases hf
  · intro active hactive
    rw [hsame] at hactive ⊢
    rcases hleft.1 active hactive with ⟨j, hji, hj⟩ | hl
    · exact .inl ⟨j, by rw [hother j hji]; exact hj⟩
    · exact .inr hl
  · intro dir
    rw [hsame]
    -- its own directory is left in order
    rcases h.backed dir with ⟨j, hj⟩ | hb
    · by_cases hji : j = i
      · subst hji
        exact .inr (hleft.2 dir hj)
      · exact .inl ⟨j, by rw [hother j hji]; exact hj⟩
    · exact .inr hb

end step

variable (X fs₀) in
/-- Every archive that is unpacked leaves the staging directories alone. -/
def ArchivesApart (log : List (I × ServerAction)) : Prop :=
  ∀ before i p r later, log = before ++ (i, ⟨.fs (.unpackTar p), r⟩) :: later →
    StagingKept (Shared.after X fs₀ before).disk (X.handle (.unpackTar p) (Shared.after X fs₀ before).disk).2

omit [DecidableEq I] in
theorem ArchivesApart.of_append {later : List (I × ServerAction)}
    (h : ArchivesApart X fs₀ (log ++ later)) : ArchivesApart X fs₀ log := by
  rintro before i p r rest rfl
  exact h before i p r (rest ++ later) (by simp)

/-- **One operation of one handler keeps the invariant.** -/
theorem Inv.step (h : Inv X want key reqs asked fs₀ log qs) {i : I} {a : ServerAction}
    {k : a.op.Res → ServerProg Response} (hi : qs i = .step a.op k)
    (hallows : (Shared.after X fs₀ log).Allows X (i, a)) (hser : Serialized reqs (log ++ [(i, a)]))
    (hapart : ArchivesApart X fs₀ (log ++ [(i, a)]))
    (hasked : ∀ slot, a = ⟨.lock, slot⟩ → asked i slot) :
    Inv X want key reqs asked fs₀ (log ++ [(i, a)]) (Function.update qs i (k a.res)) := by
  obtain ⟨o, r⟩ := a
  cases o with
  | fs o =>
      have hr : r = (X.handle o (Shared.after X fs₀ log).disk).1 := hallows
      -- a handler enters its directory, or a file is in its way
      by_cases hdir : ∃ dir, o = .createDirAll dir
      · obtain ⟨dir, rfl⟩ := hdir
        by_cases hmakes : (Shared.after X fs₀ log).disk.Makes dir
        · rw [Store.handle_createDirAll X hmakes] at hr
          subst hr
          exact h.enter hi hmakes hser
        · have hfile := Store.handle_createDirAll_of_file X hmakes
          rw [hfile] at hr
          subst hr
          exact h.shutOut hi hser.of_append hfile
      · subst hr
        refine h.disk hser.of_append hi (fun dir ho => hdir ⟨dir, ho⟩) ?_
        rintro p rfl
        exact hapart log i p _ [] rfl
  | lock =>
      obtain ⟨hnone, rfl⟩ := hallows
      exact h.take hi hnone (hasked _ rfl) hser
  | unlock t => exact h.release hi
  | accept summary => exact h.quiet hser.of_append hi trivial nofun
  | event e => exact h.quiet hser.of_append hi trivial nofun
  | shutdown => exact h.quiet hser.of_append hi trivial nofun

/-- **… and so it holds throughout a run.** -/
theorem Inv.run (hw : Coherent want) (hwf : fs₀.Wf) (hback : ∀ dir, Backed X want dir fs₀)
    (hwant : ∀ i index active plaintext, (reqs i).endpoint = .chunk index → asked i (some active) →
      X.cipher.open_ key .data index (asBytes active.manifest.transferId) (reqs i).body = some plaintext →
      want active.manifest index plaintext)
    (hrun : Handling X cfg key reqs fs₀ log qs) (hser : Serialized reqs log)
    (hapart : ArchivesApart X fs₀ log) (hasked : ∀ i slot, (i, ⟨.lock, slot⟩) ∈ log → asked i slot) :
    Inv X want key reqs asked fs₀ log qs := by
  induction log using List.reverseRecOn generalizing qs with
  | nil =>
      have hqs : qs = fun i => handler X cfg key (reqs i) := funext fun i => (hrun.follows i).of_nil.symm
      subst hqs
      exact ⟨hwf, fun i => ready_handler hw (reqs i) fun index active plaintext =>
        hwant i index active plaintext,
        fun i => disciplined_handler X cfg key (reqs i), nofun, nofun, nofun, fun dir => .inr (hback dir)⟩
  | append_singleton log x ih =>
      obtain ⟨i, a⟩ := x
      obtain ⟨qs', hrun', hallows, k, hk, hres⟩ := hrun.snoc
      -- only the handler of this action has gone on
      have hqs : qs = Function.update qs' i (k a.res) := by
        funext j
        by_cases hj : j = i
        · subst hj
          rw [Function.update_self, hres]
        · rw [Function.update_of_ne hj]
          have hf := hrun.follows j
          rw [own_snoc_of_ne (Ne.symm hj)] at hf
          exact hf.functional (hrun'.follows j)
      rw [hqs]
      have hinv := ih hrun' hser.of_append hapart.of_append
        fun j slot hj => hasked j slot (List.mem_append_left _ hj)
      refine hinv.step hk hallows hser hapart ?_
      rintro slot rfl
      exact hasked i slot (by simp)

omit [DecidableEq I] in
variable (want) in
/-- What is allowed is what the terms of a handler say. -/
theorem world_of_allows (held : Bool) (dir : String) {w : Shared I} {i : I} {a : ServerAction}
    (h : w.Allows X (i, a)) (hapart : ∀ p, a.op = .fs (.unpackTar p) →
      StagingKept w.disk (w.next X (i, a)).disk) :
    (terms X want held dir).world a.op w.disk a.res (w.next X (i, a)).disk := by
  obtain ⟨o, r⟩ := a
  cases o with
  | fs o =>
      have hr : r = (X.handle o w.disk).1 := h
      refine ⟨by rw [hr]; rfl, ?_⟩
      rintro p rfl
      exact hapart p rfl
  | _ => rfl

/-- An action that does not replace the file `name` leaves it alone. -/
theorem Inv.keeps (h : Inv X want key reqs asked fs₀ log qs) {i : I} {a : ServerAction}
    {k : a.op.Res → ServerProg Response} (hi : qs i = .step a.op k)
    (hallows : (Shared.after X fs₀ log).Allows X (i, a)) {name : String} (hno : ¬ Replaces name a) :
    (Shared.after X fs₀ (log ++ [(i, a)])).disk.content (.out name)
      = (Shared.after X fs₀ log).disk.content (.out name) := by
  rw [Shared.after_snoc]
  obtain ⟨o, r⟩ := a
  cases o with
  | fs o =>
      show (X.handle o _).2.content _ = _
      by_cases hdir : ∃ dir, o = .createDirAll dir
      · obtain ⟨dir, rfl⟩ := hdir
        by_cases hmakes : (Shared.after X fs₀ log).disk.Makes dir
        · rw [Store.handle_createDirAll X hmakes]
          rfl
        · rw [Store.handle_createDirAll_of_file X hmakes]
      -- neither an archive nor a rename to this name
      have hun : ∀ p, o ≠ .unpackTar p := by
        rintro p rfl
        exact hno (.inr ⟨p, rfl⟩)
      have hat := h.handlers i
      rw [hi] at hat
      obtain ⟨-, ⟨p, rfl⟩ | ⟨dir, -, hwithin⟩⟩ := hat.within h.wf (fun dir ho => hdir ⟨dir, ho⟩)
        fun p hp => absurd hp (hun p)
      · rfl
      · refine (handle_keeps X.unpackTar h.wf (hwithin.spares_out h.wf hun ?_)).content
        rintro p rfl
        exact hno (.inl ⟨p, rfl⟩)
  | _ => rfl

omit [DecidableEq I] in
variable (X key reqs fs₀ log) in
theorem coherent_genuine : Coherent (Genuine X key reqs fs₀ log) := by
  intro m m' hdir htid hsize hcs
  funext index b
  unfold Genuine Found startState startData Store.stateOn Store.dataOn Store.stateOn blockOf
  rw [hdir, htid, hsize, hcs]

variable (X) in
/-- Every `state.json` lists chunks its transfer has; `write_chunk` records no other. -/
def Listed (fs : Fs) : Prop :=
  ∀ name st, Store.persisted X fs name = some st → ∀ index ∈ st.haves,
    index < divCeil st.totalSize st.chunkSize

omit [DecidableEq I] in
/-- What is staged when the server starts is where it was found. -/
theorem backed_found (hlisted : Listed X fs₀) (dir : String) :
    Backed X (Genuine X key reqs fs₀ log) dir fs₀ := by
  rintro m rfl hc
  have hgeo := Store.stateOn_geometry X (Stream.safeName m.name) fs₀ m.transferId m.totalSize m.chunkSize
  cases he : (startState X m fs₀).haves.isEmpty with
  | true => exact .of_isEmpty (by rw [hgeo.2.2]; exact hc) (by rw [length_setLen, hgeo.2.1]) he
  | false =>
      refine ⟨by rw [hgeo.2.2]; exact hc, by rw [length_setLen, hgeo.2.1], ?_⟩
      intro index hindex
      refine ⟨hlisted _ _ (Store.persisted_of_stateOn he) index hindex, .inr ⟨hindex, ?_⟩⟩
      rw [hgeo.2.2, blockOf]

section commit

variable (hwf : fs₀.Wf) (hlisted : Listed X fs₀)

include hwf hlisted

/-- The invariant, with every chunk where it comes from. -/
theorem inv_of_handling {whole : List (I × ServerAction)} (hpre : log <+: whole)
    (hrun : Handling X cfg key reqs fs₀ log qs) (hser : Serialized reqs log)
    (hapart : ArchivesApart X fs₀ log) :
    Inv X (Genuine X key reqs fs₀ whole) key reqs (fun i slot => (i, ⟨.lock, slot⟩) ∈ whole) fs₀ log qs := by
  refine Inv.run (coherent_genuine X key reqs fs₀ whole) hwf (backed_found hlisted) ?_ hrun hser hapart
    fun i slot hmem => hpre.subset hmem
  intro i index active plaintext hreq hmem hopen
  exact .inl ⟨i, active, hmem, rfl, hreq, hopen⟩

theorem content_kept {later : List (I × ServerAction)}
    (hrun : Handling X cfg key reqs fs₀ (log ++ later) qs) (hser : Serialized reqs (log ++ later))
    (hapart : ArchivesApart X fs₀ (log ++ later)) {name : String} (hno : ∀ x ∈ later, ¬ Replaces name x.2) :
    (Shared.after X fs₀ (log ++ later)).disk.content (.out name)
      = (Shared.after X fs₀ log).disk.content (.out name) := by
  induction later using List.reverseRecOn generalizing qs with
  | nil => rw [List.append_nil]
  | append_singleton later x ih =>
      obtain ⟨i, a⟩ := x
      rw [← List.append_assoc] at hrun hser hapart ⊢
      obtain ⟨qs', hrun', hallows, k, hk, -⟩ := hrun.snoc
      have hinv := inv_of_handling hwf hlisted List.prefix_rfl hrun' hser.of_append hapart.of_append
      rw [hinv.keeps hk hallows (hno (i, a) (by simp))]
      exact ih hrun' hser.of_append hapart.of_append fun x hx => hno x (List.mem_append_left _ hx)

/-- **A commit answered `ok: true` has put in place what it has hashed**, and it stays there until another
file is moved onto it: in every run in which no two requests are in one staging directory at a time. -/
theorem commit_kept (hrun : Handling X cfg key reqs fs₀ log qs) (hser : Serialized reqs log)
    (hapart : ArchivesApart X fs₀ log) : CommitKept X cfg key reqs fs₀ log := by
  rintro before i a later qs₁ active commit rfl hrun₁ hans
  have hsplit : before ++ (i, a) :: later = before ++ [(i, a)] ++ later := List.append_cons ..
  rw [hsplit] at hrun hser hapart ⊢
  refine ⟨?_, fun hno => content_kept hwf hlisted hrun hser hapart hno⟩
  obtain ⟨qs₀, hrun₀, hallows, k, hk, hres⟩ := hrun₁.snoc
  have hinv := inv_of_handling hwf hlisted (List.prefix_append before [(i, a)]) hrun₀
    hser.of_append.of_append hapart.of_append.of_append
  -- up to its last action the handler is under the terms of its directory
  have hat := hinv.handlers i
  rw [hans.holding, hk] at hat
  have hworld := world_of_allows (Genuine X key reqs fs₀ (before ++ [(i, a)])) true active.dir
    hallows (by
      obtain ⟨o, r⟩ := a
      rintro p ⟨⟩
      exact hapart.of_append before i p r [] rfl)
  -- and its return says that the file is placed
  have hend := (hat _ (Calm.refl hinv.wf)).2 _ _ hworld
  rw [hres, hans.ok] at hend
  rw [Shared.after_snoc]
  exact hend hans.endpoint commit hans.opens hans.kind rfl

end commit

/-! ## Two files of one name, one after the other -/

section sequence

variable (link : Tunnel.Link) {disk : Fs} {slot : Option ActiveTransfer} {j : I} {m : Manifest}
  (content : Bytes)

theorem Resting.offer (h : Resting X link.cfg link.key reqs fs₀ log qs disk slot) (hj : ∀ x ∈ log, x.1 ≠ j)
    (hreq : reqs j = ⟨.manifest, link.target.token,
      X.cipher.seal_ link.key .manifest 0 [] (X.manifestJson.toVec m)⟩)
    (hacc : link.Accepting) (hv : m.version = PROTOCOL_VERSION) (hkind : m.kind = .file) (hwf : disk.Wf)
    (hmakes : disk.Makes (stagingDir (Stream.safeName m.name)))
    (hb : Store.Holds (PartOf m content) (startData X m disk) (startState X m disk)) (hslot : slot = none) :
    ∃ log' qs' store disk', Resting X link.cfg link.key reqs fs₀ (log ++ log') qs' disk' (some ⟨m, store⟩) ∧
      Staged X m (PartOf m content) store disk' ∧ store.state = startState X m disk ∧
      SameOutside (stagingDir (Stream.safeName m.name)) disk disk' ∧ ∀ x ∈ log', x.1 = j := by
  obtain ⟨store, disk', hopen, hst, hstate, hsame⟩ := Staged.open hwf hmakes hb
  obtain ⟨app', heval, htr, hdisk⟩ := Tunnel.eval_manifest X ⟨slot, disk, 0, false, []⟩ hacc hv
    (hkind ▸ Kind.file_ne_text) hopen
  rw [← hreq] at heval
  obtain ⟨log', qs', hrest, hmine⟩ := h.request hj heval (by rw [htr, hslot]; intro heq; cases heq)
  rw [htr, hdisk] at hrest
  exact ⟨log', qs', store, disk', hrest, hst, hstate, hsame, hmine⟩

theorem Resting.chunk {store : Store} {i : Nat}
    (h : Resting X link.cfg link.key reqs fs₀ log qs disk (some ⟨m, store⟩)) (hj : ∀ x ∈ log, x.1 ≠ j)
    (hreq : reqs j = ⟨.chunk i, link.target.token,
      X.cipher.seal_ link.key .data i (asBytes m.transferId) (blockOf m content i)⟩)
    (hst : Staged X m (PartOf m content) store disk) (hsize : content.length = m.totalSize)
    (hi : i < m.totalChunks) (hnew : i ∉ store.state.haves) :
    ∃ log' qs' disk', Resting X link.cfg link.key reqs fs₀ (log ++ log') qs' disk'
        (some ⟨m, store.record i⟩) ∧
      Staged X m (PartOf m content) (store.record i) disk' ∧
      SameOutside (stagingDir (Stream.safeName m.name)) disk disk' ∧ ∀ x ∈ log', x.1 = j := by
  obtain ⟨disk', hwrite, hst', -, hsame⟩ := hst.writeChunk hi (length_blockOf hsize i) rfl
  obtain ⟨app', heval, htr, hdisk⟩ := Tunnel.eval_chunk X link
    ⟨some ⟨m, store⟩, disk, 0, false, []⟩ rfl hwrite
  -- the handler by itself, and then in the run
  rw [← hreq] at heval
  obtain ⟨log', qs', hrest, hmine⟩ := h.request hj heval (by
    rw [htr]
    intro heq
    refine hnew ?_
    have hrec : store.record i = store := congrArg (fun t : Option ActiveTransfer => t.elim store (·.store)) heq
    rw [← hrec]
    exact SortedSet.mem_insert.mpr (.inl rfl))
  rw [htr, hdisk] at hrest
  exact ⟨log', qs', disk', hrest, hst', hsame, hmine⟩

/-- A complete file is committed, and the commit is answered `ok: true`. -/
theorem Resting.deliver {store : Store}
    (h : Resting X link.cfg link.key reqs fs₀ log qs disk (some ⟨m, store⟩)) (hj : ∀ x ∈ log, x.1 ≠ j)
    (hreq : reqs j = ⟨.commit, link.target.token, X.cipher.seal_ link.key .commit 0
      (asBytes m.transferId) (X.commitJson.toVec ⟨X.blake3 content⟩)⟩)
    (hst : Staged X m (PartOf m content) store disk) (hsize : content.length = m.totalSize)
    (hkind : m.kind = .file) (hdest : disk.dirs (Stream.safeName m.name) = false)
    (hall : ∀ i < m.totalChunks, i ∈ store.state.haves) :
    ∃ pre t qs' disk', Resting X link.cfg link.key reqs fs₀ (log ++ pre ++ [(j, ⟨.unlock t, ()⟩)]) qs' disk'
        none ∧
      Answered X link.key reqs (log ++ pre) j qs' ⟨m, store⟩ ⟨X.blake3 content⟩ ∧
      disk'.Wf ∧ (∀ f, disk'.content (.staged (stagingDir (Stream.safeName m.name)) f) = none) ∧
      disk'.content (.out (Stream.safeName m.name)) = some content ∧
      (∀ n, n ≠ Stream.safeName m.name → disk'.content (.out n) = disk.content (.out n)) ∧
      (∀ d, d ≠ stagingDir (Stream.safeName m.name) → disk'.dirs d = disk.dirs d) ∧ ∀ x ∈ pre, x.1 = j := by
  obtain ⟨desc, disk', hfin, hgone, hout, houts, hdirs⟩ :=
    Tunnel.eval_finalize_file link.cfg hst hsize hkind hall hdest
  obtain ⟨app', heval, htr, hdisk⟩ := Tunnel.eval_commit X link
    ⟨some ⟨m, store⟩, disk, 0, false, []⟩ rfl _ hfin
  -- the hash in the answer is the one that was sealed
  have hopens : openJson X link.key X.commitJson .commit (asBytes m.transferId) (reqs j).body
      = some ⟨X.blake3 content⟩ := by
    rw [hreq, openJson, Cipher.open_seal_, Option.bind_some, Codec.fromSlice_toVec]
  rw [← hreq] at heval
  obtain ⟨pre, t, qs', hrest, hpos, hret, hmine⟩ := h.commit hj heval (by rw [hreq]) rfl
  rw [htr, hdisk] at hrest
  rw [hst.dir] at hgone hdirs
  exact ⟨pre, t, qs', disk', hrest, ⟨by rw [hreq], hpos, hopens, hkind, hret⟩, hgone.wf, hgone.files, hout,
    houts, hdirs, hmine⟩

/-- Where nothing is staged, any transfer starts from nothing. -/
theorem holds_of_none (hnone : disk.content (.staged (stagingDir (Stream.safeName m.name)) .stateJson) = none)
    (hc : 0 < m.chunkSize) {want : Nat → Bytes → Prop} :
    Store.Holds want (startData X m disk) (startState X m disk) := by
  refine Store.holds_open hc ?_
  intro st hst
  rw [Store.persisted, hnone] at hst
  cases hst

/-- With nothing staged no chunk is listed. -/
theorem haves_startState_of_none
    (hnone : disk.content (.staged (stagingDir (Stream.safeName m.name)) .stateJson) = none) :
    (startState X m disk).haves = .empty := by
  rw [startState, Store.stateOn_eq, Store.persisted, hnone]
  rfl

/-- A file of one chunk is received by three requests in a row: its offer, the chunk and the commit. -/
theorem Resting.oneChunk (j₀ j₁ j₂ : I) (h : Resting X link.cfg link.key reqs fs₀ [] qs disk none)
    (h₀₁ : j₀ ≠ j₁) (h₀₂ : j₀ ≠ j₂) (h₁₂ : j₁ ≠ j₂)
    (hoffer : reqs j₀ = ⟨.manifest, link.target.token,
      X.cipher.seal_ link.key .manifest 0 [] (X.manifestJson.toVec m)⟩)
    (hchunk : reqs j₁ = ⟨.chunk 0, link.target.token,
      X.cipher.seal_ link.key .data 0 (asBytes m.transferId) (blockOf m content 0)⟩)
    (hcommit : reqs j₂ = ⟨.commit, link.target.token, X.cipher.seal_ link.key .commit 0
      (asBytes m.transferId) (X.commitJson.toVec ⟨X.blake3 content⟩)⟩)
    (hacc : link.Accepting) (hv : m.version = PROTOCOL_VERSION) (hkind : m.kind = .file)
    (hsize : content.length = m.totalSize) (hone : m.totalChunks = 1) (hc : 0 < m.chunkSize) (hwf : disk.Wf)
    (hclear : disk.Clear (Stream.safeName m.name))
    (hnone : disk.content (.staged (stagingDir (Stream.safeName m.name)) .stateJson) = none) :
    ∃ log₀ log₁ pre t qs' disk' store,
      Resting X link.cfg link.key reqs fs₀ (log₀ ++ log₁ ++ pre ++ [(j₂, ⟨.unlock t, ()⟩)]) qs' disk' none ∧
      Answered X link.key reqs (log₀ ++ log₁ ++ pre) j₂ qs' ⟨m, store⟩ ⟨X.blake3 content⟩ ∧
      (∀ x ∈ log₀, x.1 = j₀) ∧ (∀ x ∈ log₁, x.1 = j₁) ∧ (∀ x ∈ pre, x.1 = j₂) ∧ disk'.Wf ∧
      (∀ f, disk'.content (.staged (stagingDir (Stream.safeName m.name)) f) = none) ∧
      disk'.content (.out (Stream.safeName m.name)) = some content ∧
      (∀ n, n ≠ Stream.safeName m.name → disk'.content (.out n) = disk.content (.out n)) ∧
      ∀ d, d ≠ stagingDir (Stream.safeName m.name) → disk'.dirs d = disk.dirs d := by
  obtain ⟨log₀, qs₀, store, disk₀, h₀, hst₀, hstate, hsame₀, hmine₀⟩ :=
    h.offer link content (by simp) hoffer hacc hv hkind hwf hclear.makes (holds_of_none hnone hc) rfl
  rw [List.nil_append] at h₀
  have hempty : store.state.haves = .empty :=
    (congrArg State.haves hstate).trans (haves_startState_of_none hnone)
  -- the chunk
  have hfresh₁ : ∀ x ∈ log₀, x.1 ≠ j₁ := fun x hx heq => h₀₁ ((hmine₀ x hx).symm.trans heq)
  obtain ⟨log₁, qs₁, disk₁, h₁, hst₁, hsame₁, hmine₁⟩ := h₀.chunk link content hfresh₁ hchunk hst₀ hsize
    (by rw [hone]; exact Nat.one_pos) (by rw [hempty]; simp)
  have hfresh₂ : ∀ x ∈ log₀ ++ log₁, x.1 ≠ j₂ := by
    intro x hx heq
    rcases List.mem_append.mp hx with hx | hx
    · exact h₀₂ ((hmine₀ x hx).symm.trans heq)
    · exact h₁₂ ((hmine₁ x hx).symm.trans heq)
  have hall : ∀ i < m.totalChunks, i ∈ (store.record 0).state.haves := by
    intro i hi
    rw [hone, Nat.lt_one_iff] at hi
    exact SortedSet.mem_insert.mpr (.inl hi)
  have hsame := hsame₀.trans hsame₁
  -- and the commit
  obtain ⟨pre, t, qs₂, disk₂, h₂, hans, hwf₂, hgone, hout, houts, hdirs, hmine₂⟩ := h₁.deliver link content
    hfresh₂ hcommit hst₁ hsize hkind (hclear.outside hsame).dest hall
  refine ⟨log₀, log₁, pre, t, qs₂, disk₂, _, h₂, hans, hmine₀, hmine₁, hmine₂, hwf₂, hgone, hout, ?_, ?_⟩
  · intro n hn
    rw [houts n hn, hsame.content _ (by simp)]
  · intro d hd
    rw [hdirs d hd, hsame.dirs d hd]

/-- The handler of an offer looks whether the name is taken, and if it is not enters the directory. -/
theorem handler_entering {req : Request} (hreq : req = ⟨.manifest, link.target.token,
      X.cipher.seal_ link.key .manifest 0 [] (X.manifestJson.toVec m)⟩)
    (hauto : link.cfg.autoAccept = true) (hv : m.version = PROTOCOL_VERSION) (hkind : m.kind ≠ .text) :
    ∃ k, handler X link.cfg link.key req
        = .step (.fs (.pathExists (.out (Stream.safeName m.name)))) k ∧
      ∃ k', k false = .step (.fs (.createDirAll (stagingDir (Stream.safeName m.name)))) k' := by
  subst hreq
  show ∃ k, handleManifest X link.cfg link.key _ = _ ∧ _
  rw [handleManifest, openJson, Cipher.open_seal_, Option.bind_some, Codec.fromSlice_toVec]
  dsimp only
  rw [if_neg (not_not.mpr hv), step_bind]
  refine ⟨_, rfl, ?_⟩
  -- nothing is there, so it is taken without a question
  rw [ret_bind, decide_, if_pos hauto, Bool.false_and, Bool.false_and]
  show ∃ k', acceptManifest X m (Server.safeName m.name) = _
  rw [acceptManifest, if_neg hkind]
  exact ⟨_, rfl⟩

/-- An offer gets as far as its staging directory before the commit of another file has been answered, and
is handled to its end after that. What was received stays as it was. -/
theorem Resting.overlapOffer {t : Option ActiveTransfer} {i : I} {active : ActiveTransfer}
    (h : Resting X link.cfg link.key reqs fs₀ (log ++ [(j, ⟨.unlock t, ()⟩)]) qs disk slot)
    (hpos : position reqs log j = .holding active) (hi : ∀ x ∈ log, x.1 ≠ i) (hij : i ≠ j)
    (hreq : reqs i = ⟨.manifest, link.target.token,
      X.cipher.seal_ link.key .manifest 0 [] (X.manifestJson.toVec m)⟩)
    (hauto : link.cfg.autoAccept = true) (hacc : link.Accepting) (hv : m.version = PROTOCOL_VERSION)
    (hkind : m.kind ≠ .text) (hc : 0 < m.chunkSize) (hwf : disk.Wf)
    (hclear : disk.Clear (Stream.safeName m.name))
    (hnone : disk.content (.staged (stagingDir (Stream.safeName m.name)) .stateJson) = none)
    (hfree : disk.content (.out (Stream.safeName m.name)) = none)
    (hne : active.dir ≠ stagingDir (Stream.safeName m.name)) :
    ∃ l later qs', Handling X link.cfg link.key reqs fs₀ (l ++ (j, ⟨.unlock t, ()⟩) :: later) qs' ∧
      Serialized reqs (l ++ (j, ⟨.unlock t, ()⟩) :: later) ∧
      SameOutside (stagingDir (Stream.safeName m.name)) disk
        (Shared.after X fs₀ (l ++ (j, ⟨.unlock t, ()⟩) :: later)).disk ∧
      (position reqs l i).dir = some (stagingDir (Stream.safeName m.name)) ∧
      position reqs l j = .holding active ∧
      ∃ qs₁, Handling X link.cfg link.key reqs fs₀ (l ++ [(j, ⟨.unlock t, ()⟩)]) qs₁ ∧ qs₁ j = qs j := by
  have hholds : Store.Holds (fun _ _ => True) (startData X m disk) (startState X m disk) :=
    holds_of_none hnone hc
  obtain ⟨store, disk', hopen, -, -, hsame⟩ := Staged.open hwf hclear.makes hholds
  obtain ⟨app', heval, -, hdisk⟩ := Tunnel.eval_manifest X ⟨slot, disk, 0, false, []⟩ hacc hv hkind hopen
  obtain ⟨k, hexists, k', henter⟩ := handler_entering (X := X) link hreq hauto hv hkind
  have hfound : X.handle (.pathExists (.out (Stream.safeName m.name))) disk = (false, disk) := by
    show ((disk.files _).isSome || disk.dirs _, disk) = _
    rw [hclear.dest, content_eq_none_iff.mp hfree]
    rfl
  have hdir := Store.handle_createDirAll X hclear.makes
  -- the handler by itself, past its first two operations
  have hlook : App.handle X link.answer (.fs (.pathExists (.out (Stream.safeName m.name))))
      ⟨slot, disk, 0, false, []⟩ = (false, ⟨slot, disk, 0, false, []⟩) := by
    rw [App.handle, hfound]
  have henters : App.handle X link.answer (.fs (.createDirAll (stagingDir (Stream.safeName m.name))))
      ⟨slot, disk, 0, false, []⟩
        = (.ok (), ⟨slot, disk.setDir (stagingDir (Stream.safeName m.name)) true, 0, false, []⟩) := by
    rw [App.handle, hdir]
  rw [← hreq, hexists, eval_step_eq _ hlook, henter, eval_step_eq _ henters] at heval
  -- and those two in the run, before the lock is released
  obtain ⟨later, qs', hrun, hser, hafter, hbefore⟩ :=
    h.overlap hpos hi hij hexists (congrArg Prod.fst hfound) henter hdir hne heval
  refine ⟨_, later, qs', hrun, hser, ?_, ?_, ?_, hbefore⟩
  · rw [hafter]
    exact hdisk ▸ hsame
  · rw [position_entering hi]
    rfl
  · rw [position_entering_of_ne hij.symm]
    exact hpos

/-- Archives that are not there to be unpacked leave the staging directories alone. -/
theorem archivesApart_of_inert (hwf : fs₀.Wf) (hlisted : Listed X fs₀)
    (hinert : ∀ b fs, (X.unpackTar b fs).2 = fs) (hrun : Handling X cfg key reqs fs₀ log qs)
    (hser : Serialized reqs log) : ArchivesApart X fs₀ log := by
  induction log using List.reverseRecOn generalizing qs with
  | nil =>
      intro before i p r later heq
      simp at heq
  | append_singleton log x ih =>
      obtain ⟨i, a⟩ := x
      obtain ⟨qs', hrun', -⟩ := hrun.snoc
      have hlog := ih hrun' hser.of_append
      intro before i' p r later heq
      rcases List.eq_nil_or_concat later with rfl | ⟨later, y, rfl⟩
      · -- the last action: the disk is well-formed up to there
        obtain ⟨rfl, -⟩ := List.append_inj' heq rfl
        have hsame : (X.handle (.unpackTar p) (Shared.after X fs₀ log).disk).2
            = (Shared.after X fs₀ log).disk := by
          unfold Externals.handle handle
          dsimp only
          split
          · exact hinert _ _
          · rfl
        rw [hsame]
        exact fun dir => .refl (inv_of_handling hwf hlisted List.prefix_rfl hrun' hser.of_append hlog).wf
      · rw [List.concat_eq_append, ← List.cons_append, ← List.append_assoc] at heq
        exact hlog before i' p r later (List.append_inj' heq rfl).1

end sequence

end server

/-- A receiver that takes whatever is offered, and overwrites. -/
def lenient : Tunnel.Link := ⟨⟨"host", "token"⟩, [], ⟨"out", true, true⟩, none⟩

/-- A file in chunks of one byte. -/
def aFile (transferId name : String) (size : Nat) : Manifest :=
  ⟨PROTOCOL_VERSION, transferId, .file, name, [], size, 1, none⟩

/-- Two files named `a`, one of a single byte and then an empty one; and the offer of a file named `b`. -/
def threeFiles (X : Externals) : Fin 6 → Request
  | 0 => ⟨.manifest, "token", X.cipher.seal_ [] .manifest 0 [] (X.manifestJson.toVec (aFile "t" "a" 1))⟩
  | 1 => ⟨.chunk 0, "token", X.cipher.seal_ [] .data 0 (asBytes "t") [7]⟩
  | 2 => ⟨.commit, "token", X.cipher.seal_ [] .commit 0 (asBytes "t") (X.commitJson.toVec ⟨X.blake3 [7]⟩)⟩
  | 3 => ⟨.manifest, "token", X.cipher.seal_ [] .manifest 0 [] (X.manifestJson.toVec (aFile "u" "a" 0))⟩
  | 4 => ⟨.commit, "token", X.cipher.seal_ [] .commit 0 (asBytes "u") (X.commitJson.toVec ⟨X.blake3 []⟩)⟩
  | 5 => ⟨.manifest, "token", X.cipher.seal_ [] .manifest 0 [] (X.manifestJson.toVec (aFile "v" "b" 0))⟩

/-- A disk that was blank before the file `a` was received. -/
structure Received (b : Bytes) (disk : Fs) : Prop where
  wf : disk.Wf
  gone : disk.content (.staged (stagingDir (Stream.safeName "a")) .stateJson) = none
  placed : disk.content (.out (Stream.safeName "a")) = some b
  others : ∀ n, n ≠ Stream.safeName "a" → disk.content (.out n) = none
  dirs : ∀ d, d ≠ stagingDir (Stream.safeName "a") → disk.dirs d = false

theorem Received.clear {b : Bytes} {disk : Fs} (h : Received b disk) : disk.Clear (Stream.safeName "a") :=
  ⟨h.dirs _ (stagingDir_ne _).symm, content_eq_none_iff.mp (h.others _ (stagingDir_ne _))⟩

section threeFiles

variable (X : Externals)

/-- The first of them is received. -/
theorem exists_first : ∃ before t qs disk active,
    Resting X lenient.cfg [] (threeFiles X) blank (before ++ [(2, ⟨.unlock t, ()⟩)]) qs disk none ∧
    Answered X [] (threeFiles X) before 2 qs active ⟨X.blake3 [7]⟩ ∧ active.manifest = aFile "t" "a" 1 ∧
    Received [7] disk ∧ ∀ x ∈ before, x.1 ≤ 2 := by
  obtain ⟨log₀, log₁, pre, t, qs, disk, store, h, hans, hmine₀, hmine₁, hmine₂, hwf, hgone, hout, houts,
      hdirs⟩ :=
    (resting_start X lenient.cfg [] (threeFiles X) blank).oneChunk lenient [7] 0 1 2
      (m := aFile "t" "a" 1) (by decide) (by decide) (by decide) rfl rfl rfl rfl rfl rfl rfl rfl (by decide)
      blank_wf (blank_clear _) rfl
  refine ⟨_, t, qs, disk, _, h, hans, rfl, ⟨hwf, hgone _, hout, houts, hdirs⟩, ?_⟩
  intro x hx
  rw [List.mem_append, List.mem_append] at hx
  rcases hx with (hx | hx) | hx
  · rw [hmine₀ x hx]
    decide
  · rw [hmine₁ x hx]
    decide
  · rw [hmine₂ x hx]

/-- The second one replaces it. -/
theorem exists_second : ∃ before a later qs active,
    Handling X lenient.cfg [] (threeFiles X) blank (before ++ (2, a) :: later) qs ∧
    (∃ qs₂, Handling X lenient.cfg [] (threeFiles X) blank (before ++ [(2, a)]) qs₂ ∧
      Answered X [] (threeFiles X) before 2 qs₂ active ⟨X.blake3 [7]⟩) ∧ active.manifest = aFile "t" "a" 1 ∧
    (Shared.after X blank (before ++ [(2, a)])).disk.content (.out (Stream.safeName "a")) = some [7] ∧
    (Shared.after X blank (before ++ (2, a) :: later)).disk.content (.out (Stream.safeName "a")) = some [] := by
  obtain ⟨before, t, qs₂, disk₂, active, h₂, hans, hman, hreceived, hmine⟩ := exists_first X
  have hacc : lenient.Accepting := rfl
  have hname : (aFile "u" "a" 0).name = "a" := rfl
  have hholds : Store.Holds (PartOf (aFile "u" "a" 0) []) (startData X (aFile "u" "a" 0) disk₂)
      (startState X (aFile "u" "a" 0) disk₂) := by
    apply holds_of_none
    · rw [hname]
      exact hreceived.gone
    · decide
  have hmine₂ : ∀ x ∈ before ++ [(2, ⟨.unlock t, ()⟩)], x.1 ≤ 2 := by
    intro x hx
    rcases List.mem_append.mp hx with hx | hx
    · exact hmine x hx
    · rw [List.mem_singleton.mp hx]
  -- an empty file of the same name is offered
  obtain ⟨log₃, qs₃, store, disk₃, h₃, hst₃, -, hsame₃, hmine₃⟩ := h₂.offer lenient [] (j := 3)
    (m := aFile "u" "a" 0) (fun x hx heq => absurd (heq ▸ hmine₂ x hx) (by decide)) rfl hacc rfl rfl
    hreceived.wf hreceived.clear.makes hholds rfl
  have hfresh : ∀ x ∈ before ++ [(2, ⟨.unlock t, ()⟩)] ++ log₃, x.1 ≠ 4 := by
    intro x hx heq
    rcases List.mem_append.mp hx with hx | hx
    · exact absurd (heq ▸ hmine₂ x hx) (by decide)
    · exact absurd (heq.symm.trans (hmine₃ x hx)) (by decide)
  -- and committed at once
  obtain ⟨pre, t', qs₄, disk₄, h₄, -, -, -, hout₄, -⟩ := h₃.deliver lenient [] (j := 4) hfresh rfl hst₃
    rfl rfl (hreceived.clear.outside hsame₃).dest (fun i hi => absurd hi (Nat.not_lt_zero i))
  have heq : before ++ (2, ⟨.unlock t, ()⟩) :: (log₃ ++ pre ++ [(4, ⟨.unlock t', ()⟩)])
      = before ++ [(2, ⟨.unlock t, ()⟩)] ++ log₃ ++ pre ++ [(4, ⟨.unlock t', ()⟩)] := by
    simp
  refine ⟨before, _, log₃ ++ pre ++ [(4, ⟨.unlock t', ()⟩)], qs₄, active, ?_, ⟨qs₂, h₂.run, hans⟩, hman, ?_, ?_⟩
  · rw [heq]
    exact h₄.run
  · rw [h₂.after]
    exact hreceived.placed
  · rw [heq, h₄.after]
    exact hout₄

theorem safeNames : Stream.safeName "a" = "a" ∧ Stream.safeName "b" = "b" := by
  rw [Stream.safeName, Stream.components, Stream.safeName, Stream.components,
    show "/" = String.singleton '/' from rfl, Text.splitOn_singleton, Text.splitOn_singleton]
  decide

/-- Nothing is in the way of the file `b` then. -/
theorem Received.clear_other {b : Bytes} {disk : Fs} (h : Received b disk) :
    disk.Clear (Stream.safeName "b") := by
  obtain ⟨ha, hb⟩ := safeNames
  refine ⟨h.dirs _ ?_, content_eq_none_iff.mp (h.others _ ?_)⟩ <;>
    · rw [ha, hb]
      decide

theorem Received.nothing_other {b : Bytes} {disk : Fs} (h : Received b disk) :
    disk.content (.staged (stagingDir (Stream.safeName "b")) .stateJson) = none := by
  obtain ⟨ha, hb⟩ := safeNames
  have hdir : disk.dirs (stagingDir (Stream.safeName "b")) = false := by
    refine h.dirs _ ?_
    rw [ha, hb]
    decide
  rw [content_eq_none_iff]
  cases hf : disk.files (.staged (stagingDir (Stream.safeName "b")) .stateJson) with
  | none => rfl
  | some g => exact absurd (h.wf.inDir _ _ (by rw [hf]; rfl)) (by rw [hdir]; nofun)

/-- Or it is received while the file `b` is offered. -/
theorem exists_overlap : ∃ before a later qs active,
    Handling X lenient.cfg [] (threeFiles X) blank (before ++ (2, a) :: later) qs ∧
    Serialized (threeFiles X) (before ++ (2, a) :: later) ∧
    (∃ qs₂, Handling X lenient.cfg [] (threeFiles X) blank (before ++ [(2, a)]) qs₂ ∧
      Answered X [] (threeFiles X) before 2 qs₂ active ⟨X.blake3 [7]⟩) ∧ active.manifest = aFile "t" "a" 1 ∧
    (position (threeFiles X) before 5).dir = some (stagingDir (Stream.safeName "b")) ∧
    (Shared.after X blank (before ++ (2, a) :: later)).disk.content (.out (Stream.safeName "a"))
      = some [7] := by
  obtain ⟨before, t, qs₂, disk₂, active, h₂, hans, hman, hreceived, hmine⟩ := exists_first X
  obtain ⟨ha, hb⟩ := safeNames
  have hapart : active.dir ≠ stagingDir (Stream.safeName "b") := by
    rw [ActiveTransfer.dir, hman, show (aFile "t" "a" 1).name = "a" from rfl, ha, hb]
    decide
  have hfree : disk₂.content (.out (Stream.safeName "b")) = none := by
    refine hreceived.others _ ?_
    rw [ha, hb]
    decide
  -- the offer stops in its directory until the commit has been answered
  obtain ⟨l, later, qs', hrun, hser, hsame, hoverlap, hholding, qs₁, hrun₁, hqs₁⟩ :=
    h₂.overlapOffer lenient hans.holding (i := 5) (m := aFile "v" "b" 0)
      (fun x hx heq => absurd (heq ▸ hmine x hx) (by decide)) (by decide) rfl rfl rfl rfl Kind.file_ne_text
      (by decide) hreceived.wf hreceived.clear_other hreceived.nothing_other hfree hapart
  refine ⟨l, _, later, qs', active, hrun, hser, ⟨qs₁, hrun₁, ?_⟩, hman, hoverlap, ?_⟩
  · exact ⟨hans.endpoint, hholding, hans.opens, hans.kind, hqs₁.trans hans.ok⟩
  · rw [hsame.content _ (by simp)]
    exact hreceived.placed

end threeFiles

/-- A server that receives one file while another is offered, and what the commit means. -/
theorem commit_kept_oneFile : ∃ before a later qs active qs₂,
    Handling (Externals.ideal fun _ => "") lenient.cfg [] (threeFiles (.ideal fun _ => "")) blank
      (before ++ (2, a) :: later) qs ∧
    Handling (Externals.ideal fun _ => "") lenient.cfg [] (threeFiles (.ideal fun _ => "")) blank
      (before ++ [(2, a)]) qs₂ ∧
    Answered (.ideal fun _ => "") [] (threeFiles (.ideal fun _ => "")) before 2 qs₂ active ⟨""⟩ ∧
    (position (threeFiles (.ideal fun _ => "")) before 5).dir = some (stagingDir (Stream.safeName "b")) ∧
    (Shared.after (.ideal fun _ => "") blank (before ++ (2, a) :: later)).disk.content
      (.out (Stream.safeName "a")) = some [7] ∧
    CommitKept (.ideal fun _ => "") lenient.cfg [] (threeFiles (.ideal fun _ => "")) blank
      (before ++ (2, a) :: later) := by
  obtain ⟨before, a, later, qs, active, hrun, hser, ⟨qs₂, hrun₂, hans⟩, -, hoverlap, hplaced⟩ :=
    exists_overlap (.ideal fun _ => "")
  have hlisted : Listed (.ideal fun _ => "") blank := by
    intro name st hst
    cases hst
  exact ⟨before, a, later, qs, active, qs₂, hrun, hrun₂, hans, hoverlap, hplaced,
    commit_kept blank_wf hlisted hrun hser
      (archivesApart_of_inert blank_wf hlisted (fun _ _ => rfl) hrun hser)⟩

/-- A receiver that is told to overwrite does: the file a commit has put in place is gone after the next
one. -/
theorem not_commitSafe_overwritten : ∃ log qs,
    Handling (Externals.ideal fun _ => "") lenient.cfg [] (threeFiles (.ideal fun _ => "")) blank log qs ∧
    ¬ CommitSafe (.ideal fun _ => "") lenient.cfg [] (threeFiles (.ideal fun _ => "")) blank log := by
  obtain ⟨before, a, later, qs, active, hrun, ⟨qs₂, hrun₂, hans⟩, hman, hfirst, hsecond⟩ :=
    exists_second (.ideal fun _ => "")
  refine ⟨_, qs, hrun, ?_⟩
  intro hsafe
  have hkept := (hsafe before 2 a later qs₂ active _ rfl hrun₂ hans).2
  rw [hman] at hkept
  have heq : (some [] : Option Bytes) = some [7] := hsecond.symm.trans (hkept.trans hfirst)
  exact absurd heq (by decide)

end Server
end B2p
