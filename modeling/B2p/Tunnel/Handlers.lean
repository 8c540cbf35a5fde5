import B2p.Tunnel.Directories

/-!
# The handlers among others

What each handler does, whatever the others do in the meantime: until it enters a staging directory it
touches nothing, inside it keeps to its terms, and what it leaves behind can be gone on with.

* `Ready`, `Inside` — a handler before and after it has entered.
* `Promise` — what the answer to a commit says about the destination.
* `ready_handler` — every handler is ready.
-/

namespace B2p

open Interaction Prog

namespace Server

open Fs

variable (X : Externals) (want : Manifest → Nat → Bytes → Prop)

/-! ## The handlers -/

/-- What the handler of `req`, working on `active`, promises of its answer. -/
def Promise (key : Key) (req : Request) (active : ActiveTransfer) (r : Except Anyhow Response) (fs : Fs) :
    Prop :=
  req.endpoint = .commit → ∀ commit,
    openJson X key X.commitJson .commit (asBytes active.manifest.transferId) req.body = some commit →
    active.manifest.kind = .file → r = .ok ⟨200, X.commitAckJson.toVec ⟨true, none⟩⟩ →
    ∃ content, fs.content (.out (Stream.safeName active.manifest.name)) = some content ∧
      X.blake3 content = commit.blake3Hex ∧
      (0 < active.manifest.chunkSize → ∀ index < active.manifest.totalChunks,
        want active.manifest index (blockOf active.manifest content index))

/-- A handler that has entered, and what it still does. -/
def Inside (key : Key) (req : Request) : Position → ServerProg Response → Fs → Prop
  | .before, _, _ => False
  | .opening dir, p, fs => Among (terms X want false dir) (fun _ _ => True) p fs
  | .installing dir, p, fs => Among (terms X want false dir) (fun _ _ => True) p fs
  | .holding active, p, fs => Among (terms X want true active.dir) (Promise X want key req active) p fs
  | .peeking slot, p, _ => ∃ r, p = .step (.unlock slot) fun _ => .ret r
  | .left, p, _ => ∃ r, p = .ret r

/-- A handler that has not: it touches nothing until it makes its staging directory or takes the lock. -/
def Ready (key : Key) (req : Request) (asked : Option ActiveTransfer → Prop) : ServerProg Response → Prop
  | .ret _ => True
  | .fail _ => True
  | .step (.fs (.createDirAll dir)) k =>
      (∀ fs, Backed X want dir fs →
        Inside X want key req (.opening dir) (k (.ok ())) (fs.setDir dir true)) ∧
      ∀ e, Ready key req asked (k (.error e))
  | .step (.fs (.pathExists _)) k => ∀ r, Ready key req asked (k r)
  | .step (.fs _) _ => False
  | .step .lock k => ∀ slot, asked slot → ∀ fs,
      (∀ active, Position.locked req.endpoint slot = .holding active → Lodged X want active fs) →
      Inside X want key req (.locked req.endpoint slot) (k slot) fs
  | .step (.unlock _) _ => False
  | .step (.accept _) k => ∀ r, Ready key req asked (k r)
  | .step (.event _) k => Ready key req asked (k ())
  | .step .shutdown k => Ready key req asked (k ())

section handlers

variable {X want} {key : Key} {cfg : ServerCfg} {asked : Option ActiveTransfer → Prop} {held : Bool}
  {dir : String} {fs : Fs} {α β : Type}

/-- The operations that neither touch the disk nor change the slot. -/
def ServerOp.Quiet : ServerOp → Prop
  | .fs _ | .unlock _ => False
  | _ => True

theorem among_quiet {Q : Except Anyhow α → Fs → Prop} (o : ServerOp) {f : o.Res → ServerProg α}
    (ho : o.Quiet) (h : ∀ r fs₁, Calm held dir fs fs₁ → Among (terms X want held dir) Q (f r) fs₁) :
    Among (terms X want held dir) Q (op o >>= f) fs := by
  intro fs₁ hcalm
  cases o with
  | fs o => exact ho.elim
  | unlock t => exact ho.elim
  | _ =>
      refine ⟨trivial, ?_⟩
      rintro r fs' rfl
      exact h r _ hcalm

/-- The last thing a handler does. -/
theorem among_unlock {Q : Except Anyhow α → Fs → Prop} {t : Option ActiveTransfer} {a : α}
    (h : ∀ fs₁, Calm held dir fs fs₁ → (∀ active, t = some active → Lodged X want active fs₁) ∧
      Backed X want dir fs₁ ∧ Q (.ok a) fs₁) :
    Among (terms X want held dir) Q (op (.unlock t) >>= fun _ => return a) fs := by
  intro fs₁ hcalm
  obtain ⟨hslot, hback, hQ⟩ := h fs₁ hcalm
  refine ⟨⟨hslot, hback⟩, ?_⟩
  rintro r fs' rfl
  exact hQ

/-- Putting a lodged transfer back. -/
theorem Lodged.among_unlock {Q : Except Anyhow α → Fs → Prop} (hw : Coherent want) {active : ActiveTransfer}
    (hl : Lodged X want active fs) {a : α} (hQ : ∀ fs, Q (.ok a) fs) :
    Among (terms X want held active.dir) Q (op (.unlock (some active)) >>= fun _ => return a) fs := by
  apply Server.among_unlock
  intro fs₁ h₁
  have hl₁ := hl.view h₁.toView
  refine ⟨?_, hl₁.backed hw, hQ fs₁⟩
  rintro _ ⟨⟩
  exact hl₁

theorem ready_acceptManifest (hw : Coherent want) (req : Request) (m : Manifest) :
    Ready X want key req asked (acceptManifest X m (Stream.safeName m.name)) := by
  unfold acceptManifest
  split
  · trivial
  refine ⟨fun fs hb => ?_, fun _ => trivial⟩
  apply Among.bind
  apply Among.attempt
  apply among_onDisk
  refine (among_openOrCreate hb rfl).mono ?_
  rintro r fs₁ ⟨store, rfl, hl⟩
  apply among_quiet (.event _) trivial
  intro _ fs₂ h₂
  apply among_quiet .lock trivial
  intro _ fs₃ h₃
  exact ((hl.view h₂.toView).view h₃.toView).among_unlock hw fun _ => trivial

theorem ready_decide {req : Request} (m : Manifest) (destExists : Bool)
    {k : Option Bool → ServerProg Response} (h : ∀ r, Ready X want key req asked (k r)) :
    Ready X want key req asked (decide_ cfg m destExists >>= k) := by
  unfold decide_
  split
  · exact h _
  · exact h

theorem ready_handleManifest (hw : Coherent want) (req : Request) (body : Bytes) :
    Ready X want key req asked (handleManifest X cfg key body) := by
  unfold handleManifest
  split
  · trivial
  split
  · trivial
  next manifest _ _ =>
  intro destExists
  apply ready_decide
  intro r
  rcases r with _ | _ | _
  · trivial
  · trivial
  · exact ready_acceptManifest hw req manifest

theorem ready_handleChunk (hw : Coherent want) {req : Request} {index : Nat}
    (hreq : req.endpoint = .chunk index)
    (hasked : ∀ active plaintext, asked (some active) →
      X.cipher.open_ key .data index (asBytes active.manifest.transferId) req.body = some plaintext →
      want active.manifest index plaintext) :
    Ready X want key req asked (handleChunk X key index req.body) := by
  intro slot hslot fs hl
  rw [hreq] at hl ⊢
  cases slot with
  | none => exact ⟨_, rfl⟩
  | some active =>
      have hl := hl active rfl
      have hQ : ∀ r fs, Promise X want key req active r fs := by
        intro r fs hcommit
        rw [hreq] at hcommit
        cases hcommit
      dsimp only [Prog.bind]
      split
      · exact hl.among_unlock hw fun _ => hQ _ _
      · next plaintext hopen =>
          apply Among.bind
          apply among_onDisk
          refine (among_writeChunk hl (hasked active plaintext hslot hopen)).mono ?_
          rintro r fs₁ ⟨res, store, rfl, hl₁⟩
          cases res with
          | ok u =>
              apply among_quiet (.event _) trivial
              intro _ fs₂ h₂
              exact (hl₁.view h₂.toView).among_unlock hw fun _ => hQ _ _
          | error e => exact hl₁.among_unlock hw fun _ => hQ _ _

/-- A failed commit says so. -/
theorem commitReply_error (e : Anyhow) :
    (⟨200, X.commitAckJson.toVec (commitReply (.error e))⟩ : Response)
      ≠ ⟨200, X.commitAckJson.toVec ⟨true, none⟩⟩ := by
  intro heq
  have hack := X.commitAckJson.toVec_injective (congrArg Response.body heq)
  cases hack

theorem ready_handleCommit (hw : Coherent want) {req : Request} (hreq : req.endpoint = .commit) :
    Ready X want key req asked (handleCommit X cfg key req.body) := by
  intro slot hslot fs hl
  rw [hreq] at hl ⊢
  cases slot with
  | none => exact ⟨_, rfl⟩
  | some active =>
      have hl := hl active rfl
      dsimp only [Prog.bind]
      split
      · next hopen =>
          refine hl.among_unlock hw fun fs hcommit commit hsome => ?_
          rw [hopen] at hsome
          cases hsome
      · next commit hopen =>
          apply Among.bind
          apply Among.attempt
          apply among_onDisk
          refine (among_finalize hw hl commit).mono ?_
          rintro r fs₁ ⟨hback, hplaced⟩
          cases r with
          | ok desc =>
              apply among_quiet (.event _) trivial
              intro _ fs₂ h₂
              apply among_quiet .shutdown trivial
              intro _ fs₃ h₃
              apply among_unlock
              intro fs₄ h₄
              have hcalm := (h₂.trans h₃).trans h₄
              refine ⟨nofun, hback.view hcalm.toView, ?_⟩
              intro hcommit commit' hsome hkind hok
              obtain rfl : commit = commit' := by
                rw [hopen] at hsome
                exact Option.some.inj hsome
              obtain ⟨content, hcontent, hrest⟩ := hplaced hkind desc rfl
              exact ⟨content, (hcalm.outs rfl _).trans hcontent, hrest⟩
          | error e =>
              apply among_quiet (.event _) trivial
              intro _ fs₂ h₂
              apply among_unlock
              intro fs₃ h₃
              refine ⟨nofun, hback.view (h₂.trans h₃).toView, ?_⟩
              intro _ _ _ _ hok
              exact absurd (Except.ok.inj hok) (commitReply_error e)

/-- **Every handler is ready**, if the chunk it opens is one `want` allows. -/
theorem ready_handler (hw : Coherent want) (req : Request)
    (hasked : ∀ index active plaintext, req.endpoint = .chunk index → asked (some active) →
      X.cipher.open_ key .data index (asBytes active.manifest.transferId) req.body = some plaintext →
      want active.manifest index plaintext) :
    Ready X want key req asked (handler X cfg key req) := by
  unfold handler
  split
  · exact ready_handleManifest hw req _
  · next index hreq =>
      exact ready_handleChunk hw hreq fun active plaintext => hasked index active plaintext hreq
  · next hreq =>
      intro slot hslot fs hl
      rw [hreq]
      cases slot with
      | none => exact ⟨_, rfl⟩
      | some active => exact ⟨_, rfl⟩
  · next hreq => exact ready_handleCommit hw hreq

end handlers

end Server
end B2p
