import B2p.Webrtc.Trickle

/-!
# Endpoints and the rendezvous between them

Any number of endpoints, of either role and under any keys, over a rendezvous that an adversary runs:
it delivers frames of any of them, changed, moved, replayed or reflected, or frames of its own making.
What it cannot do is make a frame that opens under a key it does not have.

* `Endpoint`, `Network` — the endpoints, and what they may be answered.
* `SealsOwn` — what an endpoint has sealed: its own descriptions and candidates, under its own role.
* `applied_from_peer` — only the peer's descriptions and candidates reach a peer connection.
* `peers_converge` — once all is delivered, they all have.
-/

namespace B2p
namespace Webrtc

open Interaction Prog
open Handshake (roleByte other encodeFrame decodeFrame)

/-- One call of `establish`. `frames` and `calls` bound how much its pump reads and how often the
callback is called. -/
structure Endpoint where
  role : Pake.Role
  sigKey : Bytes
  topic : String
  frames : Nat
  calls : Nat

inductive Task where
  | establish
  | pump
  | gather
  deriving DecidableEq

variable {W : WebrtcLib} {cipher : Cipher}

variable (cipher) in
/-- The tasks of an endpoint. -/
def Endpoint.prog (x : Endpoint) : Task → RtcProg W Unit
  | .establish => Webrtc.establish x.topic x.role
  | .pump => Webrtc.pump cipher x.topic x.sigKey x.role x.frames []
  | .gather => wireLocalIce x.topic x.role x.calls

/-! ## What an endpoint seals -/

/-- What an endpoint of this role has sealed in `tr`: a description it made, or a candidate it was
called with, under its own role byte. -/
def SealsOwn (role : Pake.Role) (tr : RtcTrace W) : Prop :=
  ∀ aad plain sealed, (⟨.sealRandom aad plain, sealed⟩ : Action (rtcEffects W)) ∈ tr →
    (aad = [KIND_SDP, roleByte role] ∧ ∃ sdp, plain = W.sdpJson.toVec sdp ∧
      (role = .receiver ∧ ⟨.createOffer, .ok sdp⟩ ∈ tr ∨ role = .sender ∧ ⟨.createAnswer, .ok sdp⟩ ∈ tr)) ∨
    aad = [KIND_ICE, roleByte role] ∧ ∃ init, plain = W.iceJson.toVec init ∧
      ⟨.iceCandidate, some init⟩ ∈ tr

section seals

variable {role : Pake.Role} {tr : RtcTrace W} {a : Action (rtcEffects W)}

theorem sealsOwn_nil : SealsOwn role ([] : RtcTrace W) := by
  intro aad plain sealed h
  cases h

/-- An action that is no seal keeps it. -/
theorem SealsOwn.append (h : SealsOwn role tr) (ha : ∀ aad plain sealed, a ≠ ⟨.sealRandom aad plain, sealed⟩) :
    SealsOwn role (tr ++ [a]) := by
  intro aad plain sealed hmem
  rcases List.mem_append.mp hmem with hmem | hmem
  swap
  · exact absurd (List.mem_singleton.mp hmem).symm (ha aad plain sealed)
  have hleft : ∀ b ∈ tr, b ∈ tr ++ [a] := fun b hb => List.mem_append_left _ hb
  rcases h aad plain sealed hmem with ⟨haad, sdp, hp, ⟨hr, ho⟩ | ⟨hr, ho⟩⟩ | ⟨haad, init, hp, ho⟩
  · exact .inl ⟨haad, sdp, hp, .inl ⟨hr, hleft _ ho⟩⟩
  · exact .inl ⟨haad, sdp, hp, .inr ⟨hr, hleft _ ho⟩⟩
  · exact .inr ⟨haad, init, hp, hleft _ ho⟩

/-- A seal of something of its own keeps it. -/
theorem SealsOwn.seal {kind : UInt8} {plain sealed : Bytes} (h : SealsOwn role tr)
    (hown : (kind = KIND_SDP ∧ ∃ sdp, plain = W.sdpJson.toVec sdp ∧
        (role = .receiver ∧ ⟨.createOffer, .ok sdp⟩ ∈ tr ∨ role = .sender ∧ ⟨.createAnswer, .ok sdp⟩ ∈ tr)) ∨
      kind = KIND_ICE ∧ ∃ init, plain = W.iceJson.toVec init ∧ ⟨.iceCandidate, some init⟩ ∈ tr) :
    SealsOwn role (tr ++ [⟨.sealRandom [kind, roleByte role] plain, sealed⟩]) := by
  have hleft : ∀ b ∈ tr, b ∈ tr ++ [⟨.sealRandom [kind, roleByte role] plain, sealed⟩] :=
    fun b hb => List.mem_append_left _ hb
  intro aad plain' sealed' hmem
  rcases List.mem_append.mp hmem with hmem | hmem
  · rcases h aad plain' sealed' hmem with ⟨haad, sdp, hp, ⟨hr, ho⟩ | ⟨hr, ho⟩⟩ | ⟨haad, init, hp, ho⟩
    · exact .inl ⟨haad, sdp, hp, .inl ⟨hr, hleft _ ho⟩⟩
    · exact .inl ⟨haad, sdp, hp, .inr ⟨hr, hleft _ ho⟩⟩
    · exact .inr ⟨haad, init, hp, hleft _ ho⟩
  cases List.mem_singleton.mp hmem
  rcases hown with ⟨rfl, sdp, hp, ⟨hr, ho⟩ | ⟨hr, ho⟩⟩ | ⟨rfl, init, hp, ho⟩
  · exact .inl ⟨rfl, sdp, hp, .inl ⟨hr, hleft _ ho⟩⟩
  · exact .inl ⟨rfl, sdp, hp, .inr ⟨hr, hleft _ ho⟩⟩
  · exact .inr ⟨rfl, init, hp, hleft _ ho⟩

variable {Q : Except Anyhow Unit → RtcTrace W → Prop}

theorem safe_publishSealed {Q : Except Anyhow (Except Anyhow Unit) → RtcTrace W → Prop} {topic : String}
    {kind : UInt8} {plain : Bytes} (h : SealsOwn role tr)
    (hown : (kind = KIND_SDP ∧ ∃ sdp, plain = W.sdpJson.toVec sdp ∧
        (role = .receiver ∧ ⟨.createOffer, .ok sdp⟩ ∈ tr ∨ role = .sender ∧ ⟨.createAnswer, .ok sdp⟩ ∈ tr)) ∨
      kind = KIND_ICE ∧ ∃ init, plain = W.iceJson.toVec init ∧ ⟨.iceCandidate, some init⟩ ∈ tr)
    (hQ : ∀ tr r, SealsOwn role tr → Q (.ok r) tr) :
    Safe traced (SealsOwn role) Q (publishSealed topic kind role plain) tr := by
  refine ⟨h, ?_⟩
  rintro sealed _ rfl
  have h₁ : SealsOwn role (tr ++ [⟨.sealRandom [kind, roleByte role] plain, sealed⟩]) := h.seal hown
  refine ⟨h₁, ?_⟩
  rintro r _ rfl
  have h₂ := h₁.append (a := ⟨.publish topic (encodeFrame kind role sealed), r⟩) (by simp)
  exact ⟨h₂, hQ _ r h₂⟩

theorem safe_wireLocalIce {topic : String} (calls : Nat) (h : SealsOwn role tr) :
    Safe traced (SealsOwn role) (fun _ _ => True) (wireLocalIce topic role calls) tr := by
  induction calls generalizing tr with
  | zero => exact ⟨h, trivial⟩
  | succ calls ih =>
      refine ⟨h, ?_⟩
      rintro r _ rfl
      have h₁ := h.append (a := ⟨.iceCandidate, r⟩) (by simp)
      cases r with
      | none => exact ih h₁
      | some init =>
          exact Safe.bind (safe_publishSealed h₁ (.inr ⟨rfl, init, rfl, by simp⟩) fun tr _ h => ih h)

theorem sealsOwn_drain {pendingIce : List W.CandidateInit} (h : SealsOwn role tr)
    (hQ : ∀ tr, SealsOwn role tr → Q (.ok ()) tr) :
    Safe traced (SealsOwn role) Q (drain pendingIce) tr := by
  induction pendingIce generalizing tr with
  | nil => exact ⟨h, hQ tr h⟩
  | cons init rest ih =>
      refine ⟨h, ?_⟩
      rintro r _ rfl
      exact ih (h.append (by simp))

theorem sealsOwn_answer {topic : String} (h : SealsOwn .sender tr)
    (hQ : ∀ tr, SealsOwn .sender tr → Q (.ok ()) tr) :
    Safe traced (SealsOwn .sender) Q (answer topic .sender) tr := by
  refine ⟨h, ?_⟩
  rintro r _ rfl
  have h₁ := h.append (a := ⟨.createAnswer, r⟩) (by simp)
  cases r with
  | error e => exact ⟨h₁, hQ _ h₁⟩
  | ok sdp =>
      refine ⟨h₁, ?_⟩
      rintro r _ rfl
      have h₂ := h₁.append (a := ⟨.setLocalDescription sdp, r⟩) (by simp)
      cases r with
      | error e => exact ⟨h₂, hQ _ h₂⟩
      | ok u =>
          refine Safe.bind (safe_publishSealed h₂ (.inl ⟨rfl, sdp, rfl, .inr ⟨rfl, by simp⟩⟩) ?_)
          exact fun tr _ h => ⟨h, hQ tr h⟩

theorem sealsOwn_applyFrame {Q : Except Anyhow (List W.CandidateInit) → RtcTrace W → Prop}
    {topic : String} {sigKey frame : Bytes} {pendingIce : List W.CandidateInit} (h : SealsOwn role tr)
    (hQ : ∀ tr pendingIce, SealsOwn role tr → Q (.ok pendingIce) tr) :
    Safe traced (SealsOwn role) Q (applyFrame cipher topic sigKey role frame pendingIce) tr := by
  rcases applyFrame_cases cipher sigKey role topic frame pendingIce with
    ⟨heq, -⟩ | ⟨sdp, heq, -⟩ | ⟨init, heq, -⟩
  -- a frame that says nothing changes nothing
  · rw [heq]
    exact ⟨h, hQ _ _ h⟩
  · rw [heq]
    refine ⟨h, ?_⟩
    rintro r _ rfl
    have h₁ := h.append (a := ⟨.setRemoteDescription sdp, r⟩) (by simp)
    cases r with
    | error e => exact ⟨h₁, hQ _ _ h₁⟩
    | ok u =>
        -- the candidates kept back go in, then the sender answers
        refine Safe.bind (sealsOwn_drain h₁ fun tr h₂ => ?_)
        by_cases hrole : role = .sender
        · rw [if_pos hrole]
          subst hrole
          exact Safe.bind (sealsOwn_answer h₂ fun tr h => ⟨h, hQ _ _ h⟩)
        · rw [if_neg hrole]
          exact ⟨h₂, hQ _ _ h₂⟩
  · rw [heq]
    refine ⟨h, ?_⟩
    rintro b _ rfl
    have h₁ := h.append (a := ⟨.remoteDescription, b⟩) (by simp)
    cases b with
    | false => exact ⟨h₁, hQ _ _ h₁⟩
    | true =>
        refine ⟨h₁, ?_⟩
        rintro r _ rfl
        have h₂ := h₁.append (a := ⟨.addIceCandidate init, r⟩) (by simp)
        exact ⟨h₂, hQ _ _ h₂⟩

theorem sealsOwn_pump {topic : String} {sigKey : Bytes} {pendingIce : List W.CandidateInit}
    (budget : Nat) (h : SealsOwn role tr) :
    Safe traced (SealsOwn role) (fun _ _ => True) (pump cipher topic sigKey role budget pendingIce) tr := by
  induction budget generalizing pendingIce tr with
  | zero => exact ⟨h, trivial⟩
  | succ budget ih =>
      refine ⟨h, ?_⟩
      rintro r _ rfl
      have h₁ := h.append (a := ⟨.next, r⟩) (by simp)
      cases r with
      | none => exact ⟨h₁, trivial⟩
      | some frame => exact Safe.bind (sealsOwn_applyFrame h₁ fun tr _ h => ih h)

/-- An operation that ends the task when it fails, and seals nothing. -/
theorem sealsOwn_try {o : RtcOp W} {β : Type} {f : RtcOp.Res o → Except Anyhow β}
    {Q : Except Anyhow β → RtcTrace W → Prop} (h : SealsOwn role tr)
    (ho : ∀ aad plain, o ≠ .sealRandom aad plain)
    (hQ : ∀ r : RtcOp.Res o, SealsOwn role (tr ++ [⟨o, r⟩]) → Q (f r) (tr ++ [⟨o, r⟩])) :
    Safe traced (SealsOwn role) Q (.step o fun r => ofExcept (f r)) tr := by
  refine ⟨h, ?_⟩
  rintro r _ rfl
  have h₁ : SealsOwn role (tr ++ [⟨o, r⟩]) := by
    apply h.append
    rintro aad plain sealed he
    exact ho aad plain (congrArg Action.op he)
  have hq := hQ r h₁
  dsimp only
  cases hf : f r with
  | error e => exact ⟨h₁, hf ▸ hq⟩
  | ok b => exact ⟨h₁, hf ▸ hq⟩

theorem sealsOwn_awaitOpen (h : SealsOwn role tr) :
    Safe traced (SealsOwn role) (fun _ _ => True) (awaitOpen (W := W)) tr := by
  refine ⟨h, ?_⟩
  rintro r _ rfl
  have h₁ := h.append (a := ⟨.opened, r⟩) (by simp)
  refine ⟨h₁, ?_⟩
  rintro b _ rfl
  have h₂ := h₁.append (a := ⟨.channel, b⟩) (by simp)
  cases b with
  | true => exact ⟨h₂, trivial⟩
  | false => exact ⟨h₂, trivial⟩

theorem sealsOwn_offer {topic : String} (h : SealsOwn .receiver tr)
    (hQ : ∀ tr r, SealsOwn .receiver tr → Q r tr) :
    Safe traced (SealsOwn .receiver) Q (offer topic .receiver) tr := by
  refine ⟨h, ?_⟩
  rintro r _ rfl
  have h₁ := h.append (a := ⟨.createOffer, r⟩) (by simp)
  cases r with
  | error e => exact ⟨h₁, hQ _ _ h₁⟩
  | ok sdp =>
      refine ⟨h₁, ?_⟩
      rintro r _ rfl
      have h₂ := h₁.append (a := ⟨.setLocalDescription sdp, r⟩) (by simp)
      cases r with
      | error e => exact ⟨h₂, hQ _ _ h₂⟩
      | ok u =>
          show Safe traced _ Q (publishSealed topic KIND_SDP .receiver (W.sdpJson.toVec sdp) >>= ofExcept) _
          refine Safe.bind (safe_publishSealed h₂ (.inl ⟨rfl, sdp, rfl, .inl ⟨rfl, by simp⟩⟩) ?_)
          intro tr r h₃
          cases r with
          | error e => exact ⟨h₃, hQ _ _ h₃⟩
          | ok u => exact ⟨h₃, hQ _ _ h₃⟩

theorem sealsOwn_establish (topic : String) (role : Pake.Role) :
    Safe traced (SealsOwn role) (fun _ _ => True) (establish (W := W) topic role) [] := by
  rw [establish]
  cases role with
  -- the receiver opens the channel and offers, the sender only listens
  | receiver =>
      rw [if_pos rfl, if_pos rfl]
      refine Safe.bind (sealsOwn_try (o := .createDataChannel "b2p") sealsOwn_nil (by simp) ?_)
      intro r h₁
      cases r with
      | error e => trivial
      | ok u =>
          refine Safe.bind (sealsOwn_try (o := .subscribe topic) h₁ (by simp) ?_)
          intro r h₂
          cases r with
          | error e => trivial
          | ok u =>
              refine Safe.bind (sealsOwn_offer h₂ ?_)
              intro tr r h₃
              cases r with
              | error e => trivial
              | ok u => exact sealsOwn_awaitOpen h₃
  | sender =>
      rw [if_neg (by decide), if_neg (by decide)]
      show Safe traced _ _ ((.step (.subscribe topic) ofExcept : RtcProg W Unit) >>= fun _ => awaitOpen) _
      refine Safe.bind (sealsOwn_try (o := .subscribe topic) sealsOwn_nil (by simp) ?_)
      intro r h₁
      cases r with
      | error e => trivial
      | ok u => exact sealsOwn_awaitOpen h₁

variable (cipher) in
/-- An endpoint seals its own descriptions and candidates only, under its own role. -/
theorem Endpoint.sealsOwn (x : Endpoint) (t : Task) :
    Safe traced (SealsOwn x.role) (fun _ _ => True) (x.prog (W := W) cipher t) [] := by
  cases t with
  | establish => exact sealsOwn_establish x.topic x.role
  | pump => exact sealsOwn_pump x.frames sealsOwn_nil
  | gather => exact safe_wireLocalIce x.calls sealsOwn_nil

end seals

/-! ## Who touches the remote description -/

/-- Not what the pump alone does. -/
def Outward : RtcOp W → Prop
  | .setRemoteDescription _ => False
  | .addIceCandidate _ => False
  | _ => True

theorem outward_wireLocalIce (topic : String) (role : Pake.Role) (calls : Nat) :
    Only Outward (wireLocalIce (W := W) topic role calls) := by
  induction calls with
  | zero => trivial
  | succ calls ih =>
      refine ⟨trivial, fun r => ?_⟩
      cases r with
      | none => exact ih
      | some init => exact ⟨trivial, fun _ => ⟨trivial, fun _ => ih⟩⟩

theorem outward_offer (topic : String) (role : Pake.Role) : Only Outward (offer (W := W) topic role) := by
  refine Only.bind ⟨trivial, fun r => ?_⟩ fun sdp => Only.bind ⟨trivial, fun r => ?_⟩ fun _ =>
    ⟨trivial, fun _ => ⟨trivial, fun r => ?_⟩⟩
  all_goals cases r <;> trivial

theorem outward_establish (topic : String) (role : Pake.Role) :
    Only Outward (establish (W := W) topic role) := by
  have hwait : Only Outward (awaitOpen (W := W)) := by
    refine ⟨trivial, fun _ => ⟨trivial, fun b => ?_⟩⟩
    cases b <;> trivial
  have hsub : Only Outward (.step (.subscribe topic) ofExcept : RtcProg W Unit) := by
    refine ⟨trivial, fun r => ?_⟩
    cases r <;> trivial
  rw [establish]
  cases role with
  | receiver =>
      rw [if_pos rfl, if_pos rfl]
      refine Only.bind ⟨trivial, fun r => ?_⟩ fun _ =>
        Only.bind hsub fun _ => Only.bind (outward_offer topic .receiver) fun _ => hwait
      cases r <;> trivial
  | sender =>
      rw [if_neg (by decide), if_neg (by decide)]
      exact Only.bind (p := .ret ()) trivial fun _ => Only.bind hsub fun _ => hwait

variable (cipher) in
/-- Only the pump applies anything. -/
theorem Endpoint.outward (x : Endpoint) {t : Task} (ht : t ≠ .pump) :
    Only Outward (x.prog (W := W) cipher t) := by
  cases t with
  | establish => exact outward_establish x.topic x.role
  | pump => exact absurd rfl ht
  | gather => exact outward_wireLocalIce x.topic x.role x.calls

/-! ## The adversary -/

section network

variable {I : Type} [DecidableEq I] (cipher) (xs : I → Endpoint)

/-- What may happen next. A seal is made under the endpoint's key, with some nonce. The peer connection
tells the truth about its remote description. A delivered frame may be anything, but if it opens under an
endpoint's key, an endpoint with that key has sealed just that. All else may succeed or fail. -/
def Network (log : List ((I × Task) × Action (rtcEffects W))) :
    (I × Task) × Action (rtcEffects W) → Prop
  | ((i, _), ⟨.sealRandom aad plain, sealed⟩) =>
      ∃ nonce : Bytes, nonce.length = 24 ∧ sealed = cipher.sealRandom (xs i).sigKey nonce aad plain
  | ((i, t), ⟨.remoteDescription, b⟩) => b = accepted (own (i, t) log)
  | ((i, _), ⟨.next, some frame⟩) => ∀ kind r payload plain, decodeFrame frame = some (kind, r, payload) →
      cipher.openRandom (xs i).sigKey [kind, r] payload = some plain →
        ∃ j t sealed, (xs j).sigKey = (xs i).sigKey ∧ ((j, t), ⟨.sealRandom [kind, r] plain, sealed⟩) ∈ log
  | _ => True

variable {cipher xs}
variable {log : List ((I × Task) × Action (rtcEffects W))} {qs : I × Task → RtcProg W Unit}

theorem Network.truthful {log : List ((I × Task) × Action (rtcEffects W))} {x : I × Task}
    {a : Action (rtcEffects W)} (h : Network cipher xs log (x, a)) : Truthful (own x log) a := by
  obtain ⟨o, r⟩ := a
  cases o with
  | remoteDescription => exact h
  | _ => trivial

/-- What an endpoint hears was sealed by an endpoint with its key, under the other role. -/
theorem heard_sealed (hrun : Run (fun x => (xs x.1).prog cipher x.2) (Network cipher xs) log qs)
    {i : I} {t : Task} {a : Action (rtcEffects W)} (ha : ((i, t), a) ∈ log) {kind : UInt8} {plain : Bytes}
    (hs : heard cipher (xs i).sigKey (xs i).role a = some (kind, plain)) :
    ∃ j t' sealed, (xs j).sigKey = (xs i).sigKey ∧
      ((j, t'), ⟨.sealRandom [kind, roleByte (other (xs i).role)] plain, sealed⟩) ∈ log := by
  obtain ⟨before, later, heq, hnet⟩ := hrun.allowed_of_mem ha
  obtain ⟨o, r⟩ := a
  cases o with
  | next =>
      cases r with
      | none => cases hs
      | some frame =>
          rw [heard, frameSays] at hs
          cases hdec : decodeFrame frame with
          | none =>
              rw [hdec] at hs
              cases hs
          | some f =>
              obtain ⟨k, r, payload⟩ := f
              rw [hdec] at hs
              dsimp only at hs
              -- the frame names the other role, and it opens
              by_cases hr : r = roleByte (other (xs i).role)
              swap
              · rw [if_neg hr] at hs
                cases hs
              rw [if_pos hr] at hs
              obtain ⟨plain', hopen, hpair⟩ := Option.map_eq_some_iff.mp hs
              cases hpair
              -- so somebody with the key sealed it before
              obtain ⟨j, t', sealed, hkey, hmem⟩ := hnet _ _ _ _ hdec hopen
              refine ⟨j, t', sealed, hkey, ?_⟩
              rw [heq, ← hr]
              exact List.mem_append_left _ hmem
  | _ => cases hs

theorem roleByte_inj {r r' : Pake.Role} (h : roleByte r = roleByte r') : r = r' := by
  cases r <;> cases r' <;> first | rfl | exact absurd h (by decide)

/-- **Only the peer is applied.** Whatever the rendezvous does, every description an endpoint hands to
its peer connection was made by an endpoint of the opposite role under the same signalling key: an offer
by a receiver, or an answer by a sender. Every candidate it hands over is one such an endpoint was called
with. So its own frames are never applied, nor a description as a candidate, nor anything of a session
under another key. -/
theorem applied_from_peer (hrun : Run (fun x => (xs x.1).prog cipher x.2) (Network cipher xs) log qs)
    (i : I) (t : Task) :
    (∀ sdp r, ((i, t), ⟨.setRemoteDescription sdp, r⟩) ∈ log →
      ∃ j t', (xs j).sigKey = (xs i).sigKey ∧ (xs j).role = other (xs i).role ∧
        ((xs j).role = .receiver ∧ ((j, t'), ⟨.createOffer, .ok sdp⟩) ∈ log ∨
          (xs j).role = .sender ∧ ((j, t'), ⟨.createAnswer, .ok sdp⟩) ∈ log)) ∧
    ∀ init r, ((i, t), ⟨.addIceCandidate init, r⟩) ∈ log →
      ∃ j t', (xs j).sigKey = (xs i).sigKey ∧ (xs j).role = other (xs i).role ∧
        ((j, t'), ⟨.iceCandidate, some init⟩) ∈ log := by
  -- only the pump talks to the connection from outside
  have hpump : ∀ a, ((i, t), a) ∈ log → ¬ Outward a.op → t = .pump := by
    intro a ha hout
    by_contra ht
    exact hout (((xs i).outward cipher ht).of_mem (hrun.follows (i, t)) (mem_own.mpr ha))
  have hordered : t = .pump → Ordered cipher (xs i).sigKey (xs i).role (own (i, t) log) := by
    rintro rfl
    have hadm := hrun.admits_own (i, .pump) fun _ _ h => Network.truthful h
    exact ((hrun.follows (i, .pump)).safe_answered
      (safe_pump (Q := fun _ _ => True) (xs i).frames settled_nil fun _ _ => trivial) hadm).here
  -- whoever sealed it sealed something of its own
  have hsealer : ∀ a kind plain, ((i, t), a) ∈ log →
      heard cipher (xs i).sigKey (xs i).role a = some (kind, plain) →
      ∃ j t', (xs j).sigKey = (xs i).sigKey ∧ (xs j).role = other (xs i).role ∧
        ((kind = KIND_SDP ∧ ∃ sdp, plain = W.sdpJson.toVec sdp ∧
          ((xs j).role = .receiver ∧ ((j, t'), ⟨.createOffer, .ok sdp⟩) ∈ log ∨
            (xs j).role = .sender ∧ ((j, t'), ⟨.createAnswer, .ok sdp⟩) ∈ log)) ∨
          kind = KIND_ICE ∧ ∃ init, plain = W.iceJson.toVec init ∧
            ((j, t'), ⟨.iceCandidate, some init⟩) ∈ log) := by
    intro a kind plain ha hs
    obtain ⟨j, t', sealed, hkey, hmem⟩ := heard_sealed hrun ha hs
    have hown := (hrun.safe (j, t') ((xs j).sealsOwn cipher t')).here _ _ _ (mem_own.mpr hmem)
    rcases hown with ⟨haad, sdp, hp, ho⟩ | ⟨haad, init, hp, ho⟩
    · simp only [List.cons.injEq, and_true] at haad
      refine ⟨j, t', hkey, roleByte_inj haad.2.symm, .inl ⟨haad.1, sdp, hp, ?_⟩⟩
      simpa only [mem_own] using ho
    · simp only [List.cons.injEq, and_true] at haad
      exact ⟨j, t', hkey, roleByte_inj haad.2.symm, .inr ⟨haad.1, init, hp, mem_own.mp ho⟩⟩
  constructor
  -- what is applied is one of the descriptions heard
  · intro sdp r hmem
    have ht := hpump _ hmem id
    have happ : sdp ∈ applied (own (i, t) log) :=
      List.mem_filterMap.mpr ⟨_, mem_own.mpr hmem, rfl⟩
    obtain ⟨a, ha, hdesc⟩ := List.mem_filterMap.mp ((hordered ht).applied.subset happ)
    obtain ⟨⟨kind, plain⟩, hs, hsdp⟩ := Option.bind_eq_some_iff.mp hdesc
    obtain ⟨j, t', hkey, hrole, ⟨hk, sdp', hp, ho⟩ | ⟨hk, -⟩⟩ := hsealer a kind plain (mem_own.mp ha) hs
    · dsimp only at hsdp
      rw [if_pos hk, hp, W.sdpJson.fromSlice_toVec] at hsdp
      cases hsdp
      exact ⟨j, t', hkey, hrole, ho⟩
    · dsimp only at hsdp
      rw [hk, if_neg (by decide)] at hsdp
      cases hsdp
  · intro init r hmem
    have ht := hpump _ hmem id
    have hadd : init ∈ added (own (i, t) log) :=
      List.mem_filterMap.mpr ⟨_, mem_own.mpr hmem, rfl⟩
    obtain ⟨a, ha, hcand⟩ := List.mem_filterMap.mp ((hordered ht).added.subset hadd)
    obtain ⟨⟨kind, plain⟩, hs, hice⟩ := Option.bind_eq_some_iff.mp hcand
    obtain ⟨j, t', hkey, hrole, ⟨hk, -⟩ | ⟨hk, init', hp, ho⟩⟩ := hsealer a kind plain (mem_own.mp ha) hs
    · dsimp only at hice
      rw [hk, if_neg (by decide)] at hice
      cases hice
    · dsimp only at hice
      rw [if_pos hk, hp, W.iceJson.fromSlice_toVec] at hice
      cases hice
      exact ⟨j, t', hkey, hrole, ho⟩

end network

/-! ## Convergence -/

section convergence

/-- The candidate was sealed, and handed to the rendezvous. -/
def Published (topic : String) (role : Pake.Role) (kind : UInt8) (plain : Bytes) (tr : RtcTrace W) : Prop :=
  ∃ sealed r, ⟨.sealRandom [kind, roleByte role] plain, sealed⟩ ∈ tr ∧
    ⟨.publish topic (encodeFrame kind role sealed), r⟩ ∈ tr

theorem Published.mono {topic : String} {role : Pake.Role} {kind : UInt8} {plain : Bytes}
    {tr tr' : RtcTrace W} (h : Published topic role kind plain tr) (hsub : tr ⊆ tr') :
    Published topic role kind plain tr' := by
  obtain ⟨sealed, r, hs, hp⟩ := h
  exact ⟨sealed, r, hsub hs, hsub hp⟩

theorem publishSealed_follows {topic : String} {role : Pake.Role} {kind : UInt8} {plain : Bytes}
    {tr : RtcTrace W} {r : Except Anyhow Unit}
    (hf : Follows (publishSealed topic kind role plain) tr (.ret r)) :
    ∃ sealed, tr = [⟨.sealRandom [kind, roleByte role] plain, sealed⟩,
      ⟨.publish topic (encodeFrame kind role sealed), r⟩] := by
  cases hf with
  | cons hf =>
      cases hf with
      | cons hf =>
          cases hf with
          | nil => exact ⟨_, rfl⟩

/-- A callback that waits for its next candidate has published those before. -/
theorem published_of_iceCandidate {topic : String} {role : Pake.Role} {calls : Nat} {tr : RtcTrace W}
    {k : Option W.CandidateInit → RtcProg W Unit}
    (hf : Follows (wireLocalIce topic role calls) tr (.step .iceCandidate k)) {init : W.CandidateInit}
    (hmem : (⟨.iceCandidate, some init⟩ : Action (rtcEffects W)) ∈ tr) :
    Published topic role KIND_ICE (W.iceJson.toVec init) tr := by
  induction calls generalizing tr with
  | zero => cases hf
  | succ calls ih =>
      rcases hf.step_inv with ⟨rfl, -⟩ | ⟨r, tr', rfl, hrest⟩
      · cases hmem
      cases r with
      | none =>
          rcases List.mem_cons.mp hmem with he | hmem
          · cases he
          · exact (ih hrest hmem).mono (List.subset_cons_self _ _)
      | some init' =>
          -- the candidate is published before the next is asked for
          obtain ⟨r, tr₁, tr₂, rfl, h₁, h₂⟩ :=
            Follows.past hrest
              (only_publishSealed (P := (· ≠ .iceCandidate)) (by simp) (by simp) topic KIND_ICE role _)
              (not_not.mpr rfl)
          obtain ⟨sealed, rfl⟩ := publishSealed_follows h₁
          rcases List.mem_cons.mp hmem with he | hmem
          · cases he
            exact ⟨sealed, r, by simp, by simp⟩
          · have hlate : (⟨.iceCandidate, some init⟩ : Action (rtcEffects W)) ∈ tr₂ := by simpa using hmem
            exact (ih h₂ hlate).mono fun a ha => by simp [ha]

/-- An operation that ended well. -/
theorem try_follows {o : RtcOp W} {β : Type} {f : RtcOp.Res o → Except Anyhow β} {tr : RtcTrace W} {b : β}
    (hf : Follows (.step o fun r => ofExcept (f r) : RtcProg W β) tr (.ret b)) :
    ∃ r, f r = .ok b ∧ tr = [⟨o, r⟩] := by
  cases hf with
  | @cons _ _ r _ _ hf =>
      refine ⟨r, ?_⟩
      dsimp only at hf
      cases hr : f r with
      | error e =>
          rw [hr] at hf
          cases hf
      | ok b' =>
          rw [hr] at hf
          cases hf
          exact ⟨rfl, rfl⟩

/-- A finished offer is published. -/
theorem offer_follows {topic : String} {role : Pake.Role} {tr : RtcTrace W} {u : Unit}
    (hf : Follows (offer topic role) tr (.ret u)) :
    ∃ sdp, ⟨.createOffer, .ok sdp⟩ ∈ tr ∧ Published topic role KIND_SDP (W.sdpJson.toVec sdp) tr := by
  obtain ⟨sdp, tr₁, tr₂, rfl, h₁, h₂⟩ := Follows.of_bind_ret hf
  obtain ⟨-, tr₃, tr₄, rfl, -, h₄⟩ := Follows.of_bind_ret h₂
  obtain ⟨r, tr₅, tr₆, rfl, h₅, -⟩ := Follows.of_bind_ret h₄
  obtain ⟨r', rfl, rfl⟩ := try_follows h₁
  obtain ⟨sealed, rfl⟩ := publishSealed_follows h₅
  exact ⟨sdp, by simp, sealed, r, by simp, by simp⟩

def NotOpened (o : RtcOp W) : Prop := o ≠ .opened

theorem notOpened_try {o : RtcOp W} {β : Type} {f : RtcOp.Res o → Except Anyhow β} (ho : o ≠ .opened) :
    Only NotOpened (.step o fun r => ofExcept (f r) : RtcProg W β) := by
  refine ⟨ho, fun r => ?_⟩
  dsimp only
  cases f r <;> trivial

theorem notOpened_offer (topic : String) (role : Pake.Role) : Only NotOpened (offer (W := W) topic role) := by
  refine Only.bind (notOpened_try (by simp)) fun sdp => Only.bind (notOpened_try (by simp)) fun _ => ?_
  refine Only.bind (only_publishSealed (by simp [NotOpened]) (by simp [NotOpened]) ..) fun r => ?_
  cases r <;> trivial

/-- A receiver that waits for the channel has published its offer. -/
theorem published_of_opened {topic : String} {tr : RtcTrace W} {k : Unit → RtcProg W Unit}
    (hf : Follows (establish topic .receiver) tr (.step .opened k)) :
    ∃ sdp, ⟨.createOffer, .ok sdp⟩ ∈ tr ∧
      Published topic .receiver KIND_SDP (W.sdpJson.toVec sdp) tr := by
  have hopened : ¬ NotOpened (.opened : RtcOp W) := not_not.mpr rfl
  rw [establish, if_pos rfl, if_pos rfl] at hf
  obtain ⟨_, tr₁, tr₂, rfl, -, h₂⟩ :=
    Follows.past hf (notOpened_try (o := .createDataChannel "b2p") (by simp)) hopened
  obtain ⟨_, tr₃, tr₄, rfl, -, h₄⟩ :=
    Follows.past h₂ (notOpened_try (o := .subscribe topic) (by simp)) hopened
  obtain ⟨u, tr₅, tr₆, rfl, h₅, -⟩ := Follows.past h₄ (notOpened_offer topic .receiver) hopened
  obtain ⟨sdp, hoffer, hpub⟩ := offer_follows h₅
  exact ⟨sdp, by simp [hoffer], hpub.mono fun a ha => by simp [ha]⟩

variable {I : Type} [DecidableEq I] {xs : I → Endpoint}
  {log : List ((I × Task) × Action (rtcEffects W))} {qs : I × Task → RtcProg W Unit}

/-- The endpoint waits: for the channel, for a frame, and for a candidate. -/
structure Waits (qs : I × Task → RtcProg W Unit) (i : I) : Prop where
  establish : ∃ k, qs (i, .establish) = .step .opened k
  pump : ∃ k, qs (i, .pump) = .step .next k
  gather : ∃ k, qs (i, .gather) = .step .iceCandidate k

/-- Not refused by the peer connection, or by the rendezvous. -/
def Succeeds : Action (rtcEffects W) → Prop
  | ⟨.publish _ _, r⟩ => r = .ok ()
  | ⟨.setLocalDescription _, r⟩ => r = .ok ()
  | ⟨.setRemoteDescription _, r⟩ => r = .ok ()
  | ⟨.createAnswer, r⟩ => ∃ sdp, r = .ok sdp
  | _ => True

/-- All that was published to the topic of `i` by `j` has been delivered to `i`, in whatever order, and
perhaps more than once. -/
def DeliveredTo (xs : I → Endpoint) (log : List ((I × Task) × Action (rtcEffects W))) (j i : I) : Prop :=
  ∀ t frame, ((j, t), ⟨.publish (xs i).topic frame, .ok ()⟩) ∈ log →
    ((i, .pump), ⟨.next, some frame⟩) ∈ log

section pair

variable (hrun : Run (fun x => (xs x.1).prog cipher x.2) (Network cipher xs) log qs)
include hrun

/-- What one endpoint published, and the other was delivered, the other has heard. -/
theorem heard_of_published {i j : I} (hkey : (xs j).sigKey = (xs i).sigKey)
    (hrole : (xs j).role = other (xs i).role) (htopic : (xs j).topic = (xs i).topic)
    (hok : ∀ t a, ((j, t), a) ∈ log → Succeeds a) (hto : DeliveredTo xs log j i) {t : Task} {kind : UInt8}
    {plain : Bytes} (hp : Published (xs j).topic (xs j).role kind plain (own (j, t) log)) :
    ∃ a ∈ own (i, .pump) log, heard cipher (xs i).sigKey (xs i).role a = some (kind, plain) := by
  obtain ⟨sealed, r, hs, hp⟩ := hp
  rw [mem_own] at hs hp
  obtain ⟨before, later, -, nonce, hlen, hsealed⟩ := hrun.allowed_of_mem hs
  have hr : r = .ok () := hok t _ hp
  rw [hr, htopic] at hp
  refine ⟨_, mem_own.mpr (hto t _ hp), ?_⟩
  rw [heard, frameSays, encodeFrame, decodeFrame]
  dsimp only
  rw [if_pos (by rw [hrole]), hsealed, hkey, Cipher.openRandom_sealRandom cipher hlen]
  rfl

theorem settled_pump {i : I} (hw : Waits qs i) :
    ∃ pendingIce, Settled cipher (xs i).topic (xs i).sigKey (xs i).role pendingIce (own (i, .pump) log) := by
  obtain ⟨k, hk⟩ := hw.pump
  have hf := hrun.follows (i, .pump)
  rw [hk] at hf
  have hadm := hrun.admits_own (i, .pump) fun _ _ h => Network.truthful h
  obtain ⟨pendingIce, h⟩ := settled_of_next settled_nil hf hadm
  exact ⟨pendingIce, h⟩

/-- A description that was heard is applied. -/
theorem applied_of_heard {i : I} (hw : Waits qs i) (hok : ∀ t a, ((i, t), a) ∈ log → Succeeds a)
    {sdp : W.SessionDescription} (hs : ∃ a ∈ own (i, .pump) log,
      heard cipher (xs i).sigKey (xs i).role a = some (KIND_SDP, W.sdpJson.toVec sdp)) :
    ((i, .pump), ⟨.setRemoteDescription sdp, .ok ()⟩) ∈ log ∧ accepted (own (i, .pump) log) = true := by
  obtain ⟨a, ha, hs⟩ := hs
  obtain ⟨pendingIce, h⟩ := settled_pump hrun hw
  have hdesc : sdp ∈ described cipher (xs i).sigKey (xs i).role (own (i, .pump) log) := by
    refine List.mem_filterMap.mpr ⟨a, ha, ?_⟩
    rw [description, hs]
    exact W.sdpJson.fromSlice_toVec sdp
  rw [← h.applied] at hdesc
  obtain ⟨⟨o, r⟩, hmem, ho⟩ := List.mem_filterMap.mp hdesc
  cases o with
  | setRemoteDescription sdp' =>
      cases ho
      have hr : r = .ok () := hok .pump _ (mem_own.mp hmem)
      subst hr
      exact ⟨mem_own.mp hmem, List.any_eq_true.mpr ⟨_, hmem, rfl⟩⟩
  | _ => cases ho

/-- A candidate that was heard is handed over, once a description is accepted. -/
theorem added_of_heard {i : I} (hw : Waits qs i) (hacc : accepted (own (i, .pump) log) = true)
    {init : W.CandidateInit} (hs : ∃ a ∈ own (i, .pump) log,
      heard cipher (xs i).sigKey (xs i).role a = some (KIND_ICE, W.iceJson.toVec init)) :
    ∃ r, ((i, .pump), ⟨.addIceCandidate init, r⟩) ∈ log := by
  obtain ⟨a, ha, hs⟩ := hs
  obtain ⟨pendingIce, h⟩ := settled_pump hrun hw
  have hcand : init ∈ trickled cipher (xs i).sigKey (xs i).role (own (i, .pump) log) := by
    refine List.mem_filterMap.mpr ⟨a, ha, ?_⟩
    rw [candidate, hs]
    exact W.iceJson.fromSlice_toVec init
  rw [← h.added, h.flushed hacc, List.append_nil] at hcand
  obtain ⟨⟨o, r⟩, hmem, ho⟩ := List.mem_filterMap.mp hcand
  cases o with
  | addIceCandidate init' =>
      cases ho
      exact ⟨r, mem_own.mp hmem⟩
  | _ => cases ho

theorem published_gathered {i : I} (hw : Waits qs i) {init : W.CandidateInit}
    (h : ((i, .gather), ⟨.iceCandidate, some init⟩) ∈ log) :
    Published (xs i).topic (xs i).role KIND_ICE (W.iceJson.toVec init) (own (i, .gather) log) := by
  obtain ⟨k, hk⟩ := hw.gather
  have hf := hrun.follows (i, .gather)
  rw [hk] at hf
  exact published_of_iceCandidate hf (mem_own.mpr h)

/-- **The peers converge.** A receiver and a sender with one key and one topic, of whom everything
published was delivered to the other: in whatever order, however often, and among whatever else. When
both wait, and nothing they asked for was refused, each has applied the other's description, and each
was given every candidate the other gathered. -/
theorem peers_converge {i j : I} (hi : (xs i).role = .receiver) (hj : (xs j).role = .sender)
    (hkey : (xs j).sigKey = (xs i).sigKey) (htopic : (xs j).topic = (xs i).topic)
    (hwi : Waits qs i) (hwj : Waits qs j)
    (hoki : ∀ t a, ((i, t), a) ∈ log → Succeeds a) (hokj : ∀ t a, ((j, t), a) ∈ log → Succeeds a)
    (hij : DeliveredTo xs log i j) (hji : DeliveredTo xs log j i) :
    (∃ sdp, ((i, .establish), ⟨.createOffer, .ok sdp⟩) ∈ log ∧
      ((j, .pump), ⟨.setRemoteDescription sdp, .ok ()⟩) ∈ log) ∧
    (∃ sdp, ((j, .pump), ⟨.createAnswer, .ok sdp⟩) ∈ log ∧
      ((i, .pump), ⟨.setRemoteDescription sdp, .ok ()⟩) ∈ log) ∧
    (∀ init, ((i, .gather), ⟨.iceCandidate, some init⟩) ∈ log →
      ∃ r, ((j, .pump), ⟨.addIceCandidate init, r⟩) ∈ log) ∧
    ∀ init, ((j, .gather), ⟨.iceCandidate, some init⟩) ∈ log →
      ∃ r, ((i, .pump), ⟨.addIceCandidate init, r⟩) ∈ log := by
  have hrij : (xs i).role = other (xs j).role := by rw [hi, hj]; rfl
  have hrji : (xs j).role = other (xs i).role := by rw [hi, hj]; rfl
  -- the offer reaches the sender, who accepts it
  obtain ⟨offer, hoffer, hpub⟩ : ∃ sdp, ⟨.createOffer, .ok sdp⟩ ∈ own (i, .establish) log ∧
      Published (xs i).topic (xs i).role KIND_SDP (W.sdpJson.toVec sdp) (own (i, .establish) log) := by
    obtain ⟨k, hk⟩ := hwi.establish
    have hf := hrun.follows (i, .establish)
    rw [hk, Endpoint.prog, hi] at hf
    rw [hi]
    exact published_of_opened hf
  obtain ⟨happlied, hacc⟩ := applied_of_heard hrun hwj hokj
    (heard_of_published hrun hkey.symm hrij htopic.symm hoki hij hpub)
  -- the sender has answered it, and the receiver accepts the answer
  obtain ⟨pendingIce, hsettled⟩ := settled_pump hrun hwj
  obtain ⟨answer, hanswer, hpub'⟩ : ∃ sdp, ⟨.createAnswer, .ok sdp⟩ ∈ own (j, .pump) log ∧
      Published (xs j).topic (xs j).role KIND_SDP (W.sdpJson.toVec sdp) (own (j, .pump) log) := by
    rw [hj]
    rcases hsettled.answered hj hacc with ⟨e, he⟩ | ⟨sdp, hsdp, ⟨e, he⟩ | hp⟩
    · obtain ⟨sdp, hsdp⟩ := hokj .pump _ (mem_own.mp he)
      cases hsdp
    · have hr : Except.error e = .ok () := hokj .pump _ (mem_own.mp he)
      cases hr
    · exact ⟨sdp, hsdp, hp⟩
  obtain ⟨happlied', hacc'⟩ := applied_of_heard hrun hwi hoki
    (heard_of_published hrun hkey hrji htopic hokj hji hpub')
  refine ⟨⟨offer, mem_own.mp hoffer, happlied⟩, ⟨answer, mem_own.mp hanswer, happlied'⟩, ?_, ?_⟩
  · intro init h
    exact added_of_heard hrun hwj hacc (heard_of_published hrun hkey.symm hrij htopic.symm hoki hij
      (published_gathered hrun hwi h))
  · intro init h
    exact added_of_heard hrun hwi hacc' (heard_of_published hrun hkey hrji htopic hokj hji
      (published_gathered hrun hwj h))

end pair

end convergence

/-! ## One such run -/

section frames

variable {topic : String} {sigKey nonce : Bytes} {role : Pake.Role} {pendingIce : List W.CandidateInit}

theorem applyFrame_sdp {frame : Bytes} {sdp : W.SessionDescription}
    (h : frameSays cipher sigKey role frame = some (KIND_SDP, W.sdpJson.toVec sdp)) :
    applyFrame cipher topic sigKey role frame pendingIce = applySdp topic role sdp pendingIce := by
  have hs : description cipher sigKey role (⟨.next, some frame⟩ : Action (rtcEffects W)) = some sdp := by
    rw [description, heard, h]
    exact W.sdpJson.fromSlice_toVec sdp
  rcases applyFrame_cases cipher sigKey role topic frame pendingIce with
    ⟨-, hd, -⟩ | ⟨sdp', heq, hd, -⟩ | ⟨init, -, hd, -⟩
  · cases hs.symm.trans hd
  · cases hs.symm.trans hd
    exact heq
  · cases hs.symm.trans hd

theorem applyFrame_ice {frame : Bytes} {init : W.CandidateInit}
    (h : frameSays cipher sigKey role frame = some (KIND_ICE, W.iceJson.toVec init)) :
    applyFrame cipher topic sigKey role frame pendingIce = applyIce init pendingIce := by
  have hc : candidate cipher sigKey role (⟨.next, some frame⟩ : Action (rtcEffects W)) = some init := by
    rw [candidate, heard, h]
    exact W.iceJson.fromSlice_toVec init
  rcases applyFrame_cases cipher sigKey role topic frame pendingIce with
    ⟨-, -, hd⟩ | ⟨sdp, -, -, hd⟩ | ⟨init', heq, -, hd⟩
  · cases hc.symm.trans hd
  · cases hc.symm.trans hd
  · cases hc.symm.trans hd
    exact heq

theorem frameSays_encode (hlen : nonce.length = 24) (kind : UInt8) (plain : Bytes) :
    frameSays cipher sigKey role (encodeFrame kind (other role)
      (cipher.sealRandom sigKey nonce [kind, roleByte (other role)] plain)) = some (kind, plain) := by
  rw [frameSays, encodeFrame, decodeFrame]
  dsimp only
  rw [if_pos rfl, Cipher.openRandom_sealRandom cipher hlen]
  rfl

end frames

/-- Descriptions and candidates are numbers. -/
abbrev numbers : WebrtcLib := ⟨Nat, Nat, Codec.unary Nat, Codec.unary Nat⟩

/-- A receiver and a sender with one key and one topic. -/
def ends : Bool → Endpoint
  | false => ⟨.receiver, [1], "t", 3, 2⟩
  | true => ⟨.sender, [1], "t", 3, 2⟩

def endNonce : Bytes := List.replicate 24 0

/-- A number sealed by one of them. -/
def sealedBy (role : Pake.Role) (kind : UInt8) (n : Nat) : Bytes :=
  Cipher.ideal.sealRandom [1] endNonce [kind, roleByte role] ((Codec.unary Nat).toVec n)

def frameBy (role : Pake.Role) (kind : UInt8) (n : Nat) : Bytes :=
  encodeFrame kind role (sealedBy role kind n)

/-- The log in which the receiver's candidate overtakes its offer. -/
def endsLog : List ((Bool × Task) × Action (rtcEffects numbers)) :=
  [((false, .establish), ⟨.createDataChannel "b2p", .ok ()⟩),
    ((false, .establish), ⟨.subscribe "t", .ok ()⟩),
    ((true, .establish), ⟨.subscribe "t", .ok ()⟩),
    ((false, .establish), ⟨.createOffer, .ok (5 : Nat)⟩),
    ((false, .establish), ⟨.setLocalDescription (5 : Nat), .ok ()⟩),
    ((false, .establish), ⟨.sealRandom [KIND_SDP, 0] ((Codec.unary Nat).toVec 5),
      sealedBy .receiver KIND_SDP 5⟩),
    ((false, .gather), ⟨.iceCandidate, some (6 : Nat)⟩),
    ((false, .gather), ⟨.sealRandom [KIND_ICE, 0] ((Codec.unary Nat).toVec 6),
      sealedBy .receiver KIND_ICE 6⟩),
    ((false, .gather), ⟨.publish "t" (frameBy .receiver KIND_ICE 6), .ok ()⟩),
    ((false, .establish), ⟨.publish "t" (frameBy .receiver KIND_SDP 5), .ok ()⟩),
    ((true, .pump), ⟨.next, some (frameBy .receiver KIND_ICE 6)⟩),
    ((true, .pump), ⟨.remoteDescription, false⟩),
    ((true, .pump), ⟨.next, some (frameBy .receiver KIND_SDP 5)⟩),
    ((true, .pump), ⟨.setRemoteDescription (5 : Nat), .ok ()⟩),
    ((true, .pump), ⟨.addIceCandidate (6 : Nat), .ok ()⟩),
    ((true, .pump), ⟨.createAnswer, .ok (7 : Nat)⟩),
    ((true, .pump), ⟨.setLocalDescription (7 : Nat), .ok ()⟩),
    ((true, .pump), ⟨.sealRandom [KIND_SDP, 1] ((Codec.unary Nat).toVec 7), sealedBy .sender KIND_SDP 7⟩),
    ((true, .pump), ⟨.publish "t" (frameBy .sender KIND_SDP 7), .ok ()⟩),
    ((false, .pump), ⟨.next, some (frameBy .sender KIND_SDP 7)⟩),
    ((false, .pump), ⟨.setRemoteDescription (7 : Nat), .ok ()⟩)]

/-- What is left of the tasks after it. -/
def endsRest : Bool × Task → RtcProg numbers Unit
  | (_, .establish) => awaitOpen
  | (false, .pump) => pump Cipher.ideal "t" [1] .receiver 2 []
  | (true, .pump) => pump Cipher.ideal "t" [1] .sender 1 []
  | (false, .gather) => wireLocalIce "t" .receiver 1
  | (true, .gather) => wireLocalIce "t" .sender 2

theorem frameBy_heard (role : Pake.Role) (kind : UInt8) (n : Nat) :
    frameSays Cipher.ideal [1] role (frameBy (other role) kind n)
      = some (kind, (Codec.unary Nat).toVec n) :=
  frameSays_encode (by rw [endNonce, List.length_replicate]) kind _

theorem follows_endsLog (x : Bool × Task) :
    Follows ((ends x.1).prog (W := numbers) Cipher.ideal x.2) (own x endsLog) (endsRest x) := by
  obtain ⟨b, t⟩ := x
  cases b <;> cases t
  · exact .cons (.cons (.cons (.cons (.cons (.cons (.nil _))))))
  · refine .cons ?_
    show Follows (applyFrame Cipher.ideal "t" [1] .receiver (frameBy .sender KIND_SDP 7) [] >>= _) _ _
    rw [applyFrame_sdp (frameBy_heard .receiver KIND_SDP 7)]
    exact .cons (.nil _)
  · exact .cons (.cons (.cons (.nil _)))
  · exact .cons (.nil _)
  · refine .cons ?_
    show Follows (applyFrame Cipher.ideal "t" [1] .sender (frameBy .receiver KIND_ICE 6) [] >>= _) _ _
    rw [applyFrame_ice (frameBy_heard .sender KIND_ICE 6)]
    refine .cons (.cons ?_)
    show Follows (applyFrame Cipher.ideal "t" [1] .sender (frameBy .receiver KIND_SDP 5) _ >>= _) _ _
    rw [applyFrame_sdp (frameBy_heard .sender KIND_SDP 5)]
    exact .cons (.cons (.cons (.cons (.cons (.cons (.nil _))))))
  · exact .nil _

/-- A frame of one of them, opened by the other, is one that was sealed. -/
theorem frameBy_opens {role : Pake.Role} {kind kind' r : UInt8} {n : Nat} {payload plain : Bytes}
    (hdec : decodeFrame (frameBy role kind n) = some (kind', r, payload))
    (hopen : Cipher.ideal.openRandom [1] [kind', r] payload = some plain) :
    kind' = kind ∧ r = roleByte role ∧ plain = (Codec.unary Nat).toVec n := by
  rw [frameBy, encodeFrame, decodeFrame] at hdec
  cases hdec
  rw [sealedBy, Cipher.openRandom_sealRandom _ (by rw [endNonce, List.length_replicate])] at hopen
  exact ⟨rfl, rfl, (Option.some.inj hopen).symm⟩

theorem run_endsLog :
    Run (fun x : Bool × Task => (ends x.1).prog (W := numbers) Cipher.ideal x.2)
      (Network Cipher.ideal ends) endsLog endsRest := by
  have hnonce : endNonce.length = 24 := by rw [endNonce, List.length_replicate]
  refine ⟨follows_endsLog, ?_⟩
  refine ⟨trivial, trivial, trivial, trivial, trivial, ⟨endNonce, hnonce, rfl⟩, trivial,
    ⟨endNonce, hnonce, rfl⟩, trivial, trivial, ?_, rfl, ?_, trivial, trivial, trivial, trivial,
    ⟨endNonce, hnonce, rfl⟩, trivial, ?_, trivial, trivial⟩
  · intro kind r payload plain hdec hopen
    obtain ⟨rfl, rfl, rfl⟩ := frameBy_opens hdec hopen
    exact ⟨false, .gather, sealedBy .receiver KIND_ICE 6, rfl, by simp [roleByte]⟩
  · intro kind r payload plain hdec hopen
    obtain ⟨rfl, rfl, rfl⟩ := frameBy_opens hdec hopen
    exact ⟨false, .establish, sealedBy .receiver KIND_SDP 5, rfl, by simp [roleByte]⟩
  · intro kind r payload plain hdec hopen
    obtain ⟨rfl, rfl, rfl⟩ := frameBy_opens hdec hopen
    exact ⟨true, .pump, sealedBy .sender KIND_SDP 7, rfl, by simp [roleByte]⟩

/-- … which is one the receiver gathered. -/
theorem applied_from_peer_endsLog :
    ∃ j t, (ends j).sigKey = [1] ∧ (ends j).role = .receiver ∧
      ((j, t), ⟨.iceCandidate, some (6 : Nat)⟩) ∈ endsLog :=
  (applied_from_peer run_endsLog true .pump).2 6 (.ok ()) (by simp [endsLog])

theorem succeeds_endsLog {x : Bool × Task} {a : Action (rtcEffects numbers)} (h : (x, a) ∈ endsLog) :
    Succeeds a := by
  have hall : ∀ e ∈ endsLog, Succeeds e.2 := by simp [endsLog, Succeeds]
  exact hall (x, a) h

theorem waits_endsLog (b : Bool) : Waits endsRest b := by
  cases b
  · exact ⟨⟨_, rfl⟩, ⟨_, rfl⟩, ⟨_, rfl⟩⟩
  · exact ⟨⟨_, rfl⟩, ⟨_, rfl⟩, ⟨_, rfl⟩⟩

theorem deliveredTo_endsLog (b : Bool) : DeliveredTo ends endsLog b (!b) := by
  intro t frame h
  cases b
  · have hframe : frame = frameBy .receiver KIND_ICE 6 ∨ frame = frameBy .receiver KIND_SDP 5 := by
      simp [endsLog] at h
      grind
    rcases hframe with rfl | rfl <;> simp [endsLog]
  · have hframe : frame = frameBy .sender KIND_SDP 7 := by
      simp [endsLog] at h
      grind
    subst hframe
    simp [endsLog]

/-- Both have applied the other's description in it. -/
theorem peers_converge_endsLog :
    (∃ sdp, ((false, .establish), ⟨.createOffer, .ok sdp⟩) ∈ endsLog ∧
      ((true, .pump), ⟨.setRemoteDescription sdp, .ok ()⟩) ∈ endsLog) ∧
    ∃ sdp, ((true, .pump), ⟨.createAnswer, .ok sdp⟩) ∈ endsLog ∧
      ((false, .pump), ⟨.setRemoteDescription sdp, .ok ()⟩) ∈ endsLog :=
  have h := peers_converge (i := false) (j := true) run_endsLog rfl rfl rfl rfl (waits_endsLog false)
    (waits_endsLog true) (fun _ _ => succeeds_endsLog) (fun _ _ => succeeds_endsLog)
    (deliveredTo_endsLog false) (deliveredTo_endsLog true)
  ⟨h.1, h.2.1⟩

end Webrtc
end B2p
