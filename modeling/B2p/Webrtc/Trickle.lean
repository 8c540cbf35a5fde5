import B2p.Webrtc.Signaling

/-!
# What the pump makes of the frames it reads

Candidates may arrive before the description they belong to, and the peer connection refuses them
until it has one; the pump keeps them back. Whatever is delivered, and whatever the peer connection
answers, each candidate is handed over once, in the order of arrival, none of them before a description
was accepted, and none is left behind once one was.

* `heard` — what a delivered frame says: it is the peer's, and it opens.
* `described`, `trickled` — the descriptions and candidates heard; `applied`, `added` — those handed to
  the peer connection.
* `Settled` — the invariant between two frames; `Ordered` — what is left of it within one.
-/

namespace B2p
namespace Webrtc

open Interaction Prog
open Handshake (roleByte other encodeFrame decodeFrame)

variable {W : WebrtcLib} {cipher : Cipher}

abbrev RtcTrace (W : WebrtcLib) := List (Action (rtcEffects W))

/-! ## Reading a trace -/

/-- What a frame says to an endpoint: its kind and its plaintext, if it is from the other role and
opens under the signalling key. -/
def frameSays (cipher : Cipher) (sigKey : Bytes) (role : Pake.Role) (frame : Bytes) :
    Option (UInt8 × Bytes) :=
  match decodeFrame frame with
  | some (kind, r, payload) =>
      if r = roleByte (other role) then
        (cipher.openRandom sigKey [kind, r] payload).map fun plain => (kind, plain)
      else none
  | none => none

/-- The same of an action. -/
def heard (cipher : Cipher) (sigKey : Bytes) (role : Pake.Role) :
    Action (rtcEffects W) → Option (UInt8 × Bytes)
  | ⟨.next, some frame⟩ => frameSays cipher sigKey role frame
  | _ => none

/-- The description an action brings. -/
def description (cipher : Cipher) (sigKey : Bytes) (role : Pake.Role) (a : Action (rtcEffects W)) :
    Option W.SessionDescription :=
  (heard cipher sigKey role a).bind fun (kind, plain) =>
    if kind = KIND_SDP then W.sdpJson.fromSlice plain else none

/-- The candidate an action brings. -/
def candidate (cipher : Cipher) (sigKey : Bytes) (role : Pake.Role) (a : Action (rtcEffects W)) :
    Option W.CandidateInit :=
  (heard cipher sigKey role a).bind fun (kind, plain) =>
    if kind = KIND_ICE then W.iceJson.fromSlice plain else none

/-- The descriptions the peer's frames have brought, in order. -/
def described (cipher : Cipher) (sigKey : Bytes) (role : Pake.Role) (tr : RtcTrace W) :
    List W.SessionDescription :=
  tr.filterMap (description cipher sigKey role)

/-- The candidates the peer's frames have brought, in order. -/
def trickled (cipher : Cipher) (sigKey : Bytes) (role : Pake.Role) (tr : RtcTrace W) : List W.CandidateInit :=
  tr.filterMap (candidate cipher sigKey role)

/-- The descriptions handed to the peer connection. -/
def applied (tr : RtcTrace W) : List W.SessionDescription :=
  tr.filterMap fun
    | ⟨.setRemoteDescription sdp, _⟩ => some sdp
    | _ => none

/-- The candidates handed to the peer connection. -/
def added (tr : RtcTrace W) : List W.CandidateInit :=
  tr.filterMap fun
    | ⟨.addIceCandidate init, _⟩ => some init
    | _ => none

/-- A remote description was accepted. -/
def accepted (tr : RtcTrace W) : Bool :=
  tr.any fun
    | ⟨.setRemoteDescription _, .ok _⟩ => true
    | _ => false

/-- What the peer connection promises: it has a remote description from the first that it accepted
on. -/
def Truthful (tr : RtcTrace W) : Action (rtcEffects W) → Prop
  | ⟨.remoteDescription, b⟩ => b = accepted tr
  | _ => True

/-- An action that neither brings anything nor hands anything over. -/
def Quiet (cipher : Cipher) (sigKey : Bytes) (role : Pake.Role) (a : Action (rtcEffects W)) : Prop :=
  description cipher sigKey role a = none ∧ candidate cipher sigKey role a = none ∧
    applied [a] = [] ∧ added [a] = [] ∧ accepted [a] = false

section lists

variable {sigKey : Bytes} {role : Pake.Role}

theorem described_snoc (tr : RtcTrace W) (a : Action (rtcEffects W)) :
    described cipher sigKey role (tr ++ [a])
      = described cipher sigKey role tr ++ (description cipher sigKey role a).toList := by
  rw [described, List.filterMap_append, ← described]
  cases h : description cipher sigKey role a <;> simp [h]

theorem trickled_snoc (tr : RtcTrace W) (a : Action (rtcEffects W)) :
    trickled cipher sigKey role (tr ++ [a])
      = trickled cipher sigKey role tr ++ (candidate cipher sigKey role a).toList := by
  rw [trickled, List.filterMap_append, ← trickled]
  cases h : candidate cipher sigKey role a <;> simp [h]

theorem applied_append (tr tr' : RtcTrace W) : applied (tr ++ tr') = applied tr ++ applied tr' :=
  List.filterMap_append ..

theorem added_append (tr tr' : RtcTrace W) : added (tr ++ tr') = added tr ++ added tr' :=
  List.filterMap_append ..

theorem accepted_append (tr tr' : RtcTrace W) :
    accepted (tr ++ tr') = (accepted tr || accepted tr') :=
  List.any_append

/-- A frame that says nothing useful is quiet. -/
theorem quiet_next {r : Option Bytes}
    (hs : description cipher sigKey role (⟨.next, r⟩ : Action (rtcEffects W)) = none)
    (hc : candidate cipher sigKey role (⟨.next, r⟩ : Action (rtcEffects W)) = none) :
    Quiet cipher sigKey role (⟨.next, r⟩ : Action (rtcEffects W)) :=
  ⟨hs, hc, rfl, rfl, rfl⟩

end lists

/-! ## The invariant -/

/-- Within a frame: what was handed over is the beginning of what was heard, and no candidate went
ahead of a description. -/
structure Ordered (cipher : Cipher) (sigKey : Bytes) (role : Pake.Role) (tr : RtcTrace W) : Prop where
  applied : applied tr <+: described cipher sigKey role tr
  added : added tr <+: trickled cipher sigKey role tr
  waits : accepted tr = false → Webrtc.added tr = []

/-- The Sender has done what it can to answer a description it accepted: unless the peer connection
would not, it has handed an answer to the rendezvous. -/
def Answered (topic : String) (tr : RtcTrace W) : Prop :=
  (∃ e, ⟨.createAnswer, .error e⟩ ∈ tr) ∨
    ∃ sdp, ⟨.createAnswer, .ok sdp⟩ ∈ tr ∧
      ((∃ e, ⟨.setLocalDescription sdp, .error e⟩ ∈ tr) ∨
        ∃ sealed r, ⟨.sealRandom [KIND_SDP, roleByte .sender] (W.sdpJson.toVec sdp), sealed⟩ ∈ tr ∧
          ⟨.publish topic (encodeFrame KIND_SDP .sender sealed), r⟩ ∈ tr)

/-- Between two frames: all that was heard is handed over, but for the candidates kept back. -/
structure Settled (cipher : Cipher) (topic : String) (sigKey : Bytes) (role : Pake.Role)
    (pendingIce : List W.CandidateInit) (tr : RtcTrace W) : Prop where
  applied : applied tr = described cipher sigKey role tr
  added : added tr ++ pendingIce = trickled cipher sigKey role tr
  waits : accepted tr = false → Webrtc.added tr = []
  flushed : accepted tr = true → pendingIce = []
  answered : role = .sender → accepted tr = true → Answered topic tr

section

variable {topic : String} {sigKey : Bytes} {role : Pake.Role} {pendingIce : List W.CandidateInit}
  {tr : RtcTrace W} {a : Action (rtcEffects W)}

theorem Settled.ordered (h : Settled cipher topic sigKey role pendingIce tr) :
    Ordered cipher sigKey role tr :=
  ⟨⟨[], by rw [List.append_nil, h.applied]⟩, ⟨pendingIce, h.added⟩, h.waits⟩

theorem settled_nil : Settled cipher topic sigKey role ([] : List W.CandidateInit) [] :=
  ⟨rfl, rfl, fun _ => rfl, fun _ => rfl, fun _ h => by cases h⟩

theorem Answered.append (h : Answered (W := W) topic tr) (tr' : RtcTrace W) :
    Answered topic (tr ++ tr') := by
  have hmem : ∀ a ∈ tr, a ∈ tr ++ tr' := fun a ha => List.mem_append_left _ ha
  rcases h with ⟨e, he⟩ | ⟨sdp, hsdp, ⟨e, he⟩ | ⟨sealed, r, hs, hp⟩⟩
  · exact .inl ⟨e, hmem _ he⟩
  · exact .inr ⟨sdp, hmem _ hsdp, .inl ⟨e, hmem _ he⟩⟩
  · exact .inr ⟨sdp, hmem _ hsdp, .inr ⟨sealed, r, hmem _ hs, hmem _ hp⟩⟩

/-- A quiet action changes nothing between two frames. -/
theorem Settled.quiet (h : Settled cipher topic sigKey role pendingIce tr)
    (ha : Quiet cipher sigKey role a) : Settled cipher topic sigKey role pendingIce (tr ++ [a]) := by
  obtain ⟨hs, hc, happ, hadd, hacc⟩ := ha
  refine ⟨?_, ?_, ?_, ?_, ?_⟩
  · rw [applied_append, happ, List.append_nil, described_snoc, hs, h.applied]
    exact (List.append_nil _).symm
  · rw [added_append, hadd, List.append_nil, trickled_snoc, hc, h.added]
    exact (List.append_nil _).symm
  · rw [accepted_append, hacc, Bool.or_false, added_append, hadd, List.append_nil]
    exact h.waits
  · rw [accepted_append, hacc, Bool.or_false]
    exact h.flushed
  · rw [accepted_append, hacc, Bool.or_false]
    exact fun hr ht => (h.answered hr ht).append _

/-- … nor within one. -/
theorem Ordered.quiet (h : Ordered cipher sigKey role tr) (ha : Quiet cipher sigKey role a) :
    Ordered cipher sigKey role (tr ++ [a]) := by
  obtain ⟨hs, hc, happ, hadd, hacc⟩ := ha
  refine ⟨?_, ?_, ?_⟩
  · rw [applied_append, happ, List.append_nil, described_snoc, hs]
    simpa using h.applied
  · rw [added_append, hadd, List.append_nil, trickled_snoc, hc]
    simpa using h.added
  · rw [accepted_append, hacc, Bool.or_false, added_append, hadd, List.append_nil]
    exact h.waits

end

/-! ## One frame -/

/-- After an accepted description, while the candidates kept back are handed over. -/
structure Flushing (cipher : Cipher) (sigKey : Bytes) (role : Pake.Role) (pendingIce : List W.CandidateInit)
    (tr : RtcTrace W) : Prop where
  applied : applied tr = described cipher sigKey role tr
  added : added tr ++ pendingIce = trickled cipher sigKey role tr
  accepted : accepted tr = true

section frame

variable {topic : String} {sigKey : Bytes} {role : Pake.Role} {pendingIce : List W.CandidateInit}
  {tr : RtcTrace W} {a : Action (rtcEffects W)} {Q : Except Anyhow Unit → RtcTrace W → Prop}

theorem Flushing.ordered (h : Flushing cipher sigKey role pendingIce tr) :
    Ordered cipher sigKey role tr :=
  ⟨⟨[], by rw [List.append_nil, h.applied]⟩, ⟨pendingIce, h.added⟩,
    fun hno => by rw [h.accepted] at hno; cases hno⟩

theorem Flushing.quiet (h : Flushing cipher sigKey role pendingIce tr)
    (ha : Quiet cipher sigKey role a) : Flushing cipher sigKey role pendingIce (tr ++ [a]) := by
  obtain ⟨hs, hc, happ, hadd, hacc⟩ := ha
  refine ⟨?_, ?_, ?_⟩
  · rw [applied_append, happ, List.append_nil, described_snoc, hs, h.applied]
    exact (List.append_nil _).symm
  · rw [added_append, hadd, List.append_nil, trickled_snoc, hc, h.added]
    exact (List.append_nil _).symm
  · rw [accepted_append, h.accepted, Bool.true_or]

/-- The candidates kept back are handed over, in order. -/
theorem safe_drain (h : Flushing cipher sigKey role pendingIce tr)
    (hQ : ∀ tr, Flushing cipher sigKey role [] tr → Q (.ok ()) tr) :
    Safe (answered Truthful) (Ordered cipher sigKey role) Q (drain pendingIce) tr := by
  induction pendingIce generalizing tr with
  | nil => exact ⟨h.ordered, hQ tr h⟩
  | cons init rest ih =>
      refine ⟨h.ordered, ?_⟩
      rintro r _ ⟨-, rfl⟩
      apply ih
      refine ⟨?_, ?_, ?_⟩
      · rw [applied_append, described_snoc, h.applied]
        rfl
      · rw [added_append, trickled_snoc, ← h.added]
        simp [added, candidate, heard]
      · rw [accepted_append, h.accepted, Bool.true_or]

/-- The answer changes nothing of it, and leaves the description answered. -/
theorem safe_answer (h : Flushing cipher sigKey role [] tr)
    (hQ : ∀ tr, Flushing cipher sigKey role [] tr → Answered topic tr → Q (.ok ()) tr) :
    Safe (answered Truthful) (Ordered cipher sigKey role) Q (answer topic .sender) tr := by
  refine ⟨h.ordered, ?_⟩
  rintro r _ ⟨-, rfl⟩
  -- none of the four operations is one the pump accounts for
  have h₁ := h.quiet (a := ⟨.createAnswer, r⟩) ⟨rfl, rfl, rfl, rfl, rfl⟩
  cases r with
  | error e => exact ⟨h₁.ordered, hQ _ h₁ (.inl ⟨e, by simp⟩)⟩
  | ok sdp =>
      refine ⟨h₁.ordered, ?_⟩
      rintro r _ ⟨-, rfl⟩
      have h₂ := h₁.quiet (a := ⟨.setLocalDescription sdp, r⟩) ⟨rfl, rfl, rfl, rfl, rfl⟩
      cases r with
      | error e => exact ⟨h₂.ordered, hQ _ h₂ (.inr ⟨sdp, by simp, .inl ⟨e, by simp⟩⟩)⟩
      | ok u =>
          refine ⟨h₂.ordered, ?_⟩
          rintro sealed _ ⟨-, rfl⟩
          have h₃ := h₂.quiet
            (a := ⟨.sealRandom [KIND_SDP, roleByte .sender] (W.sdpJson.toVec sdp), sealed⟩)
            ⟨rfl, rfl, rfl, rfl, rfl⟩
          refine ⟨h₃.ordered, ?_⟩
          rintro r _ ⟨-, rfl⟩
          have h₄ := h₃.quiet
            (a := ⟨.publish topic (encodeFrame KIND_SDP .sender sealed), r⟩)
            ⟨rfl, rfl, rfl, rfl, rfl⟩
          exact ⟨h₄.ordered, hQ _ h₄ (.inr ⟨sdp, by simp, .inr ⟨sealed, r, by simp, by simp⟩⟩)⟩

variable (cipher sigKey role) in
/-- What a frame makes the pump do is decided by what it brings. -/
theorem applyFrame_cases (topic : String) (frame : Bytes) (pendingIce : List W.CandidateInit) :
    (applyFrame cipher topic sigKey role frame pendingIce = .ret pendingIce ∧
      description cipher sigKey role (⟨.next, some frame⟩ : Action (rtcEffects W)) = none ∧
      candidate cipher sigKey role (⟨.next, some frame⟩ : Action (rtcEffects W)) = none) ∨
    (∃ sdp, applyFrame cipher topic sigKey role frame pendingIce = applySdp topic role sdp pendingIce ∧
      description cipher sigKey role (⟨.next, some frame⟩ : Action (rtcEffects W)) = some sdp ∧
      candidate cipher sigKey role (⟨.next, some frame⟩ : Action (rtcEffects W)) = none) ∨
    ∃ init, applyFrame cipher topic sigKey role frame pendingIce = applyIce init pendingIce ∧
      description cipher sigKey role (⟨.next, some frame⟩ : Action (rtcEffects W)) = none ∧
      candidate cipher sigKey role (⟨.next, some frame⟩ : Action (rtcEffects W)) = some init := by
  rw [applyFrame, description, candidate, heard, frameSays]
  cases hdec : decodeFrame frame with
  | none => exact .inl ⟨rfl, rfl, rfl⟩
  | some f =>
      obtain ⟨kind, r, payload⟩ := f
      dsimp only
      -- the frame of another role, or one that does not open, is skipped
      by_cases hr : r = roleByte (other role)
      swap
      · rw [if_neg hr, if_pos hr]
        exact .inl ⟨rfl, rfl, rfl⟩
      rw [if_pos hr, if_neg (not_not.mpr hr)]
      cases hopen : cipher.openRandom sigKey [kind, r] payload with
      | none => exact .inl ⟨rfl, rfl, rfl⟩
      | some plain =>
          rw [Option.map_some, Option.bind_some, Option.bind_some]
          dsimp only
          -- what is left is told apart by the kind
          by_cases hsdp : kind = KIND_SDP
          · have hice : kind ≠ KIND_ICE := by rw [hsdp]; decide
            rw [if_pos hsdp, if_pos hsdp, if_neg hice]
            cases W.sdpJson.fromSlice plain with
            | none => exact .inl ⟨rfl, rfl, rfl⟩
            | some sdp => exact .inr (.inl ⟨sdp, rfl, rfl, rfl⟩)
          rw [if_neg hsdp, if_neg hsdp]
          by_cases hice : kind = KIND_ICE
          · rw [if_pos hice, if_pos hice]
            cases W.iceJson.fromSlice plain with
            | none => exact .inl ⟨rfl, rfl, rfl⟩
            | some init => exact .inr (.inr ⟨init, rfl, rfl, rfl⟩)
          · rw [if_neg hice, if_neg hice]
            exact .inl ⟨rfl, rfl, rfl⟩

/-- A description is applied, or refused. -/
theorem safe_applySdp {Q : Except Anyhow (List W.CandidateInit) → RtcTrace W → Prop}
    {sdp : W.SessionDescription} (h : Settled cipher topic sigKey role pendingIce tr)
    (hs : description cipher sigKey role a = some sdp) (hc : candidate cipher sigKey role a = none)
    (hap : applied [a] = []) (had : added [a] = []) (hac : accepted [a] = false)
    (hQ : ∀ tr pendingIce, Settled cipher topic sigKey role pendingIce tr → Q (.ok pendingIce) tr) :
    Safe (answered Truthful) (Ordered cipher sigKey role) Q (applySdp topic role sdp pendingIce)
      (tr ++ [a]) := by
  -- the frame was taken but not applied yet: applied is a prefix of described
  refine ⟨⟨?_, ?_, ?_⟩, ?_⟩
  · rw [applied_append, hap, List.append_nil, described_snoc, h.applied]
    exact List.prefix_append _ _
  · rw [added_append, had, List.append_nil, trickled_snoc, hc, ← h.added]
    exact ⟨pendingIce, (List.append_nil _).symm⟩
  · rw [accepted_append, hac, Bool.or_false, added_append, had, List.append_nil]
    exact h.waits
  rintro r _ ⟨-, rfl⟩
  have happlied : applied (tr ++ [a] ++ [⟨.setRemoteDescription sdp, r⟩])
      = described cipher sigKey role (tr ++ [a] ++ [⟨.setRemoteDescription sdp, r⟩]) := by
    rw [applied_append, applied_append, hap, List.append_nil, described_snoc, described_snoc, hs, h.applied]
    exact (List.append_nil _).symm
  have hadded : added (tr ++ [a] ++ [⟨.setRemoteDescription sdp, r⟩]) ++ pendingIce
      = trickled cipher sigKey role (tr ++ [a] ++ [⟨.setRemoteDescription sdp, r⟩]) := by
    rw [added_append, added_append, had, List.append_nil, trickled_snoc, trickled_snoc, hc, ← h.added]
    simp [added, candidate, heard]
  -- both sides now agree; the rest depends on whether it was accepted
  cases r with
  | error e =>
      have hacc : accepted (tr ++ [a] ++ [⟨.setRemoteDescription sdp, .error e⟩]) = accepted tr := by
        rw [accepted_append, accepted_append, hac, Bool.or_false]
        exact Bool.or_false _
      have hsettled : Settled cipher topic sigKey role pendingIce
          (tr ++ [a] ++ [⟨.setRemoteDescription sdp, .error e⟩]) := by
        refine ⟨happlied, hadded, ?_, ?_, ?_⟩
        · rw [hacc, added_append, added_append, had, List.append_nil]
          intro hno
          rw [h.waits hno]
          rfl
        · rw [hacc]
          exact h.flushed
        · rw [hacc]
          exact fun hr ht => ((h.answered hr ht).append _).append _
      exact ⟨hsettled.ordered, hQ _ _ hsettled⟩
  | ok u =>
      -- accepted: the candidates kept back go in
      have hflushing : Flushing cipher sigKey role pendingIce
          (tr ++ [a] ++ [⟨.setRemoteDescription sdp, .ok u⟩]) :=
        ⟨happlied, hadded, by rw [accepted_append]; exact Bool.or_true _⟩
      refine Safe.bind (safe_drain hflushing ?_)
      intro tr hflushed
      by_cases hrole : role = .sender
      · rw [if_pos hrole]
        subst hrole
        refine Safe.bind (safe_answer hflushed ?_)
        intro tr hflushed hanswered
        have hsettled : Settled cipher topic sigKey .sender [] tr := by
          refine ⟨hflushed.applied, hflushed.added, ?_, fun _ => rfl, fun _ _ => hanswered⟩
          intro hno
          rw [hflushed.accepted] at hno
          cases hno
        exact ⟨hsettled.ordered, hQ _ _ hsettled⟩
      · rw [if_neg hrole]
        have hsettled : Settled cipher topic sigKey role [] tr := by
          refine ⟨hflushed.applied, hflushed.added, ?_, fun _ => rfl, fun hr => absurd hr hrole⟩
          intro hno
          rw [hflushed.accepted] at hno
          cases hno
        exact ⟨hsettled.ordered, hQ _ _ hsettled⟩

/-- A candidate is handed over, or kept back. -/
theorem safe_applyIce {Q : Except Anyhow (List W.CandidateInit) → RtcTrace W → Prop}
    {init : W.CandidateInit} (h : Settled cipher topic sigKey role pendingIce tr)
    (hs : description cipher sigKey role a = none) (hc : candidate cipher sigKey role a = some init)
    (hap : applied [a] = []) (had : added [a] = []) (hac : accepted [a] = false)
    (hQ : ∀ tr pendingIce, Settled cipher topic sigKey role pendingIce tr → Q (.ok pendingIce) tr) :
    Safe (answered Truthful) (Ordered cipher sigKey role) Q (applyIce init pendingIce) (tr ++ [a]) := by
  have hacc : accepted (tr ++ [a]) = accepted tr := by
    rw [accepted_append, hac, Bool.or_false]
  have happlied : applied (tr ++ [a]) = described cipher sigKey role (tr ++ [a]) := by
    rw [applied_append, hap, List.append_nil, described_snoc, hs, h.applied]
    exact (List.append_nil _).symm
  have hadded : added (tr ++ [a]) = added tr := by
    rw [added_append, had, List.append_nil]
  have htrickled : trickled cipher sigKey role (tr ++ [a]) = added tr ++ pendingIce ++ [init] := by
    rw [trickled_snoc, hc, ← h.added]
    rfl
  have hwaits : accepted (tr ++ [a]) = false → added (tr ++ [a]) = [] := by
    rw [hacc, hadded]
    exact h.waits
  refine ⟨⟨⟨[], by rw [List.append_nil, happlied]⟩, ?_, hwaits⟩, ?_⟩
  · rw [hadded, htrickled, List.append_assoc]
    exact List.prefix_append _ _
  -- `b` says whether a description was accepted before
  rintro b _ ⟨hb, rfl⟩
  replace hb : b = accepted tr := hb.trans hacc
  have happlied₁ : applied (tr ++ [a] ++ [⟨.remoteDescription, b⟩])
      = described cipher sigKey role (tr ++ [a] ++ [⟨.remoteDescription, b⟩]) := by
    rw [applied_append, described_snoc, happlied]
    rfl
  have hadded₁ : added (tr ++ [a] ++ [⟨.remoteDescription, b⟩]) = added tr := by
    rw [added_append, hadded]
    exact List.append_nil _
  have htrickled₁ : trickled cipher sigKey role (tr ++ [a] ++ [⟨.remoteDescription, b⟩])
      = added tr ++ pendingIce ++ [init] := by
    rw [trickled_snoc, htrickled]
    exact List.append_nil _
  have hacc₁ : accepted (tr ++ [a] ++ [⟨.remoteDescription, b⟩]) = accepted tr := by
    rw [accepted_append, hacc]
    exact Bool.or_false _
  have hanswered : role = .sender → accepted tr = true →
      Answered topic (tr ++ [a] ++ [⟨.remoteDescription, b⟩]) :=
    fun hr ht => ((h.answered hr ht).append _).append _
  cases b with
  | false =>
      -- kept back: no description was accepted yet
      have hsettled : Settled cipher topic sigKey role (pendingIce ++ [init])
          (tr ++ [a] ++ [⟨.remoteDescription, false⟩]) := by
        refine ⟨happlied₁, ?_, ?_, ?_, ?_⟩
        · rw [hadded₁, htrickled₁, List.append_assoc]
        · rw [hacc₁, hadded₁]
          exact h.waits
        · rw [hacc₁, ← hb]
          intro hno
          cases hno
        · rw [hacc₁]
          exact hanswered
      exact ⟨hsettled.ordered, hQ _ _ hsettled⟩
  | true =>
      have hnone : pendingIce = [] := h.flushed hb.symm
      subst hnone
      rw [List.append_nil] at htrickled₁
      refine ⟨⟨⟨[], by rw [List.append_nil, happlied₁]⟩, ?_, ?_⟩, ?_⟩
      · rw [hadded₁, htrickled₁]
        exact List.prefix_append _ _
      · rw [hacc₁, hadded₁]
        exact h.waits
      rintro r _ ⟨-, rfl⟩
      have hsettled : Settled cipher topic sigKey role []
          (tr ++ [a] ++ [⟨.remoteDescription, true⟩] ++ [⟨.addIceCandidate init, r⟩]) := by
        refine ⟨?_, ?_, ?_, fun _ => rfl, ?_⟩
        · rw [applied_append, described_snoc, happlied₁]
          rfl
        · rw [added_append, trickled_snoc, hadded₁, htrickled₁]
          rfl
        · rw [accepted_append, hacc₁, ← hb]
          intro hno
          cases hno
        · rw [accepted_append, hacc₁]
          exact fun hr _ => (hanswered hr hb.symm).append _
      exact ⟨hsettled.ordered, hQ _ _ hsettled⟩

/-- **One turn of the pump** leaves nothing undone that it could do. -/
theorem safe_applyFrame {Q : Except Anyhow (List W.CandidateInit) → RtcTrace W → Prop} {frame : Bytes}
    (h : Settled cipher topic sigKey role pendingIce tr)
    (hQ : ∀ tr pendingIce, Settled cipher topic sigKey role pendingIce tr → Q (.ok pendingIce) tr) :
    Safe (answered Truthful) (Ordered cipher sigKey role) Q
      (applyFrame cipher topic sigKey role frame pendingIce) (tr ++ [⟨.next, some frame⟩]) := by
  rcases applyFrame_cases cipher sigKey role topic frame pendingIce with
    ⟨heq, hs, hc⟩ | ⟨sdp, heq, hs, hc⟩ | ⟨init, heq, hs, hc⟩
  · rw [heq]
    have hquiet := h.quiet (quiet_next hs hc)
    exact ⟨hquiet.ordered, hQ _ _ hquiet⟩
  · rw [heq]
    exact safe_applySdp h hs hc rfl rfl rfl hQ
  · rw [heq]
    exact safe_applyIce h hs hc rfl rfl rfl hQ

/-- The pump between its frames. -/
theorem safe_pump {Q : Except Anyhow Unit → RtcTrace W → Prop} (budget : Nat)
    (h : Settled cipher topic sigKey role pendingIce tr)
    (hQ : ∀ tr, Ordered cipher sigKey role tr → Q (.ok ()) tr) :
    Safe (answered Truthful) (Ordered cipher sigKey role) Q
      (pump cipher topic sigKey role budget pendingIce) tr := by
  induction budget generalizing pendingIce tr with
  | zero => exact ⟨h.ordered, hQ tr h.ordered⟩
  | succ budget ih =>
      refine ⟨h.ordered, ?_⟩
      rintro r _ ⟨-, rfl⟩
      cases r with
      | none =>
          have hquiet := h.quiet (a := ⟨.next, none⟩) ⟨rfl, rfl, rfl, rfl, rfl⟩
          exact ⟨hquiet.ordered, hQ _ hquiet.ordered⟩
      | some frame => exact Safe.bind (safe_applyFrame h fun tr pendingIce h => ih h)

end frame

/-! ## Whole runs of the pump -/

section runs

variable {topic : String} {sigKey : Bytes} {role : Pake.Role} {pendingIce : List W.CandidateInit}
  {past tr : RtcTrace W} {q : RtcProg W Unit}

/-- Operations of the pump on everything but the stream of frames. -/
def NotNext : RtcOp W → Prop
  | .next => False
  | _ => True

theorem only_drain (pendingIce : List W.CandidateInit) : Only NotNext (drain (W := W) pendingIce) := by
  induction pendingIce with
  | nil => trivial
  | cons init rest ih => exact ⟨trivial, fun _ => ih⟩

theorem only_publishSealed {P : RtcOp W → Prop} (hseal : ∀ aad plain, P (.sealRandom aad plain))
    (hpublish : ∀ topic frame, P (.publish topic frame)) (topic : String) (kind : UInt8) (role : Pake.Role)
    (plaintext : Bytes) : Only P (publishSealed (W := W) topic kind role plaintext) :=
  ⟨hseal _ _, fun _ => ⟨hpublish _ _, fun _ => trivial⟩⟩

theorem only_answer (topic : String) (role : Pake.Role) : Only NotNext (answer (W := W) topic role) := by
  refine ⟨trivial, fun r => ?_⟩
  cases r with
  | error e => trivial
  | ok sdp =>
      refine ⟨trivial, fun r => ?_⟩
      cases r with
      | error e => trivial
      | ok u =>
          refine Only.bind (only_publishSealed (by simp [NotNext]) (by simp [NotNext]) ..) fun _ => ?_
          trivial

/-- A turn of the pump reads no further frame. -/
theorem only_applyFrame (topic : String) (frame : Bytes) :
    Only NotNext (applyFrame cipher topic sigKey role frame pendingIce) := by
  rcases applyFrame_cases cipher sigKey role topic frame pendingIce with
    ⟨heq, -⟩ | ⟨sdp, heq, -⟩ | ⟨init, heq, -⟩
  · rw [heq]
    trivial
  · rw [heq]
    refine ⟨trivial, fun r => ?_⟩
    cases r with
    | error e => trivial
    | ok u =>
        refine (only_drain pendingIce).bind fun _ => ?_
        by_cases hrole : role = .sender
        · rw [if_pos hrole]
          refine Only.bind (only_answer topic role) fun _ => ?_
          trivial
        · rw [if_neg hrole]
          trivial
  · rw [heq]
    refine ⟨trivial, fun b => ?_⟩
    cases b with
    | true => exact ⟨trivial, fun _ => trivial⟩
    | false => trivial

/-- A pump that waits for a frame is done with those it has read. -/
theorem settled_of_next {budget : Nat} (h : Settled cipher topic sigKey role pendingIce past)
    {k : Option Bytes → RtcProg W Unit}
    (hf : Follows (pump cipher topic sigKey role budget pendingIce) tr (.step .next k))
    (hA : Admits Truthful past tr) :
    ∃ pendingIce, Settled cipher topic sigKey role pendingIce (past ++ tr) := by
  induction budget generalizing pendingIce past tr with
  | zero => cases hf
  | succ budget ih =>
      rcases hf.step_inv with ⟨rfl, -⟩ | ⟨r, tr', rfl, hrest⟩
      · exact ⟨pendingIce, by rwa [List.append_nil]⟩
      cases r with
      | none => cases hrest
      | some frame =>
          -- inside the turn nothing is read
          obtain ⟨pendingIce', tr₁, tr₂, rfl, h₁, h₂⟩ :=
            Follows.past hrest (only_applyFrame topic frame) id
          have hadm := admits_append.mp hA.2
          have hs := h₁.safe_answered (safe_applyFrame h
            (Q := fun r tr => ∀ p, r = .ok p → Settled cipher topic sigKey role p tr)
            fun tr p hp p' he => by cases he; exact hp) hadm.1
          obtain ⟨p, hp⟩ := ih (hs.2 pendingIce' rfl) h₂ hadm.2
          exact ⟨p, by simpa using hp⟩

end runs

end Webrtc
end B2p
