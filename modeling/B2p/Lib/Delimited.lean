import Mathlib.Data.Set.Function
import Mathlib.Tactic.Common

/-!
# Encodings that show where they end

An encoding is self-delimiting if, whatever follows, a reader knows which value it began with. Fields of a
fixed length are, and so are fields followed by an element they do not contain; and of two such fields, one
after the other, the same is true. A sequence of self-delimiting encodings can then be read in one way only,
also where the separators occur inside the fields.

* `SelfDelimiting` — said of the values of a set, whose encodings may be anything elsewhere.
* `selfDelimiting_of_length`, `selfDelimiting_terminated`, `SelfDelimiting.append`, `SelfDelimiting.mark` —
  how encodings are put together.
* `SelfDelimiting.flatMap_inj` — sequences.
-/

namespace Coding

variable {α β γ : Type*} {S : Set α} {T : Set β} {enc : α → List γ} {enc' : β → List γ}

/-- The value is known from an encoding with anything after it. -/
def SelfDelimiting (S : Set α) (enc : α → List γ) : Prop :=
  ∀ a ∈ S, ∀ b ∈ S, ∀ u v, enc a ++ u = enc b ++ v → a = b

/-- … and so is what comes after it. -/
theorem SelfDelimiting.inj (h : SelfDelimiting S enc) {a b : α} (ha : a ∈ S) (hb : b ∈ S) {u v : List γ}
    (heq : enc a ++ u = enc b ++ v) : a = b ∧ u = v := by
  obtain rfl := h a ha b hb u v heq
  exact ⟨rfl, List.append_cancel_left heq⟩

/-! ## Fields -/

/-- A field of a fixed length. -/
theorem selfDelimiting_of_length {n : Nat} (hlength : ∀ a ∈ S, (enc a).length = n) (hinj : Set.InjOn enc S) :
    SelfDelimiting S enc := by
  intro a ha b hb u v heq
  have hsame : (enc a).length = (enc b).length := by rw [hlength a ha, hlength b hb]
  exact hinj ha hb (List.append_inj_left heq hsame)

/-- What comes before the first `z`. -/
theorem eq_of_append_cons {z : γ} {l m u v : List γ} (hl : z ∉ l) (hm : z ∉ m)
    (heq : l ++ z :: u = m ++ z :: v) : l = m := by
  induction l generalizing m with
  | nil =>
      cases m with
      | nil => rfl
      | cons c m =>
          rw [List.nil_append, List.cons_append, List.cons.injEq] at heq
          exact absurd (heq.1 ▸ List.mem_cons_self) hm
  | cons c l ih =>
      cases m with
      | nil =>
          rw [List.nil_append, List.cons_append, List.cons.injEq] at heq
          exact absurd (heq.1 ▸ List.mem_cons_self) hl
      | cons d m =>
          rw [List.cons_append, List.cons_append, List.cons.injEq] at heq
          rw [List.mem_cons, not_or] at hl hm
          rw [heq.1, ih hl.2 hm.2 heq.2]

/-- A field that ends at the first `z`. -/
theorem selfDelimiting_terminated {z : γ} (hfree : ∀ a ∈ S, z ∉ enc a) (hinj : Set.InjOn enc S) :
    SelfDelimiting S fun a => enc a ++ [z] := by
  intro a ha b hb u v heq
  rw [List.append_assoc, List.append_assoc] at heq
  exact hinj ha hb (eq_of_append_cons (hfree a ha) (hfree b hb) heq)

/-! ## Putting fields together -/

/-- A fixed mark after a field does no harm, whatever it is. -/
theorem SelfDelimiting.mark (h : SelfDelimiting S enc) (z : List γ) : SelfDelimiting S fun a => enc a ++ z := by
  intro a ha b hb u v heq
  rw [List.append_assoc, List.append_assoc] at heq
  exact h a ha b hb _ _ heq

/-- One field after the other. -/
theorem SelfDelimiting.append (h : SelfDelimiting S enc) (h' : SelfDelimiting T enc') :
    SelfDelimiting (S ×ˢ T) fun p => enc p.1 ++ enc' p.2 := by
  rintro ⟨a, a'⟩ ⟨ha, ha'⟩ ⟨b, b'⟩ ⟨hb, hb'⟩ u v heq
  rw [List.append_assoc, List.append_assoc] at heq
  obtain ⟨rfl, hrest⟩ := h.inj ha hb heq
  obtain ⟨rfl, -⟩ := h'.inj ha' hb' hrest
  rfl

/-- A record is known from its fields. -/
theorem SelfDelimiting.comap (h : SelfDelimiting S enc) {f : β → α} (hf : Function.Injective f)
    (hT : ∀ b ∈ T, f b ∈ S) : SelfDelimiting T fun b => enc (f b) :=
  fun a ha b hb u v heq => hf (h (f a) (hT a ha) (f b) (hT b hb) u v heq)

/-! ## Sequences -/

/-- **A sequence of self-delimiting encodings can be read in one way only**, if none is empty. -/
theorem SelfDelimiting.flatMap_inj (h : SelfDelimiting S enc) (hne : ∀ a ∈ S, enc a ≠ []) {xs ys : List α}
    (hxs : ∀ x ∈ xs, x ∈ S) (hys : ∀ y ∈ ys, y ∈ S) (heq : xs.flatMap enc = ys.flatMap enc) : xs = ys := by
  induction xs generalizing ys with
  | nil =>
      cases ys with
      | nil => rfl
      | cons y ys =>
          rw [List.flatMap_nil, List.flatMap_cons, eq_comm, List.append_eq_nil_iff] at heq
          exact absurd heq.1 (hne y (hys y List.mem_cons_self))
  | cons x xs ih =>
      cases ys with
      | nil =>
          rw [List.flatMap_nil, List.flatMap_cons, List.append_eq_nil_iff] at heq
          exact absurd heq.1 (hne x (hxs x List.mem_cons_self))
      | cons y ys =>
          rw [List.flatMap_cons, List.flatMap_cons] at heq
          obtain ⟨rfl, hrest⟩ := h.inj (hxs x List.mem_cons_self) (hys y List.mem_cons_self) heq
          rw [ih (fun a ha => hxs a (List.mem_cons_of_mem _ ha))
            (fun a ha => hys a (List.mem_cons_of_mem _ ha)) hrest]

end Coding
