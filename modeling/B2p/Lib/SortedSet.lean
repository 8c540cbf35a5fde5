import Mathlib.Data.List.Sort
import Mathlib.Data.Finset.Card
import Mathlib.Order.Interval.Finset.Nat

/-!
# Ordered sets as strictly increasing lists

`SortedSet α` is a finite set kept in order: a list together with the proof that it is strictly
increasing. The order is the invariant, so two sets with the same elements are the same set, and
iterating one always yields its elements in increasing order, each once.
-/

namespace Interaction

/-- A finite set, kept as the strictly increasing list of its elements. -/
structure SortedSet (α : Type) [LinearOrder α] where
  toList : List α
  sorted : toList.Pairwise (· < ·)
  deriving DecidableEq

/-- Insertion into an increasing list; an element already there is left alone. -/
def insertSorted {α : Type} [LinearOrder α] (a : α) : List α → List α
  | [] => [a]
  | b :: l => if a < b then a :: b :: l else if a = b then b :: l else b :: insertSorted a l

section insertSorted

variable {α : Type} [LinearOrder α]

@[simp] theorem mem_insertSorted {a x : α} {l : List α} :
    x ∈ insertSorted a l ↔ x = a ∨ x ∈ l := by
  induction l with
  | nil => simp [insertSorted]
  | cons b l ih =>
      rw [insertSorted]
      split
      · simp
      · split
        · next h => subst h; simp
        · simp only [List.mem_cons, ih]
          tauto

theorem pairwise_insertSorted {a : α} {l : List α} (h : l.Pairwise (· < ·)) :
    (insertSorted a l).Pairwise (· < ·) := by
  induction l with
  | nil => simp [insertSorted]
  | cons b l ih =>
      rw [List.pairwise_cons] at h
      rw [insertSorted]
      split
      · next hab =>
          refine List.pairwise_cons.mpr ⟨?_, List.pairwise_cons.mpr h⟩
          intro x hx
          rcases List.mem_cons.mp hx with rfl | hx
          · exact hab
          · exact hab.trans (h.1 x hx)
      · split
        · exact List.pairwise_cons.mpr h
        · next hlt hne =>
            refine List.pairwise_cons.mpr ⟨?_, ih h.2⟩
            intro x hx
            rcases mem_insertSorted.mp hx with rfl | hx
            · exact lt_of_le_of_ne (not_lt.mp hlt) (Ne.symm hne)
            · exact h.1 x hx

end insertSorted

namespace SortedSet

variable {α : Type} [LinearOrder α]

instance : Membership α (SortedSet α) := ⟨fun s a => a ∈ s.toList⟩

instance (a : α) (s : SortedSet α) : Decidable (a ∈ s) := inferInstanceAs (Decidable (a ∈ s.toList))

theorem mem_def {a : α} {s : SortedSet α} : a ∈ s ↔ a ∈ s.toList := Iff.rfl

/-- The empty set. -/
def empty : SortedSet α := ⟨[], List.Pairwise.nil⟩

/-- Add an element. -/
def insert (a : α) (s : SortedSet α) : SortedSet α :=
  ⟨insertSorted a s.toList, pairwise_insertSorted s.sorted⟩

/-- The number of elements. -/
def card (s : SortedSet α) : Nat := s.toList.length

def isEmpty (s : SortedSet α) : Bool := s.toList.isEmpty

@[simp] theorem not_mem_empty (a : α) : a ∉ (empty : SortedSet α) := by
  simp [mem_def, empty]

@[simp] theorem card_empty : (empty : SortedSet α).card = 0 := rfl

@[simp] theorem isEmpty_empty : (empty : SortedSet α).isEmpty = true := rfl

@[simp] theorem mem_insert {a x : α} {s : SortedSet α} : x ∈ s.insert a ↔ x = a ∨ x ∈ s :=
  mem_insertSorted

theorem nodup (s : SortedSet α) : s.toList.Nodup := s.sorted.imp fun h => ne_of_lt h

@[ext] theorem ext {s t : SortedSet α} (h : ∀ a, a ∈ s ↔ a ∈ t) : s = t := by
  have hl : s.toList = t.toList := by
    have hperm : s.toList.Perm t.toList :=
      (List.perm_ext_iff_of_nodup s.nodup t.nodup).mpr h
    exact hperm.eq_of_pairwise (fun _ _ _ _ hab hba => absurd hab (lt_asymm hba)) s.sorted t.sorted
  cases s; cases t; cases hl; rfl

theorem isEmpty_iff {s : SortedSet α} : s.isEmpty = true ↔ ∀ a, a ∉ s := by
  simp [isEmpty, mem_def, List.isEmpty_iff, List.eq_nil_iff_forall_not_mem]

theorem eq_empty_of_isEmpty {s : SortedSet α} (h : s.isEmpty = true) : s = empty :=
  ext fun a => ⟨fun ha => absurd ha (isEmpty_iff.mp h a), fun ha => absurd ha (not_mem_empty a)⟩

/-- A set below `n` has `n` elements exactly when it holds every index below `n`. -/
theorem card_eq_iff_forall_mem {s : SortedSet ℕ} {n : ℕ} (h : ∀ i ∈ s, i < n) :
    s.card = n ↔ ∀ i < n, i ∈ s := by
  have hcard : s.card = s.toList.toFinset.card := (List.toFinset_card_of_nodup s.nodup).symm
  have hsub : s.toList.toFinset ⊆ Finset.range n := by
    intro i hi
    exact Finset.mem_range.mpr (h i (List.mem_toFinset.mp hi))
  constructor
  · intro hc i hi
    have heq : s.toList.toFinset = Finset.range n :=
      Finset.eq_of_subset_of_card_le hsub (by rw [Finset.card_range, ← hcard, hc])
    exact List.mem_toFinset.mp (heq ▸ Finset.mem_range.mpr hi)
  · intro hall
    have heq : s.toList.toFinset = Finset.range n :=
      hsub.antisymm fun i hi => List.mem_toFinset.mpr (hall i (Finset.mem_range.mp hi))
    rw [hcard, heq, Finset.card_range]

/-- The indices below `n` split into a set below `n` and the rest. -/
theorem length_filter_not_mem {s : SortedSet ℕ} {n : ℕ} (h : ∀ i ∈ s, i < n) :
    ((List.range n).filter (fun i => decide (i ∉ s))).length + s.card = n := by
  have hnd : ((List.range n).filter (fun i => decide (i ∉ s))).Nodup := List.nodup_range.filter _
  have hcard : s.card = s.toList.toFinset.card := (List.toFinset_card_of_nodup s.nodup).symm
  have hsub : s.toList.toFinset ⊆ Finset.range n := by
    intro i hi
    exact Finset.mem_range.mpr (h i (List.mem_toFinset.mp hi))
  have heq : ((List.range n).filter (fun i => decide (i ∉ s))).toFinset
      = Finset.range n \ s.toList.toFinset := by
    ext i
    simp [mem_def]
  rw [← List.toFinset_card_of_nodup hnd, heq, hcard, Finset.card_sdiff_add_card_eq_card hsub,
    Finset.card_range]

end SortedSet
end Interaction
