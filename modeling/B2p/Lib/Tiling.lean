import Mathlib
import B2p.Lib.Blocks

/-!
# Intervals that lie end to end

A length is cut at a rising sequence of places. The pieces between two neighbouring cuts lie end to end,
do not overlap, fill everything from the first cut to the last, and their lengths sum up to it. Blocks of
one size, the last of them cut short, are the case of the cuts `min (i * size) total`.

* `Tiles` — pieces that lie so, given by their starts and lengths.
* `tiles_of_cuts` — the pieces between the cuts do.
* `tiles_blocks` — the blocks of one size do.
-/

namespace Interaction

/-- `n` intervals fill `[0, total)`: the `i`-th starts at `start i` and is `len i` long. -/
structure Tiles (n : Nat) (start len : Nat → Nat) (total : Nat) : Prop where
  consecutive : ∀ i, i + 1 < n → start i + len i = start (i + 1)
  disjoint : ∀ i < n, ∀ j < n, i ≠ j →
    Disjoint (Set.Ico (start i) (start i + len i)) (Set.Ico (start j) (start j + len j))
  cover : ⋃ i < n, Set.Ico (start i) (start i + len i) = Set.Ico 0 total
  sum : ∑ i ∈ Finset.range n, len i = total

/-- Only the starts and lengths of the `n` intervals matter. -/
theorem Tiles.congr {n total : Nat} {start start' len len' : Nat → Nat} (h : Tiles n start len total)
    (hstart : ∀ i < n, start' i = start i) (hlen : ∀ i < n, len' i = len i) :
    Tiles n start' len' total := by
  refine ⟨?_, ?_, ?_, ?_⟩
  · intro i hi
    rw [hstart i (by omega), hlen i (by omega), hstart _ hi]
    exact h.consecutive i hi
  · intro i hi j hj hne
    rw [hstart i hi, hlen i hi, hstart j hj, hlen j hj]
    exact h.disjoint i hi j hj hne
  · rw [← h.cover]
    refine Set.iUnion₂_congr fun i hi => ?_
    rw [hstart i hi, hlen i hi]
  · rw [← h.sum]
    exact Finset.sum_congr rfl fun i hi => hlen i (Finset.mem_range.mp hi)

/-! ## Pieces between cuts -/

section cuts

variable {cut : Nat → Nat}

/-- The pieces between the first `n + 1` cuts fill what is between the first cut and the last. -/
theorem iUnion_Ico_cuts (hmono : Monotone cut) (n : Nat) :
    ⋃ i < n, Set.Ico (cut i) (cut (i + 1)) = Set.Ico (cut 0) (cut n) := by
  induction n with
  | zero => simp
  | succ n ih =>
      rw [Set.biUnion_lt_succ, ih]
      exact Set.Ico_union_Ico_eq_Ico (hmono (Nat.zero_le n)) (hmono n.le_succ)

/-- **The pieces between rising cuts lie end to end.** -/
theorem tiles_of_cuts (hmono : Monotone cut) (hzero : cut 0 = 0) (n : Nat) :
    Tiles n cut (fun i => cut (i + 1) - cut i) (cut n) := by
  have hend : ∀ i, cut i + (cut (i + 1) - cut i) = cut (i + 1) :=
    fun i => Nat.add_sub_cancel' (hmono i.le_succ)
  refine ⟨?_, ?_, ?_, ?_⟩
  · intro i _
    exact hend i
  · intro i _ j _ hne
    rw [hend i, hend j]
    exact hmono.pairwise_disjoint_on_Ico_succ hne
  · simp only [hend]
    rw [iUnion_Ico_cuts hmono, hzero]
  · rw [Finset.sum_range_tsub hmono, hzero, Nat.sub_zero]

end cuts

/-! ## Blocks of one size -/

/-- Where the `i`-th block of a file of length `total` starts, or the end of the file. -/
def blockCut (size total i : Nat) : Nat := min (i * size) total

theorem blockCut_mono (size total : Nat) : Monotone (blockCut size total) :=
  fun _ _ h => min_le_min_right total (Nat.mul_le_mul_right size h)

/-- From one cut to the next it is a block, or what is left of the file. -/
theorem blockCut_succ_sub (size total i : Nat) :
    blockCut size total (i + 1) - blockCut size total i = min (total - i * size) size := by
  rw [blockCut, blockCut, Nat.succ_mul]
  omega

theorem blockCut_of_lt {size total i : Nat} (hsize : 0 < size) (hi : i < divCeil total size) :
    blockCut size total i = i * size :=
  min_eq_left ((lt_divCeil_iff hsize).mp hi).le

theorem blockCut_divCeil {size total : Nat} (hsize : 0 < size) :
    blockCut size total (divCeil total size) = total :=
  min_eq_right (Nat.le_of_not_lt (mt (lt_divCeil_iff hsize).mpr (Nat.lt_irrefl _)))

/-- **The blocks of a file lie end to end and fill it.** -/
theorem tiles_blocks {size : Nat} (hsize : 0 < size) (total : Nat) :
    Tiles (divCeil total size) (fun i => i * size) (fun i => min (total - i * size) size) total := by
  have htiles := tiles_of_cuts (blockCut_mono size total) (by simp [blockCut]) (divCeil total size)
  rw [blockCut_divCeil hsize] at htiles
  apply htiles.congr
  · intro i hi
    exact (blockCut_of_lt hsize hi).symm
  · intro i _
    exact (blockCut_succ_sub size total i).symm

end Interaction
