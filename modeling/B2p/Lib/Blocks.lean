import Mathlib.Data.List.Basic
import Mathlib.Algebra.Order.Ring.Nat
import Mathlib.Tactic.Ring

/-!
# Files as lists, read and written in blocks

A file is the list of its bytes. `setLen` cuts or fills it to a length, `overwrite` writes at an
offset (filling a gap before it), `slice` reads. Everything is said once about single positions
(`getElem?_overwrite`, `getElem?_slice`) and the block facts follow: a block reads back as written,
writing one block leaves the others alone, and two files of one length that agree on every block are
equal.
-/

namespace Interaction

variable {α : Type}

/-- Cut or fill up (with `z`) to length `n`. -/
def setLen (z : α) (n : Nat) (l : List α) : List α :=
  l.take n ++ List.replicate (n - l.length) z

/-- Write `b` at offset `off`, filling with `z` up to there if the file is shorter. -/
def overwrite (z : α) (off : Nat) (b l : List α) : List α :=
  setLen z off l ++ b ++ l.drop (off + b.length)

/-- The bytes at `off`, at most `len` of them. -/
def slice (off len : Nat) (l : List α) : List α := (l.drop off).take len

/-- Division rounding up, as `u64::div_ceil` does it. -/
def divCeil (a b : Nat) : Nat := if a % b > 0 then a / b + 1 else a / b

/-! ## Lengths -/

@[simp] theorem length_setLen (z : α) (n : Nat) (l : List α) : (setLen z n l).length = n := by
  simp only [setLen, List.length_append, List.length_take, List.length_replicate]
  omega

theorem setLen_of_length {z : α} {n : Nat} {l : List α} (h : l.length = n) : setLen z n l = l := by
  simp [setLen, ← h]

theorem length_overwrite {z : α} {off : Nat} {b l : List α} (h : off + b.length ≤ l.length) :
    (overwrite z off b l).length = l.length := by
  simp only [overwrite, List.length_append, length_setLen, List.length_drop]
  omega

theorem length_slice (off len : Nat) (l : List α) :
    (slice off len l).length = min len (l.length - off) := by
  simp [slice]

/-- Two slices at one offset agree when they are cut to the same length. -/
theorem slice_eq_slice_of_min {off len len' : Nat} {l : List α}
    (h : min len (l.length - off) = min len' (l.length - off)) :
    slice off len l = slice off len' l := by
  rw [slice, slice, List.take_eq_take_iff, List.length_drop, h]

/-! ## Single positions -/

theorem getElem?_slice (off len i : Nat) (l : List α) :
    (slice off len l)[i]? = if i < len then l[off + i]? else none := by
  simp only [slice, List.getElem?_take, List.getElem?_drop]

theorem getElem?_overwrite {z : α} {off : Nat} {b l : List α} (h : off + b.length ≤ l.length)
    (i : Nat) : (overwrite z off b l)[i]?
      = if off ≤ i ∧ i < off + b.length then b[i - off]? else l[i]? := by
  have hlow : setLen z off l = l.take off := by
    have : off - l.length = 0 := by omega
    simp [setLen, this]
  have hlen : (l.take off).length = off := by rw [List.length_take]; omega
  rw [overwrite, hlow, List.append_assoc]
  by_cases h1 : i < off
  · rw [if_neg (by omega), List.getElem?_append_left (by omega), List.getElem?_take, if_pos h1]
  · rw [List.getElem?_append_right (by omega), hlen]
    by_cases h2 : i < off + b.length
    · rw [if_pos (by omega), List.getElem?_append_left (by omega)]
    · rw [if_neg (by omega), List.getElem?_append_right (by omega), List.getElem?_drop]
      congr 1
      omega

theorem getElem?_setLen (z : α) (n : Nat) (l : List α) (i : Nat) :
    (setLen z n l)[i]? = if i < n then some (l.getD i z) else none := by
  rw [setLen, List.getD_eq_getElem?_getD]
  by_cases hi : i < n
  · rw [if_pos hi]
    by_cases hl : i < l.length
    · rw [List.getElem?_append_left (by rw [List.length_take]; omega), List.getElem?_take, if_pos hi,
        List.getElem?_eq_getElem hl, Option.getD_some]
    · rw [List.getElem?_append_right (by rw [List.length_take]; omega), List.getElem?_replicate,
        if_pos (by rw [List.length_take]; omega), List.getElem?_eq_none (by omega), Option.getD_none]
  · rw [if_neg hi, List.getElem?_eq_none]
    have := length_setLen z n l
    rw [setLen] at this
    omega

/-! ## Blocks -/

theorem slice_overwrite_same {z : α} {off : Nat} {b l : List α} (h : off + b.length ≤ l.length) :
    slice off b.length (overwrite z off b l) = b := by
  apply List.ext_getElem?
  intro i
  rw [getElem?_slice, getElem?_overwrite h]
  by_cases hi : i < b.length
  · rw [if_pos hi, if_pos (by omega), Nat.add_sub_cancel_left]
  · rw [if_neg hi, List.getElem?_eq_none (by omega)]

theorem slice_overwrite_of_disjoint {z : α} {off off' len : Nat} {b l : List α}
    (h : off + b.length ≤ l.length) (hd : off' + len ≤ off ∨ off + b.length ≤ off') :
    slice off' len (overwrite z off b l) = slice off' len l := by
  apply List.ext_getElem?
  intro i
  rw [getElem?_slice, getElem?_slice]
  by_cases hi : i < len
  · rw [if_pos hi, if_pos hi, getElem?_overwrite h, if_neg (by omega)]
  · rw [if_neg hi, if_neg hi]

/-- Blocks of one size at different indices do not overlap. -/
theorem block_disjoint {i j : Nat} (size : Nat) (h : i ≠ j) :
    i * size + size ≤ j * size ∨ j * size + size ≤ i * size := by
  rcases Nat.lt_or_gt_of_ne h with hlt | hlt
  · left
    calc i * size + size = (i + 1) * size := by ring
      _ ≤ j * size := Nat.mul_le_mul_right _ hlt
  · right
    calc j * size + size = (j + 1) * size := by ring
      _ ≤ i * size := Nat.mul_le_mul_right _ hlt

/-- The blocks of a file of length `a` are those that start before its end. -/
theorem lt_divCeil_iff {a b i : Nat} (hb : 0 < b) : i < divCeil a b ↔ i * b < a := by
  have hdm : a / b * b + a % b = a := Nat.div_add_mod' a b
  have hml : a % b < b := Nat.mod_lt _ hb
  rw [divCeil]
  rcases Nat.lt_trichotomy i (a / b) with h | rfl | h
  · have := Nat.mul_le_mul_right b h
    rw [Nat.succ_mul] at this
    split <;> omega
  · split <;> omega
  · have := Nat.mul_le_mul_right b h
    rw [Nat.succ_mul] at this
    split <;> omega

/-- **Two files of one length that agree on every block are equal.** -/
theorem ext_of_blocks {size : Nat} (hs : 0 < size) {l m : List α} (hlen : l.length = m.length)
    (h : ∀ i < divCeil l.length size, slice (i * size) size l = slice (i * size) size m) :
    l = m := by
  apply List.ext_getElem?
  intro j
  by_cases hj : j < l.length
  · have hdm : size * (j / size) + j % size = j := Nat.div_add_mod j size
    have hml : j % size < size := Nat.mod_lt _ hs
    have hpos : j / size * size + j % size = j := by rw [Nat.mul_comm]; exact hdm
    have hblock := h (j / size) ((lt_divCeil_iff hs).mpr (by omega))
    have hget := congrArg (fun s : List α => s[j % size]?) hblock
    simp only [getElem?_slice, hml, if_true, hpos] at hget
    exact hget
  · rw [List.getElem?_eq_none (by omega), List.getElem?_eq_none (by omega)]

end Interaction
