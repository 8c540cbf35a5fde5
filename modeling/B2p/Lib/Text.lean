import Mathlib.Data.List.DropRight
import Mathlib.Data.List.Infix
import Mathlib.Data.String.Basic
import Mathlib.Tactic.Common

/-!
# Text as a list of characters

The functions of a standard library on strings, on lists of characters: trimming, removing a
beginning, splitting once at a character. Every function comes with what it does to a text put
together from parts, which is how printed text is parsed again.
-/

namespace Text

abbrev Str := List Char

/-- The Unicode property `White_Space`. -/
def isWhitespace (c : Char) : Bool :=
  let n := c.toNat
  (0x9 ≤ n && n ≤ 0xD) || n == 0x20 || n == 0x85 || n == 0xA0 || n == 0x1680 ||
    (0x2000 ≤ n && n ≤ 0x200A) || n == 0x2028 || n == 0x2029 || n == 0x202F || n == 0x205F || n == 0x3000

/-- Without the white space at either end. -/
def trim (s : Str) : Str := (s.dropWhile isWhitespace).rdropWhile isWhitespace

/-- Without any number of `c` at the end. -/
def trimEndMatches (c : Char) (s : Str) : Str := s.rdropWhile (· == c)

/-- What follows `pat`, if the text begins with it. -/
def strip (pat s : Str) : Option Str :=
  if pat <+: s then some (s.drop pat.length) else none

/-- Without any number of `pat` at the beginning. -/
def trimStartMatches (pat s : Str) : Str :=
  if _h : pat ≠ [] ∧ pat <+: s then trimStartMatches pat (s.drop pat.length) else s
termination_by s.length
decreasing_by
  have hpos := List.length_pos_iff.mpr _h.1
  have hle := _h.2.length_le
  rw [List.length_drop]
  omega

/-- The parts before and after the first `c`. -/
def splitOnce (c : Char) (s : Str) : Option (Str × Str) :=
  if c ∈ s then some (s.takeWhile (· != c), (s.dropWhile (· != c)).tail) else none

/-! ## Trimming -/

theorem rdropWhile_of_all {p : Char → Bool} {s : Str} (h : ∀ c ∈ s, p c = false) :
    s.rdropWhile p = s := by
  rw [List.rdropWhile_eq_self_iff]
  intro hne
  simp [h _ (List.getLast_mem hne)]

theorem dropWhile_of_all {p : Char → Bool} {s : Str} (h : ∀ c ∈ s, p c = false) :
    s.dropWhile p = s := by
  cases s with
  | nil => rfl
  | cons c s => rw [List.dropWhile_cons_of_neg (by simp [h c List.mem_cons_self])]

theorem trim_of_all {s : Str} (h : ∀ c ∈ s, isWhitespace c = false) : trim s = s := by
  rw [trim, dropWhile_of_all h, rdropWhile_of_all h]

theorem trimEndMatches_of_not_mem {c : Char} {s : Str} (h : ∀ x ∈ s.getLast?, x ≠ c) :
    trimEndMatches c s = s := by
  rw [trimEndMatches, List.rdropWhile_eq_self_iff]
  intro hne
  have hlast := h _ (by rw [List.getLast?_eq_getLast_of_ne_nil hne]; rfl)
  simpa using hlast

/-! ## Beginnings -/

@[simp] theorem strip_append (pat s : Str) : strip pat (pat ++ s) = some s := by
  rw [strip, if_pos (List.prefix_append pat s), List.drop_left]

theorem strip_eq_some {pat s t : Str} (h : strip pat s = some t) : s = pat ++ t := by
  rw [strip] at h
  split at h
  · next hpre =>
      obtain ⟨r, rfl⟩ := hpre
      rw [List.drop_left, Option.some.injEq] at h
      rw [h]
  · cases h

theorem trimStartMatches_of_not {pat s : Str} (h : ¬ pat <+: s) : trimStartMatches pat s = s := by
  rw [trimStartMatches, dif_neg (fun hp => h hp.2)]

theorem trimStartMatches_append {pat : Str} (hne : pat ≠ []) (s : Str) :
    trimStartMatches pat (pat ++ s) = trimStartMatches pat s := by
  rw [trimStartMatches, dif_pos ⟨hne, List.prefix_append pat s⟩, List.drop_left]

/-! ## Splitting -/

theorem bne_of_not_mem {c : Char} {a : Str} (h : c ∉ a) : ∀ x ∈ a, (x != c) = true := by
  intro x hx
  have hne : x ≠ c := fun heq => h (heq ▸ hx)
  simpa using hne

theorem splitOnce_append {c : Char} {a : Str} (h : c ∉ a) (b : Str) :
    splitOnce c (a ++ c :: b) = some (a, b) := by
  have hp := bne_of_not_mem h
  rw [splitOnce, if_pos (by simp), List.takeWhile_append_of_pos hp, List.dropWhile_append_of_pos hp]
  simp

/-- What comes before the first `c` begins with any part of the text that has none. -/
theorem splitOnce_append_left {c : Char} {a s before after : Str} (h : c ∉ a)
    (hs : splitOnce c (a ++ s) = some (before, after)) : ∃ rest, before = a ++ rest := by
  rw [splitOnce] at hs
  split at hs
  · cases hs
    exact ⟨_, List.takeWhile_append_of_pos (bne_of_not_mem h)⟩
  · cases hs

theorem splitOnce_eq_none {c : Char} {s : Str} (h : c ∉ s) : splitOnce c s = none := if_neg h

/-! ## Splitting a `String` -/

section splitOn

open String

/-- `String.splitOn` at one character, with the part `m` read since the last separator. -/
theorem splitOnAux_singleton (c : Char) (l m r : List Char) (acc : List String) :
    splitOnAux (ofList (l ++ m ++ r)) (singleton c) ⟨utf8Len l⟩ ⟨utf8Len l + utf8Len m⟩ 0 acc
      = acc.reverse ++ (List.splitOnPPrepend (· == c) r m.reverse).map ofList := by
  unfold splitOnAux
  have hend := atEnd_of_valid (l ++ m) r
  rw [utf8Len_append] at hend
  cases r with
  | nil =>
      have hextract := extract_of_valid l m []
      simp_all
  | cons d r =>
      have hget := get_of_valid (l ++ m) (d :: r)
      have hnext := next_of_valid (l ++ m) d r
      have hextract := extract_of_valid l m (d :: r)
      have hsep : Pos.Raw.get (singleton c) 0 = c := get_of_valid [] [c]
      rw [utf8Len_append] at hget hnext
      rw [if_neg (by rw [hend]; simp), hget, hsep, List.headD_cons, List.splitOnPPrepend_cons_eq_if]
      split
      · next h =>
          have hstep : Pos.Raw.next (singleton c) 0 = ⟨c.utf8Size⟩ := by
            simpa using next_of_valid [] c []
          have hdone : Pos.Raw.atEnd (singleton c) ⟨c.utf8Size⟩ = true := by
            simpa using (atEnd_of_valid [c] []).mpr rfl
          have hback : Pos.Raw.unoffsetBy ⟨utf8Len l + utf8Len m + d.utf8Size⟩ ⟨c.utf8Size⟩
              = ⟨utf8Len l + utf8Len m⟩ := by
            rw [eq_of_beq h]
            simp [Pos.Raw.unoffsetBy]
          have ih := splitOnAux_singleton c (l ++ m ++ [d]) [] r (ofList m :: acc)
          rw [hnext, hstep]
          dsimp only
          rw [if_pos hdone, hback, hextract]
          simpa [← Nat.add_assoc] using ih
      · next h =>
          have hback : Pos.Raw.unoffsetBy ⟨utf8Len l + utf8Len m⟩ 0 = ⟨utf8Len l + utf8Len m⟩ := rfl
          have ih := splitOnAux_singleton c l (m ++ [d]) r acc
          rw [hback, hnext]
          simpa [← Nat.add_assoc] using ih

theorem splitOn_singleton (s : String) (c : Char) :
    s.splitOn (singleton c) = (s.toList.splitOn c).map ofList := by
  have haux := splitOnAux_singleton c [] [] s.toList []
  rw [splitOn, if_neg (by simp)]
  simpa [List.splitOn_eq_splitOnP] using haux

theorem not_of_mem_splitOnPPrepend {α : Type} {p : α → Bool} {xs : List α} (acc : List α)
    (hacc : ∀ x ∈ acc, p x = false) {l : List α} (hl : l ∈ List.splitOnPPrepend p xs acc) :
    ∀ x ∈ l, p x = false := by
  induction xs generalizing acc with
  | nil =>
      rw [List.splitOnPPrepend_nil, List.mem_singleton] at hl
      simpa [hl] using hacc
  | cons y ys ih =>
      rw [List.splitOnPPrepend_cons_eq_if] at hl
      split at hl
      · rcases List.mem_cons.mp hl with rfl | hl
        · simpa using hacc
        · exact ih [] (by simp) hl
      · next hy =>
          refine ih (y :: acc) ?_ hl
          intro x hx
          rcases List.mem_cons.mp hx with rfl | hx
          · simpa using hy
          · exact hacc x hx

/-- No part has the separator in it. -/
theorem not_mem_of_mem_splitOn {s t : String} {c : Char} (h : t ∈ s.splitOn (singleton c)) :
    c ∉ t.toList := by
  rw [splitOn_singleton, List.mem_map] at h
  obtain ⟨l, hl, rfl⟩ := h
  intro hc
  rw [String.toList_ofList] at hc
  simpa using not_of_mem_splitOnPPrepend [] (by simp) hl c hc

end splitOn

end Text
