import B2p.Lib.Text
import Mathlib.Data.Nat.Digits.Lemmas
import Mathlib.Data.List.GetD

/-!
# Base 58

Bytes as a number in base 58, with the leading zero bytes as leading ones. `decode_encode` is the round
trip; `alphabet_of_decode` and `length_of_decode` say what any text that is decoded looks like.
-/

namespace Base58

open Text

/-- The 58 digits. -/
def alphabet : Str := "123456789ABCDEFGHJKLMNPQRSTUVWXYZabcdefghijkmnopqrstuvwxyz".toList

def digitChar (n : Nat) : Char := alphabet.getD n '1'

def digitOf (c : Char) : Option Nat := if c ∈ alphabet then some (alphabet.idxOf c) else none

/-- Bytes as a number, most significant first. -/
def value (b : List UInt8) : Nat := Nat.ofDigits 256 (b.map UInt8.toNat).reverse

def zeros (b : List UInt8) : Nat := (b.takeWhile (· == 0)).length

def encode (b : List UInt8) : Str :=
  List.replicate (zeros b) '1' ++ ((Nat.digits 58 (value b)).reverse.map digitChar)

def decode (s : Str) : Option (List UInt8) := do
  let ds ← s.mapM digitOf
  let ones := (ds.takeWhile (· == 0)).length
  return List.replicate ones 0 ++ (Nat.digits 256 (Nat.ofDigits 58 ds.reverse)).reverse.map UInt8.ofNat

/-! ## Digits -/

theorem length_alphabet : alphabet.length = 58 := by decide

theorem digitOf_digitChar {n : Nat} (h : n < 58) : digitOf (digitChar n) = some n := by
  have hall : ∀ m : Fin 58, digitOf (digitChar m) = some m.val := by decide
  exact hall ⟨n, h⟩

theorem digitChar_mem {n : Nat} (h : n < 58) : digitChar n ∈ alphabet := by
  rw [digitChar, List.getD_eq_getElem _ _ (by rw [length_alphabet]; exact h)]
  exact List.getElem_mem _

theorem mapM_digitOf {ds : List Nat} (h : ∀ d ∈ ds, d < 58) :
    (ds.map digitChar).mapM digitOf = some ds := by
  induction ds with
  | nil => rfl
  | cons d ds ih =>
      rw [List.map_cons, List.mapM_cons, digitOf_digitChar (h d List.mem_cons_self),
        ih fun x hx => h x (List.mem_cons_of_mem _ hx)]
      rfl

theorem encode_eq_map (b : List UInt8) :
    encode b = (List.replicate (zeros b) 0 ++ (Nat.digits 58 (value b)).reverse).map digitChar := by
  rw [encode, List.map_append, List.map_replicate]
  rfl

theorem lt_of_mem_digits (b : List UInt8) :
    ∀ d ∈ List.replicate (zeros b) 0 ++ (Nat.digits 58 (value b)).reverse, d < 58 := by
  intro d hd
  rcases List.mem_append.mp hd with hd | hd
  · rw [List.eq_of_mem_replicate hd]
    decide
  · exact Nat.digits_lt_base (by decide) (List.mem_reverse.mp hd)

theorem encode_alphabet (b : List UInt8) : ∀ c ∈ encode b, c ∈ alphabet := by
  intro c hc
  rw [encode_eq_map] at hc
  obtain ⟨d, hd, rfl⟩ := List.mem_map.mp hc
  exact digitChar_mem (lt_of_mem_digits b d hd)

theorem encode_alphanum (b : List UInt8) : ∀ c ∈ encode b, c.isAlphanum = true := by
  have hall : alphabet.all (fun c => c.isAlphanum) = true := by decide
  exact fun c hc => List.all_eq_true.mp hall c (encode_alphabet b c hc)

/-! ## The round trip -/

/-- A list is its leading zeros and the rest. -/
theorem replicate_append_dropWhile {α : Type} [BEq α] [LawfulBEq α] [OfNat α 0] (l : List α) :
    List.replicate (l.takeWhile (· == 0)).length 0 ++ l.dropWhile (· == 0) = l := by
  have hall : l.takeWhile (· == 0) = List.replicate (l.takeWhile (· == 0)).length 0 := by
    refine List.eq_replicate_of_mem fun x hx => ?_
    simpa using List.mem_takeWhile_imp hx
  rw [← hall, List.takeWhile_append_dropWhile]

theorem eq_zeros_append (b : List UInt8) :
    ∃ rest, b = List.replicate (zeros b) 0 ++ rest ∧ ∀ x ∈ rest.head?, x ≠ 0 := by
  refine ⟨b.dropWhile (· == 0), (replicate_append_dropWhile b).symm, ?_⟩
  intro x hx
  have hhead := List.head?_dropWhile_not (· == 0) b
  rw [Option.mem_def.mp hx] at hhead
  simpa using hhead

theorem ofDigits_append_zeros (base : Nat) (l : List Nat) (n : Nat) :
    Nat.ofDigits base (l ++ List.replicate n 0) = Nat.ofDigits base l := by
  rw [Nat.ofDigits_append, show Nat.ofDigits base (List.replicate n 0) = 0 from ?_, Nat.mul_zero,
    Nat.add_zero]
  induction n with
  | zero => rfl
  | succ n ih => rw [List.replicate_succ, Nat.ofDigits_cons, ih, Nat.mul_zero]

/-- The bytes after the leading zeros are the digits of the number in base 256. -/
theorem digits_value {b rest : List UInt8} (hb : b = List.replicate (zeros b) 0 ++ rest)
    (hhead : ∀ x ∈ rest.head?, x ≠ 0) : Nat.digits 256 (value b) = (rest.map UInt8.toNat).reverse := by
  have hvalue : value b = Nat.ofDigits 256 (rest.map UInt8.toNat).reverse := by
    rw [value, hb, List.map_append, List.reverse_append, List.map_replicate, List.reverse_replicate]
    exact ofDigits_append_zeros 256 _ _
  rw [hvalue]
  refine Nat.digits_ofDigits 256 (by decide) _ ?_ ?_
  · intro d hd
    obtain ⟨x, -, rfl⟩ := List.mem_map.mp (List.mem_reverse.mp hd)
    exact x.toNat_lt
  · intro hne
    rw [List.getLast_reverse]
    cases rest with
    | nil => exact absurd rfl hne
    | cons x rest =>
        have hx := hhead x rfl
        intro hzero
        exact hx (UInt8.toNat_inj.mp hzero)

theorem takeWhile_zeros (n : Nat) {l : List Nat} (h : ∀ x ∈ l.head?, x ≠ 0) :
    ((List.replicate n 0 ++ l).takeWhile (· == 0)).length = n := by
  rw [List.takeWhile_append_of_pos (by
    intro x hx
    simp [List.eq_of_mem_replicate hx])]
  cases l with
  | nil => simp
  | cons x l => rw [List.takeWhile_cons_of_neg (by simpa using h x rfl)]; simp

/-- **Decoding undoes encoding.** -/
theorem decode_encode (b : List UInt8) : decode (encode b) = some b := by
  obtain ⟨rest, hb, hhead⟩ := eq_zeros_append b
  have hfirst : ∀ x ∈ (Nat.digits 58 (value b)).reverse.head?, x ≠ 0 := by
    intro x hx
    rw [List.head?_reverse] at hx
    by_cases hv : value b = 0
    · rw [hv] at hx
      cases hx
    · have hne : Nat.digits 58 (value b) ≠ [] := Nat.digits_ne_nil_iff_ne_zero.mpr hv
      rw [List.getLast?_eq_getLast_of_ne_nil hne, Option.mem_some_iff] at hx
      rw [← hx]
      exact Nat.getLast_digit_ne_zero 58 hv
  have hnumber : Nat.ofDigits 58 (List.replicate (zeros b) 0 ++ (Nat.digits 58 (value b)).reverse).reverse
      = value b := by
    rw [List.reverse_append, List.reverse_reverse, List.reverse_replicate, ofDigits_append_zeros,
      Nat.ofDigits_digits]
  rw [decode, encode_eq_map, mapM_digitOf (lt_of_mem_digits b)]
  show some (List.replicate _ 0 ++ (Nat.digits 256 (Nat.ofDigits 58 _)).reverse.map UInt8.ofNat) = some b
  rw [takeWhile_zeros _ hfirst, hnumber, digits_value hb hhead, List.reverse_reverse, List.map_map]
  have hid : rest.map (UInt8.ofNat ∘ UInt8.toNat) = rest := by
    simp [Function.comp_def]
  rw [hid, ← hb]

theorem encode_ne_nil {b : List UInt8} (h : b ≠ []) : encode b ≠ [] := by
  intro hnil
  have hd := decode_encode b
  rw [hnil, decode, List.mapM_nil] at hd
  have hempty : ([] : List UInt8) = b := Option.some.inj hd
  exact h hempty.symm

/-! ## What is decoded -/

theorem mapM_digitOf_eq {s : Str} {ds : List Nat} (h : s.mapM digitOf = some ds) :
    (∀ c ∈ s, c ∈ alphabet) ∧ (∀ d ∈ ds, d < 58) ∧ ds.length = s.length := by
  induction s generalizing ds with
  | nil =>
      cases h
      exact ⟨nofun, nofun, rfl⟩
  | cons c s ih =>
      rw [List.mapM_cons] at h
      obtain ⟨d, hd, h⟩ := Option.bind_eq_some_iff.mp h
      obtain ⟨ds', hds, h⟩ := Option.bind_eq_some_iff.mp h
      cases h
      obtain ⟨hs, hlt, hlen⟩ := ih hds
      rw [digitOf] at hd
      split at hd
      · next hc =>
          cases hd
          refine ⟨List.forall_mem_cons.mpr ⟨hc, hs⟩, List.forall_mem_cons.mpr ⟨?_, hlt⟩, ?_⟩
          · rw [← length_alphabet]
            exact List.idxOf_lt_length_iff.mpr hc
          · rw [List.length_cons, List.length_cons, hlen]
      · cases hd

/-- Only texts of the 58 digits are decoded. -/
theorem alphabet_of_decode {s : Str} {b : List UInt8} (h : decode s = some b) : ∀ c ∈ s, c ∈ alphabet := by
  obtain ⟨ds, hds, -⟩ := Option.bind_eq_some_iff.mp h
  exact (mapM_digitOf_eq hds).1

/-- A number has at most twice as many digits in base 58 as in base 256. -/
theorem length_digits_le (n : Nat) : (Nat.digits 58 n).length ≤ 2 * (Nat.digits 256 n).length := by
  by_cases hn : n = 0
  · rw [hn]
    simp
  · have hlow := Nat.base_pow_length_digits_le 58 n (by decide) hn
    have hhigh : n < 256 ^ (Nat.digits 256 n).length := Nat.lt_base_pow_length_digits (by decide)
    have hpow : 256 ^ (Nat.digits 256 n).length ≤ 58 ^ (2 * (Nat.digits 256 n).length) := by
      rw [Nat.pow_mul]
      exact Nat.pow_le_pow_left (by decide) _
    have hlt : 58 ^ (Nat.digits 58 n).length < 58 ^ (2 * (Nat.digits 256 n).length + 1) := by
      rw [Nat.pow_succ]
      omega
    exact Nat.lt_succ_iff.mp ((Nat.pow_lt_pow_iff_right (by decide)).mp hlt)

/-- **A text is at most twice as long as the bytes it is decoded to.** -/
theorem length_of_decode {s : Str} {b : List UInt8} (h : decode s = some b) : s.length ≤ 2 * b.length := by
  obtain ⟨ds, hds, hb⟩ := Option.bind_eq_some_iff.mp h
  obtain ⟨-, hlt, hlen⟩ := mapM_digitOf_eq hds
  cases hb
  have hsplit := (replicate_append_dropWhile ds).symm
  have hvalue : Nat.ofDigits 58 ds.reverse = Nat.ofDigits 58 (ds.dropWhile (· == 0)).reverse := by
    conv_lhs => rw [hsplit]
    rw [List.reverse_append, List.reverse_replicate, ofDigits_append_zeros]
  have hdigits : Nat.digits 58 (Nat.ofDigits 58 ds.reverse) = (ds.dropWhile (· == 0)).reverse := by
    rw [hvalue]
    refine Nat.digits_ofDigits 58 (by decide) _ ?_ ?_
    · intro d hd
      exact hlt d ((List.dropWhile_suffix _).subset (List.mem_reverse.mp hd))
    · intro hne
      rw [List.getLast_reverse]
      have hhead := List.head?_dropWhile_not (· == 0) ds
      rw [List.head?_eq_some_head (by simpa using hne)] at hhead
      simpa using hhead
  have hle := length_digits_le (Nat.ofDigits 58 ds.reverse)
  rw [hdigits, List.length_reverse] at hle
  have hcount := congrArg List.length hsplit
  rw [List.length_append, List.length_replicate] at hcount
  rw [List.length_append, List.length_replicate, List.length_map, List.length_reverse]
  omega

end Base58
