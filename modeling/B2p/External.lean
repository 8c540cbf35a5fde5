import B2p.Fs

/-!
# The code outside the repository

The cipher, BLAKE3, `serde_json` and `tar` are libraries. They enter every later module as one value of
`Externals`, whose fields are the functions called and the laws the program rests on: opening undoes
sealing, and decoding undoes encoding. `Externals.ideal` is one such value, so nothing below is said
about an empty class of worlds; its ciphertexts also open only under the nonce and the associated data
they were made with, as long as those data are short.
-/

namespace B2p

open Interaction

/-- `serde_json::to_vec` and `from_slice` at one type. -/
structure Codec (T : Type) where
  toVec : T → Bytes
  fromSlice : Bytes → Option T
  fromSlice_toVec : ∀ v, fromSlice (toVec v) = some v

/-- What the program calls and does not define. -/
structure Externals where
  cipher : Cipher
  /-- `blake3::hash(..).to_hex()`. -/
  blake3 : Bytes → String
  manifestJson : Codec Manifest
  manifestAckJson : Codec ManifestAck
  streamAckJson : Codec StreamManifestAck
  commitJson : Codec Commit
  commitAckJson : Codec CommitAck
  stateJson : Codec State
  /-- `tar::Archive::unpack` into the output directory. -/
  unpackTar : Bytes → Fs → Except IoError Unit × Fs
  /-- How `reqwest` prints a status code. -/
  statusText : Nat → String

/-- The disk every program below runs on. -/
def Externals.handle (X : Externals) : Prog.Handler fsEffects Fs := Fs.handle X.unpackTar

attribute [simp] Codec.fromSlice_toVec

theorem Codec.toVec_injective {T : Type} (c : Codec T) : Function.Injective c.toVec := by
  intro a b h
  have hab : c.fromSlice (c.toVec a) = c.fromSlice (c.toVec b) := congrArg c.fromSlice h
  rwa [c.fromSlice_toVec, c.fromSlice_toVec, Option.some.injEq] at hab

/-! ## One such world -/

section ideal

instance instEncodableChar : Encodable Char :=
  Encodable.ofLeftInverse Char.toNat Char.ofNat Char.ofNat_toNat

instance instEncodableString : Encodable String :=
  Encodable.ofLeftInverse String.toList String.ofList (fun _ => String.ofList_toList)

instance instEncodableUInt8 : Encodable UInt8 :=
  Encodable.ofLeftInverse UInt8.toNat UInt8.ofNat (fun _ => UInt8.ofNat_toNat)

instance : Encodable (SortedSet Nat) :=
  Encodable.ofLeftInverse
    (fun s : SortedSet Nat => (⟨s.toList, s.sorted⟩ : { l : List Nat // l.Pairwise (· < ·) }))
    (fun l => ⟨l.1, l.2⟩) (fun _ => rfl)

deriving instance Encodable for Entry, Manifest, ManifestAck, StreamManifestAck, Commit, CommitAck, State

/-- Any encodable type has a codec: write its number in unary. -/
def Codec.unary (T : Type) [Encodable T] : Codec T where
  toVec v := List.replicate (Encodable.encode v) 0
  fromSlice b := Encodable.decode b.length
  fromSlice_toVec v := by rw [List.length_replicate, Encodable.encodek]

/-- Write one value as nothing, and the others with another codec. -/
def Codec.brief {T : Type} [DecidableEq T] (v₀ : T) (c : Codec T) : Codec T where
  toVec v := if v = v₀ then [] else 0 :: c.toVec v
  fromSlice
    | [] => some v₀
    | _ :: b => c.fromSlice b
  fromSlice_toVec v := by
    by_cases hv : v = v₀
    · rw [if_pos hv, hv]
    · rw [if_neg hv]
      exact c.fromSlice_toVec v

namespace Cipher

/-- The tag tells nonces of `make_nonce`, and associated data of up to six bytes, apart. -/
def Plain (nonce aad : Bytes) : Prop :=
  nonce.length = 24 ∧ (nonce.drop 1).take 15 = List.replicate 15 0 ∧ aad.length ≤ 6

instance (nonce aad : Bytes) : Decidable (Plain nonce aad) :=
  inferInstanceAs (Decidable (_ ∧ _ ∧ _))

/-- The domain, the index, the length of the associated data and the data. -/
def tag (nonce aad : Bytes) : Bytes :=
  if Plain nonce aad then
    nonce.take 1 ++ (nonce.drop 16 ++ UInt8.ofNat aad.length :: (aad ++ List.replicate (6 - aad.length) 0))
  else List.replicate 16 255

theorem length_tag (nonce aad : Bytes) : (tag nonce aad).length = 16 := by
  unfold tag
  split
  · next h =>
      have hlen := h.1
      have haad := h.2.2
      simp only [List.length_append, List.length_take, List.length_drop, List.length_cons,
        List.length_replicate]
      omega
  · exact List.length_replicate

theorem plain_makeNonce (d : Domain) (i : Nat) {aad : Bytes} (h : aad.length ≤ 6) :
    Plain (makeNonce d i) aad := by
  refine ⟨?_, rfl, h⟩
  rw [makeNonce, List.length_cons, List.length_append, List.length_replicate, length_toLeBytes]

/-- A ciphertext under a tag. -/
def ideal : Cipher where
  encrypt _ nonce aad msg := tag nonce aad ++ msg
  decrypt _ nonce aad ct := if (tag nonce aad).isPrefixOf ct then some (ct.drop 16) else none
  decrypt_encrypt key nonce aad msg := by
    rw [if_pos (by simp), ← length_tag nonce aad, List.drop_left]
  length_encrypt key nonce aad msg := by rw [List.length_append, length_tag, Nat.add_comm]

/-- What is shorter than a tag is no ciphertext. -/
theorem ideal_decrypt_of_short {key nonce aad ct : Bytes} (h : ct.length < 16) :
    ideal.decrypt key nonce aad ct = none := by
  refine if_neg fun hprefix => ?_
  have hle := (List.isPrefixOf_iff_prefix.mp hprefix).length_le
  rw [length_tag] at hle
  omega

theorem toNat_ofNat_of_le {n : Nat} (h : n ≤ 6) : (UInt8.ofNat n).toNat = n := by
  rw [UInt8.toNat_ofNat', Nat.mod_eq_of_lt (by omega)]

theorem eq_of_plain {nonce aad : Bytes} (h : Plain nonce aad) :
    nonce = nonce.take 1 ++ (List.replicate 15 0 ++ nonce.drop 16) := by
  rw [← h.2.1, show nonce.drop 16 = (nonce.drop 1).drop 15 by rw [List.drop_drop], List.take_append_drop,
    List.take_append_drop]

theorem tag_inj {nonce nonce' aad aad' : Bytes} (h : Plain nonce aad) (heq : tag nonce' aad' = tag nonce aad) :
    nonce' = nonce ∧ aad' = aad := by
  by_cases h' : Plain nonce' aad'
  · rw [tag, if_pos h', tag, if_pos h] at heq
    obtain ⟨hdomain, hrest⟩ := List.append_inj heq (by simp [h.1, h'.1])
    obtain ⟨hindex, hdata⟩ := List.append_inj hrest (by simp [h.1, h'.1])
    rw [List.cons.injEq] at hdata
    have hlen : aad'.length = aad.length := by
      rw [← toNat_ofNat_of_le h'.2.2, ← toNat_ofNat_of_le h.2.2, hdata.1]
    refine ⟨?_, (List.append_inj hdata.2 hlen).1⟩
    rw [eq_of_plain h, eq_of_plain h', hdomain, hindex]
  · -- no length of such data is 255
    have hsplit : List.replicate 16 (255 : UInt8)
        = List.replicate 1 255 ++ (List.replicate 8 255 ++ 255 :: List.replicate 6 255) := rfl
    rw [tag, if_neg h', tag, if_pos h, hsplit] at heq
    obtain ⟨-, hrest⟩ := List.append_inj heq (by simp [h.1])
    obtain ⟨-, hdata⟩ := List.append_inj hrest (by simp [h.1])
    have hlen := toNat_ofNat_of_le h.2.2
    rw [← (List.cons.inj hdata).1] at hlen
    have hshort : 255 ≤ 6 := hlen.trans_le h.2.2
    exact absurd hshort (by decide)

/-- An ideal ciphertext decrypts as what was encrypted, and nothing else. -/
theorem ideal_decrypt_eq {key nonce nonce' aad aad' pt pt' : Bytes}
    (h : ideal.decrypt key nonce' aad' (ideal.encrypt key nonce aad pt) = some pt') :
    tag nonce' aad' = tag nonce aad ∧ pt' = pt := by
  replace h : (if (tag nonce' aad').isPrefixOf (tag nonce aad ++ pt) then
      some ((tag nonce aad ++ pt).drop 16) else none) = some pt' := h
  split at h
  · next hprefix =>
      have hlen : (tag nonce' aad').length = (tag nonce aad).length := by rw [length_tag, length_tag]
      refine ⟨?_, ?_⟩
      · obtain ⟨rest, hrest⟩ := List.isPrefixOf_iff_prefix.mp hprefix
        exact (List.append_inj hrest hlen).1
      · rw [← length_tag nonce aad, List.drop_left, Option.some.injEq] at h
        exact h.symm
  · cases h

/-- An ideal ciphertext opens at its own nonce only. -/
theorem ideal_open_inj {key pt pt' : Bytes} {d d' : Domain} {i i' : Nat} (hi : i < 2 ^ 64)
    (hi' : i' < 2 ^ 64) (h : ideal.open_ key d i [] (ideal.seal_ key d' i' [] pt) = some pt') :
    d = d' ∧ i = i' :=
  makeNonce_inj hi hi' (tag_inj (plain_makeNonce d' i' (Nat.zero_le _)) (ideal_decrypt_eq h).1).1

end Cipher

def Externals.ideal (blake3 : Bytes → String) : Externals where
  cipher := Cipher.ideal
  blake3 := blake3
  manifestJson := Codec.unary _
  manifestAckJson := Codec.unary _
  streamAckJson := Codec.unary _
  commitJson := Codec.unary _
  commitAckJson := Codec.unary _
  stateJson := Codec.unary _
  unpackTar _ fs := (.ok (), fs)
  statusText code := toString code

end ideal

end B2p
