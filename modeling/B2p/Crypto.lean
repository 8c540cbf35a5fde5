import Mathlib.Data.List.Basic
import Mathlib.Algebra.Order.Ring.Nat
import Mathlib.Tactic.Common

/-!
# Sealing (`crypto.rs`)

Every message and every chunk is sealed under a nonce made from a domain byte and an index. The
cipher itself is outside the repository; it is a parameter (`Cipher`) with the two laws the code
relies on: decrypting undoes encrypting under the same key, nonce and associated data, and a ciphertext
is as long as the plaintext and the tag.
-/

namespace B2p

abbrev Bytes := List UInt8

/-- Keys are `[u8; 32]` in the source; nothing below looks inside one. -/
abbrev Key := Bytes

/-- `str::as_bytes`. -/
def asBytes (s : String) : Bytes := s.toUTF8.data.toList

def CHUNK_SIZE : Nat := 4 * 1024 * 1024

/-- `crypto::Domain`: which kind of message a nonce is for. -/
inductive Domain where
  | manifest
  | data
  | commit
  | streamToReceiver
  | streamToSender
  deriving DecidableEq, Repr

/-- `domain as u8`. -/
def Domain.toByte : Domain → UInt8
  | .manifest => 0x01
  | .data => 0x02
  | .commit => 0x03
  | .streamToReceiver => 0x04
  | .streamToSender => 0x05

/-- `u64::to_le_bytes`, the low `w` bytes of `n`, least significant first. -/
def toLeBytes : Nat → Nat → Bytes
  | 0, _ => []
  | w + 1, n => UInt8.ofNat (n % 256) :: toLeBytes w (n / 256)

/-- `make_nonce`: 24 bytes, the domain first, the index as the last eight. -/
def makeNonce (domain : Domain) (index : Nat) : Bytes :=
  domain.toByte :: (List.replicate 15 0 ++ toLeBytes 8 index)

/-- XChaCha20-Poly1305 as the code uses it. A Poly1305 tag has 16 bytes. -/
structure Cipher where
  encrypt : Key → Bytes → Bytes → Bytes → Bytes
  decrypt : Key → Bytes → Bytes → Bytes → Option Bytes
  decrypt_encrypt : ∀ key nonce aad msg,
    decrypt key nonce aad (encrypt key nonce aad msg) = some msg
  length_encrypt : ∀ key nonce aad msg, (encrypt key nonce aad msg).length = msg.length + 16

namespace Cipher

variable (cipher : Cipher)

/-- `crypto::seal`. -/
def seal_ (key : Key) (domain : Domain) (index : Nat) (aad plaintext : Bytes) : Bytes :=
  cipher.encrypt key (makeNonce domain index) aad plaintext

/-- `crypto::open`; `none` is `CryptoError`. -/
def open_ (key : Key) (domain : Domain) (index : Nat) (aad ciphertext : Bytes) : Option Bytes :=
  cipher.decrypt key (makeNonce domain index) aad ciphertext

@[simp] theorem open_seal_ (key : Key) (domain : Domain) (index : Nat) (aad plaintext : Bytes) :
    cipher.open_ key domain index aad (cipher.seal_ key domain index aad plaintext)
      = some plaintext :=
  cipher.decrypt_encrypt _ _ _ _

@[simp] theorem length_seal_ (key : Key) (domain : Domain) (index : Nat) (aad plaintext : Bytes) :
    (cipher.seal_ key domain index aad plaintext).length = plaintext.length + 16 :=
  cipher.length_encrypt _ _ _ _

end Cipher

/-! ## Nonces are as good as (domain, index) pairs -/

theorem Domain.toByte_injective : Function.Injective Domain.toByte := by
  intro a b h
  cases a <;> cases b <;> first | rfl | exact absurd h (by decide)

@[simp] theorem length_toLeBytes (w n : Nat) : (toLeBytes w n).length = w := by
  induction w generalizing n with
  | zero => rfl
  | succ w ih => simp [toLeBytes, ih]

theorem toLeBytes_inj {w m n : Nat} (hm : m < 256 ^ w) (hn : n < 256 ^ w)
    (h : toLeBytes w m = toLeBytes w n) : m = n := by
  induction w generalizing m n with
  | zero =>
      rw [Nat.pow_zero] at hm hn
      omega
  | succ w ih =>
      rw [toLeBytes, toLeBytes, List.cons.injEq] at h
      have hlow : m % 256 = n % 256 := by
        have := congrArg UInt8.toNat h.1
        simpa using this
      have hhigh : m / 256 = n / 256 :=
        ih (by rw [Nat.pow_succ] at hm; omega) (by rw [Nat.pow_succ] at hn; omega) h.2
      omega

/-- **Two nonces are equal only for the same domain and index**, as long as indices are `u64`. -/
theorem makeNonce_inj {d d' : Domain} {i i' : Nat} (hi : i < 2 ^ 64) (hi' : i' < 2 ^ 64)
    (h : makeNonce d i = makeNonce d' i') : d = d' ∧ i = i' := by
  rw [makeNonce, makeNonce, List.cons.injEq, List.append_cancel_left_eq] at h
  exact ⟨Domain.toByte_injective h.1, toLeBytes_inj hi hi' h.2⟩

end B2p
