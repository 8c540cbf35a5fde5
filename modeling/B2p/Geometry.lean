import B2p.Lib.Tiling
import B2p.Tunnel.Panics

/-!
# Chunk geometry

Four functions cut a transfer into chunks: `chunk_len` takes what is left up to a chunk, `read_chunk` the
same the other way round, `Store::expected_len` treats the last chunk apart, and the two `total_chunks`
divide rounding up. Here they are with the arithmetic of `u64` checked, next to what they all compute: the
blocks of one size of a file, whose general facts are in `Tiles`.

* `Checked.divCeil`, `Checked.totalChunks`, `Checked.chunkLen`, `Checked.readChunk` — the functions that
  `Panics` does not have.
* `geometry` — sender and receiver agree on every chunk, and nothing overflows.

`usize` is as wide as `u64`.
-/

namespace B2p

open Interaction Prog
open Server.Checked (subOrPanic mulOrPanic divCeilOrPanic)

namespace Checked

def addOrPanic (a b : Nat) : Except Fault Nat :=
  if a + b < 2 ^ 64 then .ok (a + b) else .error (.panic "attempt to add with overflow")

/-- `u64::div_ceil`, with the addition it makes. -/
def divCeil (a b : Nat) : Except Fault Nat :=
  if b = 0 then .error (.panic "attempt to divide by zero")
  else if a % b > 0 then addOrPanic (a / b) 1
  else .ok (a / b)

/-- `Manifest::total_chunks`. -/
def totalChunks (m : Manifest) : Except Fault Nat := divCeil m.totalSize m.chunkSize

/-- `chunk_len`. -/
def chunkLen (i totalSize chunkSize : Nat) : Except Fault Nat := do
  let rest ← subOrPanic totalSize (← mulOrPanic i chunkSize)
  return min rest chunkSize

section

variable {E : Effects} (readAt : Nat → Nat → Prog E Fault (Except IoError Bytes))

/-- Seek, and fill a buffer of `len` bytes with `read_exact`. -/
def readExact (off len : Nat) : Prog E Fault Bytes := do
  let r ← readAt off len
  ofExcept (r.mapError fun e => .err (.io e))

/-- `send::read_chunk`; `readAt` is what the machine does for it. -/
def readChunk (index chunkSize totalSize : Nat) : Prog E Fault Bytes := do
  let off ← ofExcept (mulOrPanic index chunkSize)
  let start ← ofExcept (mulOrPanic index chunkSize)
  let rest ← ofExcept (subOrPanic totalSize start)
  readExact readAt off (min chunkSize rest)

end

/-- A file with this content. -/
def readFile {E : Effects} (content : Bytes) (off len : Nat) : Prog E Fault (Except IoError Bytes) :=
  .ret (if off + len ≤ content.length then .ok (slice off len content)
    else .error (.other "failed to fill whole buffer"))

/-! ## Without a panic -/

section

variable {totalSize chunkSize i : Nat}

/-- The quotient can only be raised where it is no more than half of the number. -/
theorem divCeil_eq (hc : 0 < chunkSize) (htotal : totalSize < 2 ^ 64) :
    divCeil totalSize chunkSize = .ok (Interaction.divCeil totalSize chunkSize) := by
  rw [divCeil, if_neg (by omega), Interaction.divCeil]
  split
  · next hrest =>
      have htwo : 2 ≤ chunkSize := by
        by_contra hsmall
        obtain rfl : chunkSize = 1 := by omega
        rw [Nat.mod_one] at hrest
        exact Nat.lt_irrefl 0 hrest
      have hhalf : totalSize / chunkSize ≤ totalSize / 2 := Nat.div_le_div_left htwo (by decide)
      rw [addOrPanic, if_pos (by omega)]
  · rfl

/-- `Panics` leaves this addition out, as it never overflows. -/
theorem divCeilOrPanic_eq (htotal : totalSize < 2 ^ 64) :
    divCeilOrPanic totalSize chunkSize = divCeil totalSize chunkSize := by
  rcases Nat.eq_zero_or_pos chunkSize with hc | hc
  · rw [divCeilOrPanic, divCeil, if_pos hc, if_pos hc]
  · rw [divCeilOrPanic, divCeil_eq hc htotal, if_neg (by omega)]

variable (htotal : totalSize < 2 ^ 64) (hstart : i * chunkSize < totalSize)
include htotal hstart

theorem mulOrPanic_eq : mulOrPanic i chunkSize = .ok (i * chunkSize) := if_pos (by omega)

theorem chunkLen_eq : chunkLen i totalSize chunkSize = .ok (Stream.chunkLen i totalSize chunkSize) := by
  have hsub : subOrPanic totalSize (i * chunkSize) = .ok (totalSize - i * chunkSize) := if_pos hstart.le
  rw [chunkLen, mulOrPanic_eq htotal hstart]
  show (subOrPanic totalSize (i * chunkSize) >>= _) = _
  rw [hsub]
  rfl

theorem readChunk_eq {E : Effects} (readAt : Nat → Nat → Prog E Fault (Except IoError Bytes)) :
    readChunk readAt i chunkSize totalSize
      = readExact readAt (i * chunkSize) (Stream.chunkLen i totalSize chunkSize) := by
  have hsub : subOrPanic totalSize (i * chunkSize) = .ok (totalSize - i * chunkSize) := if_pos hstart.le
  rw [readChunk, mulOrPanic_eq htotal hstart, ofExcept_ok, ret_bind, ret_bind, hsub, ofExcept_ok, ret_bind,
    Stream.chunkLen, min_comm]

/-- The chunk of a file of the size announced. -/
theorem readChunk_file {E : Effects} {content : Bytes} (hlength : content.length = totalSize) :
    readChunk (E := E) (readFile content) i chunkSize totalSize
      = .ret (slice (i * chunkSize) (Stream.chunkLen i totalSize chunkSize) content) := by
  have hfits : i * chunkSize + Stream.chunkLen i totalSize chunkSize ≤ content.length := by
    rw [Stream.chunkLen]
    omega
  rw [readChunk_eq htotal hstart, readExact, readFile, if_pos hfits]
  rfl

/-- In a session over a stream. -/
theorem readChunk_stream :
    readChunk (E := streamEffects) (fun off len => .step (.loc (.readAt off len)) .ret) i chunkSize totalSize
      = (Stream.readChunk i chunkSize totalSize).mapError .err := by
  rw [readChunk_eq htotal hstart, Stream.chunkLen, min_comm]
  refine congrArg (Prog.step _) (funext fun r => ?_)
  cases r <;> rfl

/-- In a transfer over the tunnel. -/
theorem readChunk_tunnel :
    readChunk (E := sendEffects) (fun off len => .step (.readAt off len) .ret) i chunkSize totalSize
      = (Tunnel.readChunk i chunkSize totalSize).mapError .err := by
  rw [readChunk_eq htotal hstart, Stream.chunkLen, min_comm]
  refine congrArg (Prog.step _) (funext fun r => ?_)
  cases r <;> rfl

end

end Checked

/-! ## Agreement -/

/-- Every chunk has something in it, and no more than a chunk. -/
theorem Stream.chunkLen_bounds {i totalSize chunkSize : Nat} (hc : 0 < chunkSize)
    (hi : i < divCeil totalSize chunkSize) :
    1 ≤ Stream.chunkLen i totalSize chunkSize ∧ Stream.chunkLen i totalSize chunkSize ≤ chunkSize := by
  have hstart := (lt_divCeil_iff hc).mp hi
  rw [Stream.chunkLen]
  omega

/-- **Sender and receiver cut a transfer into the same chunks, and no arithmetic on the way overflows.**
The store is one opened for the manifest. The last two lines say that a session over a stream and one over the
tunnel read their chunks so. -/
theorem geometry {m : Manifest} {s : Store} (hsize : s.state.totalSize = m.totalSize)
    (hchunk : s.state.chunkSize = m.chunkSize) (htotal : m.totalSize < 2 ^ 64) (hc : 1 ≤ m.chunkSize) :
    Checked.totalChunks m = .ok m.totalChunks ∧ Server.Checked.totalChunks s = .ok m.totalChunks ∧
    Tiles m.totalChunks (fun i => i * m.chunkSize) (fun i => Stream.chunkLen i m.totalSize m.chunkSize)
      m.totalSize ∧
    ∀ i < m.totalChunks, ∃ len, 1 ≤ len ∧ len ≤ m.chunkSize ∧
      Stream.chunkLen i m.totalSize m.chunkSize = len ∧
      Checked.chunkLen i m.totalSize m.chunkSize = .ok len ∧
      Server.Checked.expectedLen s i = .ok len ∧
      (∀ {E : Effects} (readAt : Nat → Nat → Prog E Fault (Except IoError Bytes)),
        Checked.readChunk readAt i m.chunkSize m.totalSize
          = Checked.readExact readAt (i * m.chunkSize) len) ∧
      (∀ {E : Effects} {content : Bytes}, content.length = m.totalSize →
        ∃ b, Checked.readChunk (E := E) (Checked.readFile content) i m.chunkSize m.totalSize = .ret b ∧
          b.length = len) ∧
      Checked.readChunk (E := streamEffects) (fun off len => .step (.loc (.readAt off len)) .ret) i m.chunkSize
        m.totalSize = (Stream.readChunk i m.chunkSize m.totalSize).mapError .err ∧
      Checked.readChunk (E := sendEffects) (fun off len => .step (.readAt off len) .ret) i m.chunkSize
        m.totalSize = (Tunnel.readChunk i m.chunkSize m.totalSize).mapError .err := by
  have hcs : s.state.chunkSize ≠ 0 := by omega
  have hn : s.totalChunks = m.totalChunks := by
    rw [Store.totalChunks, hsize, hchunk, Manifest.totalChunks]
  refine ⟨Checked.divCeil_eq hc htotal, ?_, tiles_blocks hc _, ?_⟩
  · rw [Server.Checked.totalChunks, hsize, hchunk, Checked.divCeilOrPanic_eq htotal]
    exact Checked.divCeil_eq hc htotal
  · intro i hi
    have hstart := (lt_divCeil_iff hc).mp hi
    obtain ⟨hone, hle⟩ := Stream.chunkLen_bounds hc hi
    refine ⟨_, hone, hle, rfl, Checked.chunkLen_eq htotal hstart, ?_, Checked.readChunk_eq htotal hstart, ?_,
      Checked.readChunk_stream htotal hstart, Checked.readChunk_tunnel htotal hstart⟩
    · rw [Server.Checked.expectedLen_eq hcs (hsize ▸ htotal) (hn ▸ hi),
        Store.expectedLen_eq (Nat.pos_of_ne_zero hcs) (hn ▸ hi), hsize, hchunk, Stream.chunkLen, min_comm]
    · intro E content hlength
      refine ⟨_, Checked.readChunk_file htotal hstart hlength, ?_⟩
      rw [length_slice, hlength, Stream.chunkLen]
      omega

/-- As many bytes as a `u64` can count. -/
def largestManifest : Manifest := ⟨PROTOCOL_VERSION, "t", .file, "f", [], 2 ^ 64 - 1, 2 ^ 62, none⟩

def largestStore : Store := ⟨"f.b2p-partial", 0, Store.freshState "t" (2 ^ 64 - 1) (2 ^ 62)⟩

/-- In chunks of `2 ^ 62` these are four, and the last is a byte short. -/
theorem geometry_largest : largestManifest.totalChunks = 4 ∧
    Server.Checked.expectedLen largestStore 3 = .ok (2 ^ 62 - 1) := by
  have hn : largestManifest.totalChunks = 4 := by decide
  have h := geometry (m := largestManifest) (s := largestStore) rfl rfl (by decide) (by decide)
  obtain ⟨len, -, -, hlen, -, hexpected, -⟩ := h.2.2.2 3 (by rw [hn]; decide)
  have hlast : Stream.chunkLen 3 largestManifest.totalSize largestManifest.chunkSize = 2 ^ 62 - 1 := by decide
  rw [← hlast, hlen]
  exact ⟨hn, hexpected⟩

end B2p
