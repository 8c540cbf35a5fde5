import B2p.Protocol
import B2p.Lib.Pieces
import Mathlib.Data.Nat.Bitwise
import Mathlib.Tactic.Ring

/-!
# Framing (`pack_frames` and `Debatcher` of `transport/relay.rs`)

A binary WebSocket message carries pieces `u32 LE header || bytes`: the low 31 bits of the header are
the length, the top bit says that the frame goes on in a later piece.

* `packFrames`, `Debatcher.push` — the two functions.
* `encode` — a message as its pieces; `packFrames_cut` — what `packFrames` makes is the encoding of a
  `Cut` of the queue; `push_encode` — the `Debatcher` reassembles what is encoded.
* `drain` — repeated `pack_frames`, which ends (`drain_pieces`).
* `runQueue` — any use of a queue, frames added and payloads taken in any order (`runQueue_pieces`).
-/

namespace B2p

open Framing

/-- Cloudflare Workers reject messages over 1 MiB; stay well under. -/
def MAX_WS_PAYLOAD : Nat := 960 * 1024

def CONT : UInt32 := (1 : UInt32) <<< 31

/-- Largest logical frame the reader will reassemble. -/
def MAX_LOGICAL_FRAME : Nat := 64 * 1024 * 1024

/-- `u32::to_le_bytes`. -/
def u32ToLe (n : UInt32) : Bytes := toLeBytes 4 n.toNat

def fromLeBytes : Bytes → Nat
  | [] => 0
  | b :: bs => b.toNat + 256 * fromLeBytes bs

/-- `u32::from_le_bytes`. -/
def u32FromLe (b : Bytes) : UInt32 := UInt32.ofNat (fromLeBytes b)

/-! ## `pack_frames` -/

/-- The loop: `buf` so far, and the payload and the queue at the end. -/
def packLoop (buf : Bytes) : List Bytes → Bytes × List Bytes
  | [] => (buf, [])
  | front :: rest =>
      let room := MAX_WS_PAYLOAD - (buf.length + 4)
      if room = 0 then (buf, front :: rest)
      else if front.length ≤ room then
        packLoop (buf ++ u32ToLe (UInt32.ofNat front.length) ++ front) rest
      else
        -- `split_off`: the piece goes out, the rest of the frame stays in front
        let piece := front.take room
        (buf ++ u32ToLe (UInt32.ofNat piece.length ||| CONT) ++ piece, front.drop room :: rest)

/-- `pack_frames`: one payload, if there is anything to send, and the queue left. -/
def packFrames (pending : List Bytes) : Option Bytes × List Bytes :=
  let r := packLoop [] pending
  (if r.1.isEmpty then none else some r.1, r.2)

/-! ## `Debatcher` -/

structure Debatcher where
  partial_ : Bytes
  deriving DecidableEq

/-- `Debatcher::default()`. -/
def Debatcher.empty : Debatcher := ⟨[]⟩

/-- The loop of `push`: the frames so far in `out`, the unread part of the message in `p`. -/
def Debatcher.pushLoop (d : Debatcher) (out : List Bytes) (p : Bytes) :
    Except Anyhow (List Bytes) × Debatcher :=
  if _hne : p = [] then (.ok out, d)
  else if p.length < 4 then (.error (.msg "truncated sub-frame header"), d)
  else
    let hdr := u32FromLe (p.take 4)
    let len := (hdr &&& ~~~CONT).toNat
    let body := p.drop 4
    if body.length < len then (.error (.msg "truncated sub-frame body"), d)
    else if d.partial_.length + len > MAX_LOGICAL_FRAME then
      (.error (.msg ("logical frame exceeds " ++ toString MAX_LOGICAL_FRAME ++ " bytes")), d)
    else
      let frame := d.partial_ ++ body.take len
      if hdr &&& CONT ≠ 0 then pushLoop ⟨frame⟩ out (body.drop len)
      else pushLoop ⟨[]⟩ (out ++ [frame]) (body.drop len)
termination_by p.length
decreasing_by
  all_goals
    have : 0 < p.length := List.length_pos_iff.mpr _hne
    simp only [List.length_drop]
    omega

/-- `Debatcher::push`. -/
def Debatcher.push (d : Debatcher) (p : Bytes) : Except Anyhow (List Bytes) × Debatcher :=
  d.pushLoop [] p

/-! ## Headers -/

/-- The header of a piece. -/
def pieceHeader (cont : Bool) (len : Nat) : UInt32 :=
  if cont then UInt32.ofNat len ||| CONT else UInt32.ofNat len

theorem fromLeBytes_toLeBytes {w n : Nat} (hn : n < 256 ^ w) : fromLeBytes (toLeBytes w n) = n := by
  induction w generalizing n with
  | zero =>
      rw [Nat.pow_zero] at hn
      show 0 = n
      omega
  | succ w ih =>
      have hhigh : n / 256 < 256 ^ w := by
        rw [Nat.pow_succ] at hn
        omega
      have hlow : (UInt8.ofNat (n % 256)).toNat = n % 256 := by simp
      rw [toLeBytes, fromLeBytes, ih hhigh, hlow]
      omega

@[simp] theorem u32FromLe_u32ToLe (n : UInt32) : u32FromLe (u32ToLe n) = n := by
  rw [u32FromLe, u32ToLe, fromLeBytes_toLeBytes n.toNat_lt, UInt32.ofNat_toNat]

@[simp] theorem length_u32ToLe (n : UInt32) : (u32ToLe n).length = 4 := length_toLeBytes 4 _

theorem toNat_CONT : CONT.toNat = 2 ^ 31 := rfl

theorem toNat_not_CONT : (~~~CONT).toNat = 2 ^ 31 - 1 := rfl

theorem toNat_pieceHeader (cont : Bool) {len : Nat} (h : len < 2 ^ 31) :
    (pieceHeader cont len).toNat = 2 ^ 31 * cont.toNat + len := by
  have hlen : (UInt32.ofNat len).toNat = len := UInt32.toNat_ofNat_of_lt' (lt_trans h (by decide))
  cases cont with
  | false => simpa [pieceHeader] using hlen
  | true =>
      show (UInt32.ofNat len ||| CONT).toNat = 2 ^ 31 * 1 + len
      rw [UInt32.toNat_or, hlen, toNat_CONT, Nat.or_comm, Nat.two_pow_add_eq_or_of_lt h, Nat.mul_one]

/-- The length is what is left of the header without its top bit. -/
theorem pieceHeader_len (cont : Bool) {len : Nat} (h : len < 2 ^ 31) :
    (pieceHeader cont len &&& ~~~CONT).toNat = len := by
  rw [UInt32.toNat_and, toNat_pieceHeader cont h, toNat_not_CONT, Nat.and_two_pow_sub_one_eq_mod,
    Nat.mul_add_mod, Nat.mod_eq_of_lt h]

/-- The top bit says whether the frame goes on. -/
theorem pieceHeader_cont (cont : Bool) {len : Nat} (h : len < 2 ^ 31) :
    pieceHeader cont len &&& CONT ≠ 0 ↔ cont = true := by
  have hbit : (2 ^ 31 * cont.toNat + len).testBit 31 = cont := by
    rw [Nat.testBit_two_pow_mul_add _ h]
    cases cont <;> rfl
  rw [ne_eq, ← UInt32.toNat_inj, UInt32.toNat_and, toNat_pieceHeader cont h, toNat_CONT,
    Nat.and_two_pow, hbit]
  cases cont <;> simp

/-! ## Messages as pieces -/

/-- The bytes of some pieces. -/
def encode (ps : List (Piece UInt8)) : Bytes :=
  ps.flatMap fun p => u32ToLe (pieceHeader p.cont p.items.length) ++ p.items

theorem encode_append (ps qs : List (Piece UInt8)) : encode (ps ++ qs) = encode ps ++ encode qs :=
  List.flatMap_append

/-- How much there is to pack: every frame has a header. -/
def weight (q : List Bytes) : Nat := (q.map fun f => f.length + 1).sum

@[simp] theorem weight_cons (f : Bytes) (q : List Bytes) : weight (f :: q) = f.length + 1 + weight q :=
  rfl

/-- What an open payload can still take, in pieces: `packLoop` cuts the queue, stays within the
payload, and cuts nothing only where it has no queue or no room. -/
theorem packLoop_cut (q : List Bytes) (buf : Bytes) (hbuf : buf.length ≤ MAX_WS_PAYLOAD) :
    ∃ ps, (packLoop buf q).1 = buf ++ encode ps ∧ Cut ps q (packLoop buf q).2 ∧
      (packLoop buf q).1.length ≤ MAX_WS_PAYLOAD ∧ (∀ p ∈ ps, p.items.length < 2 ^ 31) ∧
      weight (packLoop buf q).2 ≤ weight q ∧ (q ≠ [] → buf.length + 4 < MAX_WS_PAYLOAD →
        ps ≠ [] ∧ weight (packLoop buf q).2 < weight q) := by
  have hmax : MAX_WS_PAYLOAD < 2 ^ 31 := by decide
  induction q generalizing buf with
  | nil => exact ⟨[], by simp [packLoop, encode], .nil _, hbuf, by simp, le_rfl, by simp⟩
  | cons front rest ih =>
      rw [packLoop]
      split
      · next hroom =>
          -- no room for a header and a byte
          refine ⟨[], by simp [encode], .nil _, hbuf, by simp, le_rfl, ?_⟩
          intro _ hspace
          omega
      · next hroom =>
          split
          · next hfits =>
              -- the frame goes in whole
              obtain ⟨ps, heq, hcut, hlen, hsmall, hweight, -⟩ :=
                ih (buf ++ u32ToLe (UInt32.ofNat front.length) ++ front) (by
                  rw [List.length_append, List.length_append, length_u32ToLe]
                  omega)
              have hless : weight (packLoop (buf ++ u32ToLe (UInt32.ofNat front.length) ++ front) rest).2
                  < weight (front :: rest) := by
                rw [weight_cons]
                omega
              refine ⟨⟨false, front⟩ :: ps, ?_, .whole front hcut, hlen, ?_, hless.le,
                fun _ _ => ⟨List.cons_ne_nil _ _, hless⟩⟩
              · rw [heq]
                simp [encode, pieceHeader]
              · intro p hp
                rcases List.mem_cons.mp hp with rfl | hp
                · show front.length < 2 ^ 31
                  omega
                · exact hsmall p hp
          · next hlong =>
              -- the frame is split, and the message is full
              have htake : (front.take (MAX_WS_PAYLOAD - (buf.length + 4))).length
                  = MAX_WS_PAYLOAD - (buf.length + 4) := by
                rw [List.length_take]
                omega
              have hless : weight (front.drop (MAX_WS_PAYLOAD - (buf.length + 4)) :: rest)
                  < weight (front :: rest) := by
                rw [weight_cons, weight_cons, List.length_drop]
                omega
              refine ⟨[⟨true, front.take (MAX_WS_PAYLOAD - (buf.length + 4))⟩], ?_, .split _ _ _, ?_,
                ?_, hless.le, fun _ _ => ⟨List.cons_ne_nil _ _, hless⟩⟩
              · simp [encode, pieceHeader]
              · rw [List.length_append, List.length_append, length_u32ToLe, htake]
                omega
              · intro p hp
                rw [List.mem_singleton.mp hp]
                show (front.take _).length < 2 ^ 31
                omega

/-- **What `pack_frames` makes of a queue**: a message of some pieces cut from its front, not empty
and not too long; none for the empty queue only. -/
theorem packFrames_cut (q : List Bytes) :
    (q = [] ∧ packFrames q = (none, [])) ∨
    ∃ ps rest, q ≠ [] ∧ packFrames q = (some (encode ps), rest) ∧ Cut ps q rest ∧
      encode ps ≠ [] ∧ (encode ps).length ≤ MAX_WS_PAYLOAD ∧
      (∀ p ∈ ps, p.items.length < 2 ^ 31) ∧ weight rest < weight q := by
  by_cases hq : q = []
  · subst hq
    exact .inl ⟨rfl, rfl⟩
  · obtain ⟨ps, heq, hcut, hlen, hsmall, -, hless⟩ := packLoop_cut q [] (Nat.zero_le _)
    rw [List.nil_append] at heq
    obtain ⟨hps, hweight⟩ := hless hq (by decide)
    have hne : encode ps ≠ [] := by
      obtain ⟨p, ps', hps⟩ := List.exists_cons_of_ne_nil hps
      rw [hps, encode, List.flatMap_cons, ne_eq, ← List.length_eq_zero_iff]
      simp
    refine .inr ⟨ps, (packLoop [] q).2, hq, ?_, hcut, hne, by rwa [← heq], hsmall, hweight⟩
    rw [packFrames, heq, if_neg (by simpa using hne)]

theorem packFrames_eq_none {q q' : List Bytes} (h : packFrames q = (none, q')) : q = [] ∧ q' = [] := by
  rcases packFrames_cut q with ⟨rfl, heq⟩ | ⟨ps, rest, -, heq, -⟩
  · rw [heq] at h
    exact ⟨rfl, (Prod.mk.inj h).2.symm⟩
  · rw [heq] at h
    cases (Prod.mk.inj h).1

/-! ## Reading a message -/

/-- What the loop does with a header and what follows it. -/
theorem pushLoop_header (d : Debatcher) (out : List Bytes) (cont : Bool) {len : Nat} (hlen : len < 2 ^ 31)
    (body : Bytes) : d.pushLoop out (u32ToLe (pieceHeader cont len) ++ body) =
      if body.length < len then (.error (.msg "truncated sub-frame body"), d)
      else if d.partial_.length + len > MAX_LOGICAL_FRAME then
        (.error (.msg ("logical frame exceeds " ++ toString MAX_LOGICAL_FRAME ++ " bytes")), d)
      else if cont then Debatcher.pushLoop ⟨d.partial_ ++ body.take len⟩ out (body.drop len)
      else Debatcher.pushLoop ⟨[]⟩ (out ++ [d.partial_ ++ body.take len]) (body.drop len) := by
  have hfour : (u32ToLe (pieceHeader cont len)).length = 4 := length_u32ToLe _
  have hne : u32ToLe (pieceHeader cont len) ++ body ≠ [] := by
    rw [ne_eq, ← List.length_eq_zero_iff, List.length_append]
    omega
  have hlong : ¬ (u32ToLe (pieceHeader cont len) ++ body).length < 4 := by
    rw [List.length_append]
    omega
  rw [Debatcher.pushLoop, dif_neg hne, if_neg hlong]
  simp only [List.take_left' hfour, List.drop_left' hfour, u32FromLe_u32ToLe, pieceHeader_len _ hlen,
    pieceHeader_cont _ hlen]

theorem pushLoop_cons (d : Debatcher) (out : List Bytes) (p : Piece UInt8) (ps : List (Piece UInt8))
    (hsmall : p.items.length < 2 ^ 31) (hfits : (d.partial_ ++ p.items).length ≤ MAX_LOGICAL_FRAME) :
    d.pushLoop out (encode (p :: ps)) =
      if p.cont then Debatcher.pushLoop ⟨d.partial_ ++ p.items⟩ out (encode ps)
      else Debatcher.pushLoop ⟨[]⟩ (out ++ [d.partial_ ++ p.items]) (encode ps) := by
  have hsplit : encode (p :: ps)
      = u32ToLe (pieceHeader p.cont p.items.length) ++ (p.items ++ encode ps) := by
    simp [encode]
  rw [List.length_append] at hfits
  rw [hsplit, pushLoop_header d out p.cont hsmall, if_neg (by simp), if_neg (by omega), List.take_left,
    List.drop_left]

theorem pushLoop_encode (ps : List (Piece UInt8)) (d : Debatcher) (out : List Bytes)
    (hsmall : ∀ p ∈ ps, p.items.length < 2 ^ 31) (hfits : Fits MAX_LOGICAL_FRAME d.partial_ ps) :
    d.pushLoop out (encode ps)
      = (.ok (out ++ (reassemble d.partial_ ps).1), ⟨(reassemble d.partial_ ps).2⟩) := by
  induction ps generalizing d out with
  | nil => simp [encode, Debatcher.pushLoop]
  | cons p ps ih =>
      obtain ⟨hlen, hfits⟩ := hfits
      have hsmall' := fun p' hp' => hsmall p' (List.mem_cons_of_mem _ hp')
      rw [pushLoop_cons d out p ps (hsmall p List.mem_cons_self) hlen]
      obtain ⟨cont, b⟩ := p
      cases cont with
      | true => exact ih ⟨d.partial_ ++ b⟩ out hsmall' hfits
      | false =>
          rw [if_neg Bool.false_ne_true, ih ⟨[]⟩ _ hsmall' hfits, reassemble_last, List.append_assoc]
          rfl

/-- **The `Debatcher` reassembles what is encoded**, as long as nothing on the way exceeds its
limit. -/
theorem push_encode {ps : List (Piece UInt8)} {d : Debatcher}
    (hsmall : ∀ p ∈ ps, p.items.length < 2 ^ 31) (hfits : Fits MAX_LOGICAL_FRAME d.partial_ ps) :
    d.push (encode ps) = (.ok (reassemble d.partial_ ps).1, ⟨(reassemble d.partial_ ps).2⟩) :=
  pushLoop_encode ps d [] hsmall hfits

/-! ## Draining a queue -/

/-- `n` calls of `pack_frames`: the payloads, and the queue left. -/
def drain : Nat → List Bytes → List Bytes × List Bytes
  | 0, q => ([], q)
  | n + 1, q =>
      match packFrames q with
      | (none, rest) => ([], rest)
      | (some payload, rest) => (payload :: (drain n rest).1, (drain n rest).2)

/-- `push`, message after message. -/
def Debatcher.pushAll (d : Debatcher) : List Bytes → Except Anyhow (List Bytes) × Debatcher
  | [] => (.ok [], d)
  | p :: ps =>
      match d.push p with
      | (.error e, d') => (.error e, d')
      | (.ok frames, d') =>
          let r := d'.pushAll ps
          (r.1.map (frames ++ ·), r.2)

theorem Debatcher.pushAll_cons {d d' : Debatcher} {p : Bytes} {frames : List Bytes}
    (h : d.push p = (.ok frames, d')) (ps : List Bytes) :
    d.pushAll (p :: ps) = ((d'.pushAll ps).1.map (frames ++ ·), (d'.pushAll ps).2) := by
  rw [pushAll, h]

/-- One message after another, each read in full. -/
theorem pushAll_encode {ms : List (List (Piece UInt8))} {d : Debatcher}
    (hsmall : ∀ ps ∈ ms, ∀ p ∈ ps, p.items.length < 2 ^ 31)
    (hfits : Fits MAX_LOGICAL_FRAME d.partial_ ms.flatten) :
    d.pushAll (ms.map encode)
      = (.ok (reassemble d.partial_ ms.flatten).1, ⟨(reassemble d.partial_ ms.flatten).2⟩) := by
  induction ms generalizing d with
  | nil => rfl
  | cons ps ms ih =>
      rw [List.flatten_cons, fits_append] at hfits
      have hpush := push_encode (hsmall ps List.mem_cons_self) hfits.1
      rw [List.map_cons, Debatcher.pushAll_cons hpush,
        ih (fun qs hqs => hsmall qs (List.mem_cons_of_mem _ hqs)) hfits.2, List.flatten_cons,
        reassemble_append]
      rfl

/-- Any number of messages is read without an error as long as the frames and the buffer that come
of them are within the limit. -/
theorem pushAll_of_bound {ms : List (List (Piece UInt8))} {d : Debatcher} {frames : List Bytes}
    {buf : Bytes} (hsmall : ∀ ps ∈ ms, ∀ p ∈ ps, p.items.length < 2 ^ 31)
    (heq : reassemble d.partial_ ms.flatten = (frames, buf))
    (hframes : ∀ f ∈ frames, f.length ≤ MAX_LOGICAL_FRAME) (hbuf : buf.length ≤ MAX_LOGICAL_FRAME) :
    d.pushAll (ms.map encode) = (.ok frames, ⟨buf⟩) := by
  rw [pushAll_encode hsmall (fits_of_bound (by rwa [heq]) (by rwa [heq])), heq]

/-- Repeated `pack_frames` ends with the queue empty; its messages complete every frame of the queue,
whatever part of the first one was sent before. -/
theorem drain_pieces (q : List Bytes) :
    ∃ (n : Nat) (ms : List (List (Piece UInt8))), drain n q = (ms.map encode, []) ∧
      (∀ ps ∈ ms, ∀ p ∈ ps, p.items.length < 2 ^ 31) ∧
      ∀ buf, (q = [] → buf = []) → reassemble buf ms.flatten = (resume buf q, []) := by
  -- on the weight of the queue, which every call makes smaller
  induction hw : weight q using Nat.strong_induction_on generalizing q with
  | _ w ih =>
      rcases packFrames_cut q with ⟨rfl, -⟩ | ⟨ps, rest, -, hpack, hcut, -, -, hsmall, hweight⟩
      · refine ⟨0, [], rfl, by simp, ?_⟩
        intro buf hbuf
        rw [hbuf rfl]
        rfl
      · obtain ⟨n, ms, hdrain, hsmall', hall⟩ := ih _ (hw ▸ hweight) rest rfl
        refine ⟨n + 1, ps :: ms, ?_, ?_, ?_⟩
        · rw [drain, hpack]
          show (encode ps :: (drain n rest).1, (drain n rest).2) = _
          rw [hdrain]
          rfl
        · intro qs hqs
          rcases List.mem_cons.mp hqs with rfl | hqs
          · exact hsmall
          · exact hsmall' qs hqs
        · intro buf hbuf
          rw [List.flatten_cons, reassemble_append, hall _ (hcut.buffer hbuf), hcut.resume]

/-! ## Any use of a queue -/

/-- A use of the queue of `io_task`. -/
inductive QueueOp where
  | push (f : Bytes)
  | pack

/-- The queue and the payloads so far. -/
def QueueOp.apply (r : List Bytes × List Bytes) : QueueOp → List Bytes × List Bytes
  | .push f => (r.1 ++ [f], r.2)
  | .pack =>
      match packFrames r.1 with
      | (none, rest) => (rest, r.2)
      | (some payload, rest) => (rest, r.2 ++ [payload])

def runQueue (ops : List QueueOp) : List Bytes × List Bytes := ops.foldl QueueOp.apply ([], [])

/-- The frames added. -/
def pushed (ops : List QueueOp) : List Bytes :=
  ops.filterMap fun
    | .push f => some f
    | .pack => none

/-- **Frames can be added at any time**, also while the rest of one is in front: the payloads are
pieces which complete, together with what is still queued, the frames added. -/
theorem runQueue_pieces (ops : List QueueOp) :
    ∃ ms : List (List (Piece UInt8)), (runQueue ops).2 = ms.map encode ∧
      (∀ ps ∈ ms, ∀ p ∈ ps, p.items.length < 2 ^ 31) ∧
      (∀ b ∈ (runQueue ops).2, b ≠ [] ∧ b.length ≤ MAX_WS_PAYLOAD) ∧
      (reassemble [] ms.flatten).1 ++ resume (reassemble [] ms.flatten).2 (runQueue ops).1 = pushed ops ∧
      ((runQueue ops).1 = [] → (reassemble [] ms.flatten).2 = []) := by
  induction ops using List.reverseRecOn with
  | nil => exact ⟨[], rfl, by simp, by simp [runQueue], rfl, fun _ => rfl⟩
  | append_singleton ops op ih =>
      obtain ⟨ms, hout, hsmall, hsized, hall, hbuf⟩ := ih
      have hrun : runQueue (ops ++ [op]) = op.apply (runQueue ops) := by
        rw [runQueue, List.foldl_append]
        rfl
      rw [hrun]
      cases op with
      -- a frame that is queued is one the receiver still has to get
      | push f =>
          refine ⟨ms, hout, hsmall, hsized, ?_, by simp [QueueOp.apply]⟩
          rw [QueueOp.apply, resume_append hbuf, ← List.append_assoc, hall, pushed, pushed,
            List.filterMap_append]
          rfl
      -- and packing moves it from the queue into a message
      | pack =>
          have hpushed : pushed (ops ++ [.pack]) = pushed ops := by
            rw [pushed, List.filterMap_append]
            exact List.append_nil _
          rw [hpushed]
          rcases packFrames_cut (runQueue ops).1 with
            ⟨hq, hpack⟩ | ⟨ps, rest, hq, hpack, hcut, hne, hlen, hsmall', -⟩
          · rw [QueueOp.apply, hpack, ← hall, hq]
            exact ⟨ms, hout, hsmall, hsized, rfl, fun _ => hbuf hq⟩
          · rw [QueueOp.apply, hpack]
            have hflat : reassemble [] (ms ++ [ps]).flatten
                = ((reassemble [] ms.flatten).1 ++ (reassemble (reassemble [] ms.flatten).2 ps).1,
                  (reassemble (reassemble [] ms.flatten).2 ps).2) := by
              rw [List.flatten_append, List.flatten_singleton, reassemble_append]
            refine ⟨ms ++ [ps], ?_, ?_, ?_, ?_, ?_⟩
            · rw [hout, List.map_append, List.map_singleton]
            · intro qs hqs
              rcases List.mem_append.mp hqs with hqs | hqs
              · exact hsmall qs hqs
              · rw [List.mem_singleton.mp hqs]
                exact hsmall'
            · intro b hb
              rcases List.mem_append.mp hb with hb | hb
              · exact hsized b hb
              · rw [List.mem_singleton.mp hb]
                exact ⟨hne, hlen⟩
            · rw [hflat, List.append_assoc, hcut.resume, hall]
            · rw [hflat]
              exact hcut.buffer hbuf

end B2p
