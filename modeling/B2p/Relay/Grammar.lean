import B2p.Relay.Frames

/-!
# What the `Debatcher` accepts

Every byte comes from a peer that may be hostile. `push` accepts the payloads that are pieces, one after
the other, and no others; a failed `push` may have read some of them.

* `Wire` — a payload is some pieces, none of which makes a frame too long.
* `push_ok_iff` — `push` accepts these payloads, and returns what their pieces complete.
* `Debatcher.feed` — one payload after the other, failures included; `feed_bound` — the buffer and the
  frames stay within the limit.
-/

namespace B2p

open Framing

/-- The payload `p` is the pieces `ps`, and no frame that is put together on the way, from what is in the
buffer, is longer than the limit. -/
structure Wire (buf p : Bytes) (ps : List (Piece UInt8)) : Prop where
  eq : p = encode ps
  small : ∀ q ∈ ps, q.items.length < 2 ^ 31
  fits : Fits MAX_LOGICAL_FRAME buf ps

/-! ## Headers -/

theorem fromLeBytes_lt (b : Bytes) : fromLeBytes b < 256 ^ b.length := by
  induction b with
  | nil => exact Nat.one_pos
  | cons x b ih =>
      have hx := x.toNat_lt
      rw [fromLeBytes, List.length_cons, Nat.pow_succ]
      omega

theorem toLeBytes_fromLeBytes (b : Bytes) : toLeBytes b.length (fromLeBytes b) = b := by
  induction b with
  | nil => rfl
  | cons x b ih =>
      have hx := x.toNat_lt
      have hlow : (x.toNat + 256 * fromLeBytes b) % 256 = x.toNat := by omega
      have hhigh : (x.toNat + 256 * fromLeBytes b) / 256 = fromLeBytes b := by omega
      rw [List.length_cons, toLeBytes, fromLeBytes, hlow, hhigh, ih, UInt8.ofNat_toNat]

theorem u32ToLe_u32FromLe {b : Bytes} (h : b.length = 4) : u32ToLe (u32FromLe b) = b := by
  have hlt := fromLeBytes_lt b
  rw [h] at hlt
  have hnat : (u32FromLe b).toNat = fromLeBytes b := UInt32.toNat_ofNat_of_lt' hlt
  rw [u32ToLe, hnat]
  have hround := toLeBytes_fromLeBytes b
  rwa [h] at hround

/-- Every `u32` is the header of a piece: its low 31 bits are the length. -/
theorem exists_pieceHeader (hdr : UInt32) : ∃ cont len, len < 2 ^ 31 ∧ hdr = pieceHeader cont len := by
  have hlt := hdr.toNat_lt
  refine ⟨decide (2 ^ 31 ≤ hdr.toNat), hdr.toNat % 2 ^ 31, Nat.mod_lt _ (by decide), ?_⟩
  rw [← UInt32.toNat_inj, toNat_pieceHeader _ (Nat.mod_lt _ (by decide))]
  by_cases hbit : 2 ^ 31 ≤ hdr.toNat
  · rw [decide_eq_true hbit, Bool.toNat_true]
    omega
  · rw [decide_eq_false hbit, Bool.toNat_false]
    omega

/-- Four bytes are the header of a piece. -/
theorem exists_header {p : Bytes} (h : ¬ p.length < 4) :
    ∃ cont len, len < 2 ^ 31 ∧ p = u32ToLe (pieceHeader cont len) ++ p.drop 4 := by
  obtain ⟨cont, len, hlen, heq⟩ := exists_pieceHeader (u32FromLe (p.take 4))
  refine ⟨cont, len, hlen, ?_⟩
  rw [← heq, u32ToLe_u32FromLe (by rw [List.length_take]; omega), List.take_append_drop]

/-! ## One piece -/

/-- **One turn of the loop**: the payload is at its end, or it begins with a piece that fits, or `push`
fails and leaves the buffer as it is. -/
theorem pushLoop_cases (d : Debatcher) (out : List Bytes) (p : Bytes) :
    p = [] ∨
    (∃ q rest, p = encode [q] ++ rest ∧ q.items.length < 2 ^ 31 ∧
      (d.partial_ ++ q.items).length ≤ MAX_LOGICAL_FRAME ∧ rest.length < p.length ∧
      d.pushLoop out p = if q.cont then Debatcher.pushLoop ⟨d.partial_ ++ q.items⟩ out rest
        else Debatcher.pushLoop ⟨[]⟩ (out ++ [d.partial_ ++ q.items]) rest) ∨
    ∃ e, d.pushLoop out p = (.error e, d) := by
  by_cases hne : p = []
  · exact .inl hne
  · by_cases hshort : p.length < 4
    · exact .inr (.inr ⟨_, by rw [Debatcher.pushLoop, dif_neg hne, if_pos hshort]⟩)
    · obtain ⟨cont, len, hlen, hp⟩ := exists_header hshort
      generalize p.drop 4 = body at hp
      have hloop := pushLoop_header d out cont hlen body
      rw [← hp] at hloop
      -- a header, and what its length announces: there, and not too much for one frame?
      by_cases hbody : body.length < len
      · rw [if_pos hbody] at hloop
        exact .inr (.inr ⟨_, hloop⟩)
      · rw [if_neg hbody] at hloop
        by_cases hlong : d.partial_.length + len > MAX_LOGICAL_FRAME
        · rw [if_pos hlong] at hloop
          exact .inr (.inr ⟨_, hloop⟩)
        · rw [if_neg hlong] at hloop
          have hpiece : (body.take len).length = len := by
            rw [List.length_take]
            omega
          refine .inr (.inl ⟨⟨cont, body.take len⟩, body.drop len, ?_, ?_, ?_, ?_, hloop⟩)
          · simp only [encode, List.flatMap_cons, List.flatMap_nil, List.append_nil, hpiece]
            rw [List.append_assoc, List.take_append_drop, ← hp]
          · rwa [hpiece]
          · rw [List.length_append, hpiece]
            omega
          · rw [hp, List.length_append, length_u32ToLe, List.length_drop]
            omega

/-! ## Whole payloads -/

/-- What is accepted is pieces. The induction is on the length of what is still to be read. -/
theorem wire_of_pushLoop {d d' : Debatcher} {out frames : List Bytes} {p : Bytes}
    (h : d.pushLoop out p = (.ok frames, d')) :
    ∃ ps, Wire d.partial_ p ps ∧ frames = out ++ (reassemble d.partial_ ps).1 ∧
      d'.partial_ = (reassemble d.partial_ ps).2 := by
  induction hn : p.length using Nat.strong_induction_on generalizing d out p with
  | _ n ih =>
      rcases pushLoop_cases d out p with rfl | ⟨q, rest, hp, hsmall, hlen, hrest, hloop⟩ | ⟨e, hloop⟩
      · rw [Debatcher.pushLoop, dif_pos rfl] at h
        cases h
        exact ⟨[], ⟨rfl, by simp, trivial⟩, by simp, rfl⟩
      · rw [hloop] at h
        have hsmalls : ∀ ps : List (Piece UInt8), (∀ q' ∈ ps, q'.items.length < 2 ^ 31) →
            ∀ q' ∈ q :: ps, q'.items.length < 2 ^ 31 := by
          intro ps hps q' hq'
          rcases List.mem_cons.mp hq' with rfl | hq'
          · exact hsmall
          · exact hps q' hq'
        have heq : ∀ ps, rest = encode ps → p = encode (q :: ps) := by
          rintro ps rfl
          rw [hp, ← encode_append]
          rfl
        obtain ⟨cont, items⟩ := q
        cases cont with
        -- the frame goes on in the next piece
        | true =>
            obtain ⟨ps, hwire, hframes, hbuf⟩ := ih _ (hn ▸ hrest) h rfl
            exact ⟨_ :: ps, ⟨heq ps hwire.eq, hsmalls ps hwire.small, hlen, hwire.fits⟩, hframes, hbuf⟩
        -- the frame ends here
        | false =>
            obtain ⟨ps, hwire, hframes, hbuf⟩ := ih _ (hn ▸ hrest) h rfl
            refine ⟨_ :: ps, ⟨heq ps hwire.eq, hsmalls ps hwire.small, hlen, hwire.fits⟩, ?_, hbuf⟩
            rw [hframes, reassemble_last, List.append_assoc]
            rfl
      · rw [hloop] at h
        cases h

/-- **`push` accepts exactly the payloads that are pieces within the limit**, and returns the frames these
complete. -/
theorem push_ok_iff {d d' : Debatcher} {p : Bytes} {frames : List Bytes} :
    d.push p = (.ok frames, d') ↔
      ∃ ps, Wire d.partial_ p ps ∧ reassemble d.partial_ ps = (frames, d'.partial_) := by
  constructor
  · intro h
    obtain ⟨ps, hwire, hframes, hbuf⟩ := wire_of_pushLoop h
    exact ⟨ps, hwire, by rw [hframes, hbuf, List.nil_append]⟩
  · rintro ⟨ps, ⟨rfl, hsmall, hfits⟩, heq⟩
    rw [push_encode hsmall hfits, heq]

theorem Wire.append {buf p q : Bytes} {ps qs : List (Piece UInt8)} (hp : Wire buf p ps)
    (hq : Wire (reassemble buf ps).2 q qs) : Wire buf (p ++ q) (ps ++ qs) where
  eq := by rw [encode_append, ← hp.eq, ← hq.eq]
  small x hx := by
    rcases List.mem_append.mp hx with hx | hx
    · exact hp.small x hx
    · exact hq.small x hx
  fits := fits_append.mpr ⟨hp.fits, hq.fits⟩

/-- **Two payloads are as good as one**: how the pieces are spread over messages does not matter. -/
theorem push_append {d d₁ d₂ : Debatcher} {p q : Bytes} {frames₁ frames₂ : List Bytes}
    (hp : d.push p = (.ok frames₁, d₁)) (hq : d₁.push q = (.ok frames₂, d₂)) :
    d.push (p ++ q) = (.ok (frames₁ ++ frames₂), d₂) := by
  obtain ⟨ps, hwire, hps⟩ := push_ok_iff.mp hp
  obtain ⟨qs, hwire', hqs⟩ := push_ok_iff.mp hq
  have hbuf : (reassemble d.partial_ ps).2 = d₁.partial_ := by rw [hps]
  refine push_ok_iff.mpr ⟨ps ++ qs, hwire.append (hbuf ▸ hwire'), ?_⟩
  rw [reassemble_append, hps, hqs]

/-! ## The bound -/

/-- Whatever the payload, and wherever `push` fails: no frame and no buffer is too long. -/
theorem pushLoop_bound {d : Debatcher} {out : List Bytes} {p : Bytes}
    (hd : d.partial_.length ≤ MAX_LOGICAL_FRAME) (hout : ∀ f ∈ out, f.length ≤ MAX_LOGICAL_FRAME) :
    (d.pushLoop out p).2.partial_.length ≤ MAX_LOGICAL_FRAME ∧
      ∀ frames, (d.pushLoop out p).1 = .ok frames → ∀ f ∈ frames, f.length ≤ MAX_LOGICAL_FRAME := by
  induction hn : p.length using Nat.strong_induction_on generalizing d out p with
  | _ n ih =>
      rcases pushLoop_cases d out p with rfl | ⟨q, rest, -, -, hlen, hrest, hloop⟩ | ⟨e, hloop⟩
      · rw [Debatcher.pushLoop, dif_pos rfl]
        refine ⟨hd, ?_⟩
        intro frames hframes
        cases hframes
        exact hout
      · rw [hloop]
        split
        · exact ih _ (hn ▸ hrest) hlen hout rfl
        -- a frame that ends is within the limit, as the buffer was with it
        · refine ih _ (hn ▸ hrest) (Nat.zero_le _) ?_ rfl
          intro f hf
          rcases List.mem_append.mp hf with hf | hf
          · exact hout f hf
          · rw [List.mem_singleton.mp hf]
            exact hlen
      · rw [hloop]
        refine ⟨hd, ?_⟩
        rintro _ ⟨⟩

/-- `push`, payload after payload, whether it succeeds or not: the results and the buffer at the end. -/
def Debatcher.feed (d : Debatcher) : List Bytes → List (Except Anyhow (List Bytes)) × Debatcher
  | [] => ([], d)
  | p :: ps => ((d.push p).1 :: ((d.push p).2.feed ps).1, ((d.push p).2.feed ps).2)

theorem feed_bound {d : Debatcher} (hd : d.partial_.length ≤ MAX_LOGICAL_FRAME) (ms : List Bytes) :
    (d.feed ms).2.partial_.length ≤ MAX_LOGICAL_FRAME ∧
      ∀ frames, .ok frames ∈ (d.feed ms).1 → ∀ f ∈ frames, f.length ≤ MAX_LOGICAL_FRAME := by
  induction ms generalizing d with
  | nil => exact ⟨hd, nofun⟩
  | cons p ms ih =>
      obtain ⟨hbuf, hframes⟩ := pushLoop_bound (p := p) hd
        (show ∀ f ∈ ([] : List Bytes), f.length ≤ MAX_LOGICAL_FRAME from nofun)
      obtain ⟨hbuf', hframes'⟩ := ih hbuf
      refine ⟨hbuf', ?_⟩
      intro frames hmem
      rcases List.mem_cons.mp hmem with heq | hmem
      · exact hframes frames heq.symm
      · exact hframes' frames hmem

/-- **The `Debatcher` accepts exactly the wire grammar, within its memory bound**, after any payloads,
accepted or not: what the next `push` accepts and returns, that payloads can be joined, and that neither
the buffer nor a frame ever exceeds the limit. -/
theorem debatcher_exact (ms : List Bytes) :
    (∀ p frames d', (Debatcher.empty.feed ms).2.push p = (.ok frames, d') ↔
      ∃ ps, Wire (Debatcher.empty.feed ms).2.partial_ p ps ∧
        reassemble (Debatcher.empty.feed ms).2.partial_ ps = (frames, d'.partial_)) ∧
    (∀ p q frames₁ frames₂ d₁ d₂, (Debatcher.empty.feed ms).2.push p = (.ok frames₁, d₁) →
      d₁.push q = (.ok frames₂, d₂) →
      (Debatcher.empty.feed ms).2.push (p ++ q) = (.ok (frames₁ ++ frames₂), d₂)) ∧
    (Debatcher.empty.feed ms).2.partial_.length ≤ MAX_LOGICAL_FRAME ∧
    ∀ frames, .ok frames ∈ (Debatcher.empty.feed ms).1 → ∀ f ∈ frames, f.length ≤ MAX_LOGICAL_FRAME :=
  ⟨fun _ _ _ => push_ok_iff, fun _ _ _ _ _ _ => push_append, feed_bound (Nat.zero_le _) ms⟩

end B2p
