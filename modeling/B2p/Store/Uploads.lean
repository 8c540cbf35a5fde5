import B2p.Store.Spec

/-!
# Uploads in any order

Chunks arrive in any order, some of them several times, some of them refused. What counts is which ones
were accepted:

* `upload`, `uploads` — `write_chunk` calls one after another, and those that returned `Ok`.
* `Shaped` — which calls these are, whatever came before.
* `Uploaded` — the invariant: the listed chunks are the accepted ones, and the data file has their bytes.
* `uploads_free` — so the result is that of any other order.
-/

namespace B2p

open Interaction Prog Fs

namespace Store

variable (X : Externals)

/-- One `write_chunk`: what it returned, and the store and the disk after it. -/
def upload (r : Store × Fs) (call : Nat × Bytes) : Except Anyhow Unit × (Store × Fs) :=
  match (writeChunk X r.1 call.1 call.2).eval X.handle r.2 with
  | (.ok (res, s), fs) => (res, s, fs)
  -- `write_chunk` returns its errors beside the store
  | (.error e, fs) => (.error e, r.1, fs)

/-- Calls one after another: those that returned `Ok`, and the store and the disk at the end. -/
def uploads (r : Store × Fs) : List (Nat × Bytes) → List (Nat × Bytes) × (Store × Fs)
  | [] => ([], r)
  | call :: calls =>
      match upload X r call with
      | (.ok _, r') => (call :: (uploads r' calls).1, (uploads r' calls).2)
      | (.error _, r') => uploads r' calls

/-- The call has the shape of a chunk of the content: an index in range, and as many bytes. -/
def Shaped (content : Bytes) (chunkSize : Nat) (call : Nat × Bytes) : Prop :=
  call.1 < divCeil content.length chunkSize ∧
    call.2.length = (slice (call.1 * chunkSize) chunkSize content).length

instance (content : Bytes) (chunkSize : Nat) : DecidablePred (Shaped content chunkSize) :=
  fun _ => inferInstanceAs (Decidable (_ ∧ _))

/-- The store is open on the disk for a file of this length. -/
structure OpenFor (length chunkSize : Nat) (r : Store × Fs) : Prop where
  live : Live X r.2 r.1
  pos : 0 < chunkSize
  size : r.1.state.totalSize = length
  chunk : r.1.state.chunkSize = chunkSize

/-- The chunks of `acc`, and no others, have been taken into the store for `content`. -/
structure Uploaded (content : Bytes) (chunkSize : Nat) (acc : List (Nat × Bytes)) (r : Store × Fs) : Prop
    extends OpenFor X content.length chunkSize r where
  haves : ∀ i, i ∈ r.1.state.haves ↔ ∃ b, (i, b) ∈ acc
  holds : ∃ data, r.2.content r.1.dataPath = some data ∧
    Holds (fun i b => b = slice (i * chunkSize) chunkSize content) data r.1.state

variable {X} {content : Bytes} {chunkSize : Nat} {acc : List (Nat × Bytes)} {r : Store × Fs}

/-- A refused chunk changes nothing, in memory or on disk. -/
theorem upload_of_not_accepts (X : Externals) {call : Nat × Bytes} (h : ¬ r.1.Accepts call.1 call.2) :
    ∃ e, upload X r call = (.error e, r) := by
  obtain ⟨e, he⟩ := writeChunk_of_not_accepts X h
  refine ⟨e, ?_⟩
  rw [upload, he]
  rfl

theorem upload_of_accepts (hl : Live X r.2 r.1) {data : Bytes}
    (hd : r.2.content r.1.dataPath = some data) {call : Nat × Bytes} (h : r.1.Accepts call.1 call.2) :
    ∃ fs', upload X r call = (.ok (), r.1.record call.1, fs') ∧ Live X fs' (r.1.record call.1) ∧
      fs'.content r.1.dataPath = some (overwrite 0 (call.1 * r.1.state.chunkSize) call.2 data) := by
  obtain ⟨fs', heval, hlive, hd', -⟩ := eval_writeChunk X hl hd h
  refine ⟨fs', ?_, hlive, hd'⟩
  rw [upload, heval]

/-! ## Which calls are accepted -/

/-- What was taken before has no part in what is taken next. -/
theorem OpenFor.accepts_iff (h : OpenFor X content.length chunkSize r) (call : Nat × Bytes) :
    r.1.Accepts call.1 call.2 ↔ Shaped content chunkSize call := by
  have htotal : r.1.totalChunks = divCeil content.length chunkSize := by
    rw [totalChunks, h.size, h.chunk]
  rw [Accepts, Shaped, htotal, length_slice]
  refine and_congr_right fun hi => ?_
  rw [expectedLen_eq (h.chunk.symm ▸ h.pos) (htotal ▸ hi), h.size, h.chunk]

/-- An accepted call leaves the store open for the same file. -/
theorem OpenFor.upload (h : OpenFor X content.length chunkSize r) {call : Nat × Bytes}
    (hcall : Shaped content chunkSize call) :
    ∃ r', Store.upload X r call = (.ok (), r') ∧ OpenFor X content.length chunkSize r' := by
  obtain ⟨fs', hup, hlive, -⟩ :=
    upload_of_accepts h.live (content_eq_some h.live.file) ((h.accepts_iff call).mpr hcall)
  exact ⟨_, hup, hlive, h.pos, h.size, h.chunk⟩

theorem OpenFor.upload_iff (h : OpenFor X content.length chunkSize r) (call : Nat × Bytes) :
    (∃ r', Store.upload X r call = (.ok (), r')) ↔ Shaped content chunkSize call := by
  constructor
  · rintro ⟨r', hup⟩
    by_contra hcall
    obtain ⟨e, hno⟩ := upload_of_not_accepts X (mt (h.accepts_iff call).mp hcall)
    rw [hno] at hup
    cases hup
  · intro hcall
    obtain ⟨r', hup, -⟩ := h.upload hcall
    exact ⟨r', hup⟩

/-- Among any calls, the accepted ones are those of the right shape. -/
theorem OpenFor.uploads_eq_filter (h : OpenFor X content.length chunkSize r) (calls : List (Nat × Bytes)) :
    (Store.uploads X r calls).1 = calls.filter (fun call => Shaped content chunkSize call) := by
  induction calls generalizing r with
  | nil => rfl
  | cons call calls ih =>
      by_cases hcall : Shaped content chunkSize call
      · obtain ⟨r', hup, hr'⟩ := h.upload hcall
        rw [Store.uploads, hup, List.filter_cons_of_pos (by simpa using hcall)]
        exact congrArg _ (ih hr')
      · obtain ⟨e, hup⟩ := upload_of_not_accepts X (mt (h.accepts_iff call).mp hcall)
        rw [Store.uploads, hup, List.filter_cons_of_neg (by simpa using hcall)]
        exact ih h

/-! ## What they leave -/

/-- Taking one more chunk of the content. -/
theorem Uploaded.accept (h : Uploaded X content chunkSize acc r) {i : Nat} {b : Bytes}
    (hcall : Shaped content chunkSize (i, b)) (hb : b = slice (i * chunkSize) chunkSize content) :
    ∃ r', upload X r (i, b) = (.ok (), r') ∧ Uploaded X content chunkSize (acc ++ [(i, b)]) r' := by
  have hacc : r.1.Accepts (i, b).1 (i, b).2 := (h.accepts_iff (i, b)).mpr hcall
  obtain ⟨data, hd, hholds⟩ := h.holds
  obtain ⟨fs', hup, hlive, hd'⟩ := upload_of_accepts h.live hd hacc
  refine ⟨_, hup, ⟨hlive, h.pos, h.size, h.chunk⟩, ?_, _, hd',
    hholds.record hacc (fun _ _ _ hw => hw) hb⟩
  intro j
  show j ∈ (r.1.record i).state.haves ↔ _
  rw [Store.record, SortedSet.mem_insert, h.haves j]
  constructor
  · rintro (rfl | ⟨c, hc⟩)
    · exact ⟨b, List.mem_append_right _ List.mem_cons_self⟩
    · exact ⟨c, List.mem_append_left _ hc⟩
  · rintro ⟨c, hc⟩
    rcases List.mem_append.mp hc with hc | hc
    · exact .inr ⟨c, hc⟩
    · rw [List.mem_singleton, Prod.mk.injEq] at hc
      exact .inl hc.1

/-- Any number of calls, with what was accepted before in `acc`. -/
theorem Uploaded.uploads (h : Uploaded X content chunkSize acc r) (calls : List (Nat × Bytes))
    (hcontent : ∀ i b, (i, b) ∈ (Store.uploads X r calls).1 → b = slice (i * chunkSize) chunkSize content) :
    Uploaded X content chunkSize (acc ++ (Store.uploads X r calls).1) (Store.uploads X r calls).2 := by
  induction calls generalizing acc r with
  | nil =>
      rw [Store.uploads, List.append_nil]
      exact h
  | cons call calls ih =>
      obtain ⟨i, b⟩ := call
      by_cases hcall : Shaped content chunkSize (i, b)
      · -- that the chunk is accepted is decided by its index and length alone
        obtain ⟨r₁, hup⟩ := (h.upload_iff (i, b)).mpr hcall
        rw [Store.uploads, hup] at hcontent ⊢
        obtain ⟨r', hup', hr'⟩ := h.accept hcall (hcontent i b List.mem_cons_self)
        obtain rfl : r₁ = r' := (Prod.mk.inj (hup.symm.trans hup')).2
        have hrest := ih hr' (fun j c hc => hcontent j c (List.mem_cons_of_mem _ hc))
        rwa [List.append_assoc] at hrest
      · obtain ⟨e, hup⟩ := upload_of_not_accepts X (mt (h.accepts_iff (i, b)).mp hcall)
        rw [Store.uploads, hup] at hcontent ⊢
        exact ih h hcontent

/-- A store opened anew, for a file of the content's size. -/
theorem uploaded_open {fs fs₀ : Fs} (hwf : fs.Wf) {name transferId : String} (hc : 0 < chunkSize) {s : Store}
    (hopen : (openOrCreate X name transferId content.length chunkSize).eval X.handle fs = (.ok s, fs₀))
    (hfresh : s.state.haves.isEmpty = true) : Uploaded X content chunkSize [] (s, fs₀) := by
  obtain ⟨h, fs', heval, hlive, hd, -⟩ :=
    eval_openOrCreate X hwf (makes_of_openOrCreate X hopen) transferId content.length chunkSize
  rw [heval] at hopen
  cases hopen
  obtain ⟨-, hsize, hchunk⟩ := stateOn_geometry X name fs transferId content.length chunkSize
  refine ⟨⟨hlive, hc, hsize, hchunk⟩, ?_, _, hd, ?_⟩
  · intro i
    have hno := SortedSet.isEmpty_iff.mp hfresh i
    simpa using hno
  · refine Holds.of_isEmpty ?_ ?_ hfresh
    · exact hchunk.symm ▸ hc
    · rw [length_setLen]
      exact hsize.symm

theorem Uploaded.isComplete_iff (h : Uploaded X content chunkSize acc r) :
    r.1.isComplete = true ↔ ∀ i < r.1.totalChunks, ∃ b, (i, b) ∈ acc := by
  obtain ⟨data, -, hholds⟩ := h.holds
  have hlt : ∀ i ∈ r.1.state.haves, i < r.1.totalChunks := fun i hi => (hholds.chunks i hi).1
  rw [Store.isComplete, beq_iff_eq, SortedSet.card_eq_iff_forall_mem hlt]
  constructor
  · intro hall i hi
    exact (h.haves i).mp (hall i hi)
  · intro hall i hi
    exact (h.haves i).mpr (hall i hi)

/-- With every chunk accepted, the data file is the content. -/
theorem Uploaded.data_eq (h : Uploaded X content chunkSize acc r) (hcomplete : r.1.isComplete = true) :
    r.2.content r.1.dataPath = some content := by
  obtain ⟨data, hd, hholds⟩ := h.holds
  have hlen : data.length = content.length := hholds.length.trans h.size
  have heq : data = content := by
    refine ext_of_blocks (h.chunk ▸ hholds.chunkSize) hlen fun i hi => ?_
    have hi' : i < r.1.totalChunks := by
      rw [totalChunks, h.size, h.chunk, ← hlen]
      exact hi
    have hmem := (h.haves i).mpr (h.isComplete_iff.mp hcomplete i hi')
    have hchunk := (hholds.chunks i hmem).2
    rwa [h.chunk] at hchunk
  rw [hd, heq]

/-- **Order and repetition of uploads do not matter.** After any calls on a store opened anew, of which
the accepted ones carry the content's chunks: a further call is accepted exactly if its index is in range
and its length the expected one, and changes nothing if it is refused; so the accepted calls are those of
this shape, wherever they stand; the chunks listed are those accepted; the store is complete exactly if
every chunk was accepted; and then the data file is the content, and its hash that of the content. -/
theorem uploads_free {fs fs₀ : Fs} (hwf : fs.Wf) {name transferId : String} (hc : 0 < chunkSize) {s : Store}
    (hopen : (openOrCreate X name transferId content.length chunkSize).eval X.handle fs = (.ok s, fs₀))
    (hfresh : s.state.haves.isEmpty = true) (calls : List (Nat × Bytes))
    (hcontent : ∀ i b, (i, b) ∈ (uploads X (s, fs₀) calls).1 →
      b = slice (i * chunkSize) chunkSize content) :
    (∀ call, (∃ r', upload X (uploads X (s, fs₀) calls).2 call = (.ok (), r')) ↔
      Shaped content chunkSize call) ∧
    (∀ call e r', upload X (uploads X (s, fs₀) calls).2 call = (.error e, r') →
      r' = (uploads X (s, fs₀) calls).2) ∧
    (uploads X (s, fs₀) calls).1 = calls.filter (fun call => Shaped content chunkSize call) ∧
    (∀ i, i ∈ (uploads X (s, fs₀) calls).2.1.state.haves ↔ ∃ b, (i, b) ∈ (uploads X (s, fs₀) calls).1) ∧
    ((uploads X (s, fs₀) calls).2.1.isComplete = true ↔
      ∀ i < divCeil content.length chunkSize, ∃ b, (i, b) ∈ (uploads X (s, fs₀) calls).1) ∧
    ((uploads X (s, fs₀) calls).2.1.isComplete = true →
      (uploads X (s, fs₀) calls).2.2.content (uploads X (s, fs₀) calls).2.1.dataPath = some content ∧
      (fileHash X (uploads X (s, fs₀) calls).2.1).eval X.handle (uploads X (s, fs₀) calls).2.2
        = (.ok (X.blake3 content), (uploads X (s, fs₀) calls).2.2)) := by
  -- the empty list of calls, and from it any list
  have hopened := uploaded_open hwf hc hopen hfresh
  have h := hopened.uploads calls hcontent
  rw [List.nil_append] at h
  refine ⟨h.upload_iff, ?_, hopened.uploads_eq_filter calls, h.haves, ?_, ?_⟩
  · intro call e r' hup
    have hcall : ¬ Shaped content chunkSize call := by
      intro hcall
      obtain ⟨r₁, hok⟩ := (h.upload_iff call).mpr hcall
      rw [hok] at hup
      cases hup
    obtain ⟨e', hno⟩ := upload_of_not_accepts X (mt (h.accepts_iff call).mp hcall)
    rw [hno] at hup
    exact (Prod.mk.inj hup).2.symm
  · have htotal : (uploads X (s, fs₀) calls).2.1.totalChunks = divCeil content.length chunkSize := by
      rw [totalChunks, h.size, h.chunk]
    rw [h.isComplete_iff, htotal]
  · intro hcomplete
    have hd := h.data_eq hcomplete
    exact ⟨hd, eval_fileHash X hd⟩

/-- Two chunks, the second one first and twice, an index there is none of and a chunk too long: three calls
are accepted, the last one would be again, and the file is there. -/
theorem uploads_free_twoChunks : ∃ s fs₀ t fs₁,
    (openOrCreate (.ideal toString) "f" "t" 2 1).eval (Externals.ideal toString).handle .blank
      = (.ok s, fs₀) ∧
    uploads (.ideal toString) (s, fs₀) [(1, [8]), (5, []), (1, [8]), (0, [7, 7]), (0, [7])]
      = ([(1, [8]), (1, [8]), (0, [7])], (t, fs₁)) ∧
    (∃ r, upload (.ideal toString) (t, fs₁) (0, [7]) = (.ok (), r)) ∧
    t.isComplete = true ∧ fs₁.content t.dataPath = some [7, 8] := by
  obtain ⟨X, hX⟩ : ∃ X, X = Externals.ideal toString := ⟨_, rfl⟩
  rw [← hX]
  obtain ⟨h, fs₀, heval, -⟩ :=
    eval_openOrCreate X Fs.blank_wf (blank_clear "f").makes "t" ([7, 8] : Bytes).length 1
  -- out of range and too long are refused, a repetition is not
  have hshaped : [((1 : Nat), ([8] : Bytes)), (5, []), (1, [8]), (0, [7, 7]), (0, [7])].filter
      (fun call => Shaped [7, 8] 1 call) = [(1, [8]), (1, [8]), (0, [7])] := by decide
  have haccepted := ((uploaded_open Fs.blank_wf (by decide) heval rfl).uploads_eq_filter _).trans hshaped
  have hcontent : ∀ call ∈ [((1 : Nat), ([8] : Bytes)), (1, [8]), (0, [7])],
      call.2 = slice (call.1 * 1) 1 [7, 8] := by decide
  obtain ⟨hiff, -, -, -, hcomplete, hdata⟩ := uploads_free Fs.blank_wf (by decide) heval rfl
    [(1, [8]), (5, []), (1, [8]), (0, [7, 7]), (0, [7])]
    (fun i b hb => hcontent (i, b) (by rwa [haccepted] at hb))
  have hall : ∀ i < divCeil ([7, 8] : Bytes).length 1,
      ∃ call ∈ [((1 : Nat), ([8] : Bytes)), (1, [8]), (0, [7])], call.1 = i := by decide
  have hdone := hcomplete.mpr fun i hi => by
    obtain ⟨⟨_, b⟩, hmem, rfl⟩ := hall i hi
    exact ⟨b, haccepted.symm ▸ hmem⟩
  exact ⟨_, fs₀, _, _, heval, Prod.ext haccepted rfl, (hiff _).mpr (by decide), hdone, (hdata hdone).1⟩

end Store

end B2p
