import B2p.Tunnel.Spec

/-!
# Nonces on the tunnel path

Every call of `send` with one code seals under one data key, and every call starts again at index 0 of
each domain. Two calls therefore use the same nonces, and the plaintexts under them are the same only
if the two calls send the same thing.

* `Calls` — any number of calls with one code, each cut off anywhere, against any network.
* `NoReuse` — no nonce for two plaintexts.
* `Consistent` — what the calls have to agree on.
-/

namespace B2p

open Interaction Prog

namespace Tunnel

variable (X : Externals) (target : Target) (key : Key)

/-- One log for each of the calls. -/
abbrev Calls (inputs : List (Source × Bytes)) (logs : List (List (Thread × SendAction))) : Prop :=
  List.Forall₂ (fun x log => ∃ qs, Call X target key x.1 x.2 log qs) inputs logs

/-- What a log sealed, and where. -/
def Seals (log : List (Thread × SendAction)) (d : Domain) (i : Nat) (pt : Bytes) : Prop :=
  ∃ t aad r, (t, (⟨.seal_ d i aad pt, r⟩ : SendAction)) ∈ log

/-- No two calls to `seal` use one nonce with different plaintexts. -/
def NoReuse (logs : List (List (Thread × SendAction))) : Prop :=
  ∀ l ∈ logs, ∀ l' ∈ logs, ∀ d i pt d' i' pt', Seals l d i pt → Seals l' d' i' pt' →
    makeNonce d i = makeNonce d' i' → pt = pt'

variable {X target key} {source : Source} {content : Bytes}

/-- A call never seals anything else. -/
theorem Call.sealable {log : List (Thread × SendAction)} {qs : (t : Thread) → SendProg t.Out}
    (h : Call X target key source content log qs) {d : Domain} {i : Nat} {pt : Bytes}
    (hs : Seals log d i pt) : Sealable X source content d i pt := by
  obtain ⟨t, aad, r, hmem⟩ := hs
  cases t with
  | main => exact h.proper hmem
  | upload j => exact h.proper hmem

/-! ## What the calls have to agree on -/

variable (X) in
/-- Two calls agree: they offer the same manifest, and for a file or an archive they read the same
chunks, as far as both can read them, and compute the same hash. -/
def Agree (x y : Source × Bytes) : Prop :=
  buildManifest x.1 = buildManifest y.1 ∧ ((buildManifest x.1).kind ≠ .text →
    (∀ i < (buildManifest x.1).totalChunks, ∀ b b', chunkAt (buildManifest x.1).totalSize x.2 i = some b →
      chunkAt (buildManifest x.1).totalSize y.2 i = some b' → b = b') ∧
    X.blake3 x.2 = X.blake3 y.2)

variable (X) in
/-- All calls made with the code agree. -/
def Consistent (inputs : List (Source × Bytes)) : Prop :=
  ∀ x ∈ inputs, ∀ y ∈ inputs, Agree X x y

theorem Agree.refl (x : Source × Bytes) : Agree X x x := by
  refine ⟨rfl, fun _ => ⟨?_, rfl⟩⟩
  intro i _ b b' hb hb'
  exact Option.some.inj (hb.symm.trans hb')

/-- The size is a `u64`, so an index of a chunk is. -/
theorem Sealable.lt {d : Domain} {i : Nat} {pt : Bytes} (h : Sealable X source content d i pt)
    (hsize : (buildManifest source).totalSize < 2 ^ 64) : i < 2 ^ 64 := by
  cases d with
  | manifest => rw [h.1]; decide
  | commit => rw [h.1]; decide
  | data =>
      have hc : 0 < (buildManifest source).chunkSize := by
        rw [chunkSize_buildManifest]
        decide
      have hi := (lt_divCeil_iff hc).mp h.1
      have := Nat.le_mul_of_pos_right i hc
      omega
  | streamToReceiver => exact h.elim
  | streamToSender => exact h.elim

/-- Calls that agree seal the same plaintext under a nonce. -/
theorem Agree.sealable {x y : Source × Bytes} (h : Agree X x y) {d : Domain} {i : Nat} {pt pt' : Bytes}
    (hx : Sealable X x.1 x.2 d i pt) (hy : Sealable X y.1 y.2 d i pt') : pt = pt' := by
  obtain ⟨hm, hblob⟩ := h
  cases d with
  | manifest => rw [hx.2, hy.2, hm]
  | data =>
      have hb' := hy.2.2
      rw [← hm] at hb'
      exact (hblob hx.2.1).1 i hx.1 pt pt' hx.2.2 hb'
  | commit => rw [hx.2.2, hy.2.2, (hblob hx.2.1).2]
  | streamToReceiver => exact hx.elim
  | streamToSender => exact hx.elim

/-- If all calls agree, no nonce is used twice for different plaintexts. -/
theorem Consistent.noReuse {inputs : List (Source × Bytes)} (h : Consistent X inputs)
    (hsize : ∀ x ∈ inputs, (buildManifest x.1).totalSize < 2 ^ 64)
    {logs : List (List (Thread × SendAction))} (hcalls : Calls X target key inputs logs) :
    NoReuse logs := by
  have hfind : ∀ l ∈ logs, ∃ x ∈ inputs, ∃ qs, Call X target key x.1 x.2 l qs := by
    intro l hl
    obtain ⟨n, hn, rfl⟩ := List.mem_iff_getElem.mp hl
    have hn' : n < inputs.length := hcalls.length_eq ▸ hn
    exact ⟨_, List.getElem_mem hn', hcalls.get hn' hn⟩
  intro l hl l' hl' d i pt d' i' pt' hs hs' hnonce
  obtain ⟨x, hx, qs, hcall⟩ := hfind l hl
  obtain ⟨y, hy, qs', hcall'⟩ := hfind l' hl'
  have hsx := hcall.sealable hs
  have hsy := hcall'.sealable hs'
  obtain ⟨rfl, rfl⟩ := makeNonce_inj (hsx.lt (hsize x hx)) (hsy.lt (hsize y hy)) hnonce
  exact (h x hx y hy).sealable hsx hsy

/-! ## Calls that do not agree

Each part of `Agree` is needed: there are calls, against a network that answers suitably, that seal the
manifest, any one chunk that can be read, and the commit. -/

theorem readAck_ok (ack : ManifestAck) :
    readAck X target (.ok ⟨200, X.manifestAckJson.toVec ack⟩) = .ok ack := by
  simp [readAck, json, Response.isSuccess, Except.mapError]

variable (X key source) in
/-- The main thread up to its first request. -/
def offerActions : List SendAction :=
  [⟨.buildClient, .ok ()⟩,
    ⟨.seal_ .manifest 0 [] (X.manifestJson.toVec (buildManifest source)),
      X.cipher.seal_ key .manifest 0 [] (X.manifestJson.toVec (buildManifest source))⟩]

variable (X target key source) in
/-- … and the request, answered by `ack`. -/
def ackActions (ack : ManifestAck) : List SendAction :=
  offerActions X key source ++
    [⟨.http ⟨.manifest, target.token,
      X.cipher.seal_ key .manifest 0 [] (X.manifestJson.toVec (buildManifest source))⟩,
      .ok ⟨200, X.manifestAckJson.toVec ack⟩⟩]

variable (X target key) in
theorem follows_ackActions {kind : Kind} {hkind : kind ≠ .text} {name tid : String}
    {entries : List Entry} {totalSize : Nat} (haves : List Nat)
    (hsource : source = .blob kind hkind name entries totalSize tid) :
    Follows (send X target source) (ackActions X target key source ⟨true, false, haves⟩)
      (sendBlob X target (buildManifest source) haves tid) := by
  subst hsource
  refine .cons (.cons (.cons ?_))
  show Follows (ofExcept (readAck X target _) >>= _) [] _
  rw [readAck_ok]
  exact .nil _

/-- The log of a main thread and one chunk thread that runs after it. -/
def logOf (main : List SendAction) (i : Nat) (upload : List SendAction) :
    List (Thread × SendAction) :=
  main.map (fun a => (.main, a)) ++ upload.map (fun a => (.upload i, a))

theorem own_main_logOf (main : List SendAction) (i : Nat) (upload : List SendAction) :
    own .main (logOf main i upload) = main := by
  rw [logOf, own_append, own_map_self, own_map_of_ne (by simp), List.append_nil]

theorem own_upload_logOf (main : List SendAction) (i : Nat) (upload : List SendAction) (j : Nat) :
    own (.upload j) (logOf main i upload) = if i = j then upload else [] := by
  rw [logOf, own_append, own_map_of_ne (by simp), List.nil_append]
  split
  · next h => rw [h, own_map_self]
  · next h => rw [own_map_of_ne (by simpa using h)]

/-- A run of the two threads, from their paths. -/
theorem Call.of_paths {main upload : List SendAction} {i : Nat} {p : SendProg String}
    {q : SendProg Unit} (hmain : Follows (send X target source) main p)
    (hupload : Follows (uploadOf X target source i) upload q)
    (hadm : Admits (fun log x => Scheduled X target source log x ∧ Local X key content x.2.op x.2.res)
      [] (logOf main i upload)) : ∃ qs, Call X target key source content (logOf main i upload) qs := by
  refine ⟨fun t => Thread.casesOn t p fun j => if i = j then q else uploadOf X target source j, ?_, hadm⟩
  -- the other uploads have not begun
  intro t
  cases t with
  | main =>
      rw [own_main_logOf]
      exact hmain
  | upload j =>
      rw [own_upload_logOf]
      by_cases hj : i = j
      · subst hj
        rw [if_pos rfl]
        show Follows (uploadOf X target source i) upload (if i = i then q else _)
        rw [if_pos rfl]
        exact hupload
      · rw [if_neg hj]
        show Follows (uploadOf X target source j) [] (if i = j then q else _)
        rw [if_neg hj]
        exact .nil _

open Classical in
/-- If no nonce is ever used twice for different plaintexts, two calls of the history that seal under
the same domain and index seal the same. -/
theorem eq_of_noReuse {inputs : List (Source × Bytes)}
    (h : ∀ logs, Calls X target key inputs logs → NoReuse logs) {x y : Source × Bytes}
    (hx : x ∈ inputs) (hy : y ∈ inputs) (hne : x ≠ y) {lx ly : List (Thread × SendAction)}
    (hcx : ∃ qs, Call X target key x.1 x.2 lx qs) (hcy : ∃ qs, Call X target key y.1 y.2 ly qs)
    {d : Domain} {i : Nat} {pt pt' : Bytes} (hs : Seals lx d i pt) (hs' : Seals ly d i pt') :
    pt = pt' := by
  obtain ⟨f, hfx, hfy, hf⟩ : ∃ f : Source × Bytes → List (Thread × SendAction),
      f x = lx ∧ f y = ly ∧ ∀ z, ∃ qs, Call X target key z.1 z.2 (f z) qs := by
    refine ⟨fun z => if z = x then lx else if z = y then ly else [], if_pos rfl, ?_, ?_⟩
    · exact (if_neg (Ne.symm hne)).trans (if_pos rfl)
    · intro z
      dsimp only
      split
      · next hz => rwa [hz]
      · split
        · next hz => rwa [hz]
        · exact ⟨_, fun t => .nil _, trivial⟩
  have hcalls : Calls X target key inputs (inputs.map f) :=
    List.forall₂_map_right_iff.mpr (List.forall₂_same.mpr fun z _ => hf z)
  exact h _ hcalls lx (hfx ▸ List.mem_map_of_mem hx) ly (hfy ▸ List.mem_map_of_mem hy) d i pt d i pt'
    hs hs' rfl

theorem exists_call_offer (x : Source × Bytes) :
    ∃ qs, Call X target key x.1 x.2 (logOf (offerActions X key x.1) 0 []) qs :=
  Call.of_paths (.cons (.cons (.nil _))) (.nil _) ⟨⟨trivial, trivial⟩, ⟨trivial, rfl⟩, trivial⟩

theorem seals_offer : Seals (logOf (offerActions X key source) 0 []) .manifest 0
    (X.manifestJson.toVec (buildManifest source)) :=
  ⟨.main, [], _, List.mem_append_left _
    (List.mem_map_of_mem (List.mem_cons_of_mem _ List.mem_cons_self))⟩

theorem missing_range (m : Manifest) : missing m (List.range m.totalChunks) = [] := by
  rw [missing, List.filter_eq_nil_iff]
  intro i hi
  simpa using List.mem_range.mp hi

theorem missing_allBut {m : Manifest} {i : Nat} (hi : i < m.totalChunks) :
    missing m ((List.range m.totalChunks).filter fun j => decide (j ≠ i)) = [i] := by
  have hone : missing m ((List.range m.totalChunks).filter fun j => decide (j ≠ i))
      = (List.range m.totalChunks).filter (fun j => j == i) := by
    refine List.filter_congr fun j hj => ?_
    rw [Bool.eq_iff_iff, decide_eq_true_iff, List.mem_filter, beq_iff_eq, decide_eq_true_iff]
    tauto
  rw [hone, List.filter_beq, List.count_eq_one_of_mem List.nodup_range (List.mem_range.mpr hi)]
  rfl

variable (X target key source content) in
/-- A main thread that finds every chunk there already. -/
def commitActions (tid : String) : List SendAction :=
  ackActions X target key source ⟨true, false, List.range (buildManifest source).totalChunks⟩ ++
    [⟨.uploads [], .ok ()⟩, ⟨.readAll, .ok content⟩,
      ⟨.seal_ .commit 0 (asBytes tid) (X.commitJson.toVec ⟨X.blake3 content⟩),
        X.cipher.seal_ key .commit 0 (asBytes tid) (X.commitJson.toVec ⟨X.blake3 content⟩)⟩]

theorem exists_call_commit {kind : Kind} {hkind : kind ≠ .text} {name tid : String}
    {entries : List Entry} {totalSize : Nat}
    (hsource : source = .blob kind hkind name entries totalSize tid) :
    ∃ qs, Call X target key source content
      (logOf (commitActions X target key source content tid) 0 []) qs := by
  have hpath : ∃ p, Follows (send X target source) (commitActions X target key source content tid) p := by
    have hack := follows_ackActions X target key
      (List.range (buildManifest source).totalChunks) hsource
    rw [sendBlob, missing_range] at hack
    exact ⟨_, hack.append (.cons (.cons (.cons (.nil _))))⟩
  obtain ⟨p, hp⟩ := hpath
  exact Call.of_paths hp (.nil _) ⟨⟨trivial, trivial⟩, ⟨trivial, rfl⟩, ⟨trivial, trivial⟩,
    ⟨fun i hi => absurd hi List.not_mem_nil, trivial⟩, ⟨trivial, rfl⟩, ⟨trivial, rfl⟩, trivial⟩

theorem seals_commit (tid : String) : Seals (logOf (commitActions X target key source content tid) 0 [])
    .commit 0 (X.commitJson.toVec ⟨X.blake3 content⟩) :=
  ⟨.main, asBytes tid, _, List.mem_append_left _ (List.mem_map_of_mem (List.mem_append_right _
    (List.mem_cons_of_mem _ (List.mem_cons_of_mem _ List.mem_cons_self))))⟩

variable (X key) in
/-- A chunk thread up to the seal. -/
def chunkActions (totalSize : Nat) (tid : String) (i : Nat) (b : Bytes) : List SendAction :=
  [⟨.readAt (i * CHUNK_SIZE) (min CHUNK_SIZE (totalSize - i * CHUNK_SIZE)), .ok b⟩,
    ⟨.seal_ .data i (asBytes tid) b, X.cipher.seal_ key .data i (asBytes tid) b⟩]

theorem seals_chunk (main : List SendAction) (totalSize : Nat) (tid : String) (i : Nat) (b : Bytes) :
    Seals (logOf main i (chunkActions X key totalSize tid i b)) .data i b :=
  ⟨.upload i, asBytes tid, _, List.mem_append_right _
    (List.mem_map_of_mem (List.mem_cons_of_mem _ List.mem_cons_self))⟩

theorem exists_call_chunk {kind : Kind} {hkind : kind ≠ .text} {name tid : String}
    {entries : List Entry} {totalSize : Nat}
    (hsource : source = .blob kind hkind name entries totalSize tid) {i : Nat}
    (hi : i < (buildManifest source).totalChunks) {b : Bytes}
    (hb : chunkAt totalSize content i = some b) :
    ∃ qs, Call X target key source content (logOf (ackActions X target key source ⟨true, false,
      (List.range (buildManifest source).totalChunks).filter fun j => decide (j ≠ i)⟩) i
      (chunkActions X key totalSize tid i b)) qs := by
  have hmain := follows_ackActions X target key
    ((List.range (buildManifest source).totalChunks).filter fun j => decide (j ≠ i)) hsource
  -- the receiver has every chunk but this one
  have hwaits : Waits X target source ((ackActions X target key source ⟨true, false,
      (List.range (buildManifest source).totalChunks).filter fun j => decide (j ≠ i)⟩).map
        fun a => (.main, a)) [i] := by
    rw [Waits, own_map_self]
    rw [sendBlob, missing_allBut hi] at hmain
    exact ⟨_, hmain⟩
  have hpath : Follows (uploadOf X target source i) (chunkActions X key totalSize tid i b)
      (uploadWithRetry X target i (X.cipher.seal_ key .data i (asBytes tid) b) CHUNK_ATTEMPTS) := by
    subst hsource
    exact .cons (.cons (.nil _))
  have hsched : ∀ pre a post, chunkActions X key totalSize tid i b = pre ++ a :: post →
    Scheduled X target source
      ((ackActions X target key source ⟨true, false,
        (List.range (buildManifest source).totalChunks).filter fun j => decide (j ≠ i)⟩).map
          (fun a => (.main, a)) ++ pre.map fun a => (.upload i, a)) (.upload i, a) :=
    fun pre a post => scheduled_alone hwaits (List.nil_append _).symm (List.nodup_singleton i)
      (List.forall_mem_nil _)
      (fun j _ => own_map_of_ne (by simp) _) (uploadOf_eq_step hsource) hpath
  refine Call.of_paths hmain hpath ?_
  rw [logOf]
  refine admits_append.mpr ⟨⟨⟨trivial, trivial⟩, ⟨trivial, rfl⟩, ⟨trivial, trivial⟩, trivial⟩,
    ⟨?_, read_of_chunkAt hb⟩, ⟨?_, rfl⟩, trivial⟩
  · simpa using hsched [] _ _ rfl
  · exact hsched [_] _ _ rfl

/-- If no nonce is ever used twice for different plaintexts, the calls agree. -/
theorem consistent_of_noReuse {inputs : List (Source × Bytes)}
    (h : ∀ logs, Calls X target key inputs logs → NoReuse logs) : Consistent X inputs := by
  intro x hx y hy
  by_cases hne : x = y
  · exact hne ▸ Agree.refl x
  -- both calls seal their manifest under index 0
  have hm : buildManifest x.1 = buildManifest y.1 :=
    X.manifestJson.toVec_injective (eq_of_noReuse h hx hy hne (exists_call_offer x)
      (exists_call_offer y) seals_offer seals_offer)
  refine ⟨hm, fun hkind => ?_⟩
  obtain ⟨sx, cx⟩ := x
  obtain ⟨sy, cy⟩ := y
  cases sx with
  | text c tid => exact absurd rfl hkind
  | blob kind hk name entries totalSize tid =>
  cases sy with
  | text c tid' =>
      rw [hm] at hkind
      exact absurd rfl hkind
  | blob kind' hk' name' entries' totalSize' tid' =>
  have hsize : totalSize = totalSize' := congrArg Manifest.totalSize hm
  subst hsize
  refine ⟨?_, ?_⟩
  · intro i hi b b' hb hb'
    exact eq_of_noReuse h hx hy hne (exists_call_chunk rfl hi hb)
      (exists_call_chunk rfl (hm ▸ hi) hb') (seals_chunk _ _ _ _ _) (seals_chunk _ _ _ _ _)
  · have hcommit := eq_of_noReuse h hx hy hne (exists_call_commit rfl) (exists_call_commit rfl)
      (seals_commit tid) (seals_commit tid')
    exact congrArg Commit.blake3Hex (X.commitJson.toVec_injective hcommit)

/-- **Nonce uniqueness.** For any calls of `send` with one code, whatever the network answers and
wherever each is cut off, no nonce is used with two plaintexts, exactly when the calls all send the
same thing. -/
theorem noReuse_iff_consistent (X : Externals) (target : Target) (key : Key)
    (inputs : List (Source × Bytes))
    (hsize : ∀ x ∈ inputs, (buildManifest x.1).totalSize < 2 ^ 64) :
    (∀ logs, Calls X target key inputs logs → NoReuse logs) ↔ Consistent X inputs :=
  ⟨consistent_of_noReuse, fun h _ hcalls => h.noReuse hsize hcalls⟩

/-- Sending the same file again is fine. -/
theorem noReuse_sameFile :
    (∀ x ∈ [(Source.blob .file (by decide) "a" [] 1 "t", ([7] : Bytes)),
        (.blob .file (by decide) "a" [] 1 "t", [7])], (buildManifest x.1).totalSize < 2 ^ 64) ∧
    ∀ logs, Calls (Externals.ideal fun _ => "") ⟨"host", "token"⟩ []
      [(.blob .file (by decide) "a" [] 1 "t", [7]), (.blob .file (by decide) "a" [] 1 "t", [7])] logs →
    NoReuse logs := by
  have hsize : ∀ x ∈ [(Source.blob .file (by decide) "a" [] 1 "t", ([7] : Bytes)),
      (.blob .file (by decide) "a" [] 1 "t", [7])], (buildManifest x.1).totalSize < 2 ^ 64 := by
    intro x hx
    have hx' : x = (.blob .file (by decide) "a" [] 1 "t", [7]) := by simpa using hx
    rw [hx']
    decide
  refine ⟨hsize, (noReuse_iff_consistent _ _ _ _ hsize).mpr ?_⟩
  intro x hx y hy
  have hx' : x = (.blob .file (by decide) "a" [] 1 "t", [7]) := by simpa using hx
  have hy' : y = (.blob .file (by decide) "a" [] 1 "t", [7]) := by simpa using hy
  rw [hx', hy']
  exact Agree.refl _

/-- Sending it again after it was edited, with its size and its time as they were, is not: the first
chunk is sealed twice under one nonce, once for each version. -/
theorem nonce_reused_editedFile : ∃ logs, Calls (Externals.ideal fun _ => "") ⟨"host", "token"⟩ []
      [(.blob .file (by decide) "a" [] 1 "t", [7]), (.blob .file (by decide) "a" [] 1 "t", [8])] logs ∧
    ¬ NoReuse logs := by
  refine ⟨_, .cons (exists_call_chunk (i := 0) (b := [7]) rfl (by decide) (by decide))
    (.cons (exists_call_chunk (i := 0) (b := [8]) rfl (by decide) (by decide)) .nil), ?_⟩
  intro h
  have heq : ([7] : Bytes) = [8] := h _ List.mem_cons_self _
    (List.mem_cons_of_mem _ List.mem_cons_self) .data 0 [7] .data 0 [8] (seals_chunk _ _ _ _ _)
    (seals_chunk _ _ _ _ _) rfl
  exact absurd heq (by decide)

end Tunnel
end B2p
