import B2p.Tunnel.Send

/-!
# What a call of `send` asks for

On its own machine, and against any network, a call seals the manifest, the chunks it can read and the
commit, each under its own domain and index, and sends these and nothing else.

* `Call` — one call, cut off anywhere.
* `Proper` — the operations a call performs; `Call.proper` says that these are all.
-/

namespace B2p

open Interaction Prog

namespace Tunnel

variable (X : Externals) (target : Target) (key : Key)

/-- What the sender's own machine answers. A read may fail; the network may answer anything. -/
def Local (content : Bytes) : (o : SendOp) → o.Res → Prop
  | .seal_ d i aad pt, r => r = X.cipher.seal_ key d i aad pt
  | .readAt off len, .ok b => off + len ≤ content.length ∧ b = slice off len content
  | .readAll, .ok b => b = content
  | _, _ => True

/-- One call of `send` for a source with this content, up to some point. -/
abbrev Call (source : Source) (content : Bytes) (log : List (Thread × SendAction))
    (qs : (t : Thread) → SendProg t.Out) : Prop :=
  Run (threads X target source)
    (fun log x => Scheduled X target source log x ∧ Local X key content x.2.op x.2.res) log qs

/-- The bytes `read_chunk` can read for chunk `i`: none if the file is too short. -/
def chunkAt (totalSize : Nat) (content : Bytes) (i : Nat) : Option Bytes :=
  let off := i * CHUNK_SIZE
  let len := min CHUNK_SIZE (totalSize - off)
  if off + len ≤ content.length then some (slice off len content) else none

theorem read_of_chunkAt {totalSize i : Nat} {content b : Bytes} (h : chunkAt totalSize content i = some b) :
    i * CHUNK_SIZE + min CHUNK_SIZE (totalSize - i * CHUNK_SIZE) ≤ content.length ∧
      b = slice (i * CHUNK_SIZE) (min CHUNK_SIZE (totalSize - i * CHUNK_SIZE)) content := by
  rw [chunkAt] at h
  split at h
  · next hle => exact ⟨hle, (Option.some.inj h).symm⟩
  · cases h

/-- What may be sealed under `d`, `i` for a source with this content. -/
def Sealable (source : Source) (content : Bytes) : Domain → Nat → Bytes → Prop
  | .manifest, i, pt => i = 0 ∧ pt = X.manifestJson.toVec (buildManifest source)
  | .data, i, pt => i < (buildManifest source).totalChunks ∧ (buildManifest source).kind ≠ .text ∧
      chunkAt (buildManifest source).totalSize content i = some pt
  | .commit, i, pt => i = 0 ∧ (buildManifest source).kind ≠ .text ∧
      pt = X.commitJson.toVec ⟨X.blake3 content⟩
  | _, _, _ => False

/-- What a thread does: `main` sends the manifest and the commit, sealed, and uploads chunks that the
manifest has; a chunk's thread sends its chunk, sealed. -/
def Proper (source : Source) (content : Bytes) : Thread → SendOp → Prop
  | .main, .seal_ d i _ pt => Sealable X source content d i pt
  | .main, .uploads chunks => ∀ i ∈ chunks, i < (buildManifest source).totalChunks
  | .main, .http req =>
      (req = ⟨.manifest, target.token, X.cipher.seal_ key .manifest 0 []
        (X.manifestJson.toVec (buildManifest source))⟩) ∨
      (req = ⟨.commit, target.token, X.cipher.seal_ key .commit 0
        (asBytes (buildManifest source).transferId) (X.commitJson.toVec ⟨X.blake3 content⟩)⟩)
  | .upload _, .seal_ d i _ pt => Sealable X source content d i pt
  | .upload i, .http req => ∃ b, Sealable X source content .data i b ∧
      req = ⟨.chunk i, target.token,
        X.cipher.seal_ key .data i (asBytes (buildManifest source).transferId) b⟩
  | _, _ => True

variable {X target key} {source : Source} {content : Bytes}

theorem given_uploadWithRetry {i : Nat} {b : Bytes} (hb : Sealable X source content .data i b)
    (left : Nat) :
    Given (Local X key content) (Proper X target key source content (.upload i)) (fun _ => True)
      (uploadWithRetry X target i
        (X.cipher.seal_ key .data i (asBytes (buildManifest source).transferId) b) left) := by
  induction left with
  | zero => trivial
  | succ left ih =>
      refine ⟨⟨b, hb, rfl⟩, fun r _ => ?_⟩
      cases r with
      | ok r =>
          show Given _ _ _ (ite _ _ _)
          split
          · trivial
          · split
            · trivial
            · split
              · trivial
              · exact ih
      | error e =>
          show Given _ _ _ (ite _ _ _)
          split
          · trivial
          · exact ih

theorem given_readChunk {t : Thread} (totalSize : Nat) (i : Nat) :
    Given (Local X key content) (Proper X target key source content t)
      (fun b => chunkAt totalSize content i = some b) (readChunk i CHUNK_SIZE totalSize) := by
  refine ⟨by cases t <;> trivial, fun r hr => ?_⟩
  cases r with
  | error e => trivial
  | ok b =>
      show chunkAt totalSize content i = some b
      rw [chunkAt]
      obtain ⟨hlen, rfl⟩ := hr
      rw [if_pos hlen]

/-- A chunk thread that is allowed to run seals its own chunk, under its own index. -/
theorem given_uploadOf {i : Nat} (hi : i < (buildManifest source).totalChunks) :
    Given (Local X key content) (Proper X target key source content (.upload i)) (fun _ => True)
      (uploadOf X target source i) := by
  cases source with
  | text c tid => trivial
  | blob kind hkind name entries totalSize transferId =>
      refine (given_readChunk totalSize i).bind fun b hb => .op ⟨hi, hkind, hb⟩ fun ct hct => ?_
      rw [show ct = _ from hct]
      have hseal : Sealable X (.blob kind hkind name entries totalSize transferId) content .data i b :=
        ⟨hi, hkind, hb⟩
      exact given_uploadWithRetry hseal _

theorem given_blake3File :
    Given (Local X key content) (Proper X target key source content .main)
      (fun h => h = X.blake3 content) (blake3File X) := by
  refine ⟨trivial, fun r hr => ?_⟩
  cases r with
  | error e => trivial
  | ok b =>
      show X.blake3 b = X.blake3 content
      rw [show b = content from hr]

/-- The main thread seals and sends the manifest and the commit. -/
theorem given_send : Given (Local X key content) (Proper X target key source content .main)
    (fun _ => True) (send X target source) := by
  refine .op trivial fun client _ => .ofExcept fun _ _ => .op ⟨rfl, rfl⟩ fun body hbody =>
    .op (.inl (by rw [show body = _ from hbody])) fun resp _ => .ofExcept fun ack _ => ?_
  split
  · trivial
  · split
    · trivial
    · cases source with
      | blob kind hkind name entries totalSize transferId =>
          refine .op ?_ fun r _ => .ofExcept fun _ _ => given_blake3File.bind fun hash hhash =>
            .op ⟨rfl, hkind, by rw [hhash]⟩ fun body hbody =>
              .op (.inr (by rw [show body = _ from hbody, hhash]; rfl)) fun resp _ =>
                .ofExcept fun _ _ => .ofExcept fun ack _ => ?_
          · intro i hi
            exact List.mem_range.mp (List.mem_of_mem_filter hi)
          · split <;> trivial
      | text c tid => trivial

/-- **A call does nothing else**, whatever it is answered over the network. -/
theorem Call.proper {log : List (Thread × SendAction)} {qs : (t : Thread) → SendProg t.Out}
    (h : Call X target key source content log qs) {t : Thread} {a : SendAction} (hmem : (t, a) ∈ log) :
    Proper X target key source content t a.op := by
  have hlocal : ∀ t, ∀ a ∈ own t log, Local X key content a.op a.res := by
    intro t a ha
    obtain ⟨before, later, -, hR⟩ := h.allowed_of_mem (mem_own.mp ha)
    exact hR.2
  cases t with
  | main => exact (given_send.follows (h.follows .main) (hlocal .main)).1 _ (mem_own.mpr hmem)
  | upload j =>
      -- the thread runs, so `main` waits for its chunk
      obtain ⟨before, later, heq, ⟨chunks, ⟨k, hk⟩, hj, -⟩, -⟩ := h.allowed_of_mem hmem
      have hbefore : ∀ a ∈ own .main before, Local X key content a.op a.res := by
        intro a ha
        refine hlocal .main a ?_
        rw [heq, own_append]
        exact List.mem_append_left _ ha
      have hlt : j < (buildManifest source).totalChunks :=
        (given_send.follows hk hbefore).2.1 j hj
      exact ((given_uploadOf hlt).follows (h.follows (.upload j)) (hlocal (.upload j))).1 _
        (mem_own.mpr hmem)

theorem chunkSize_buildManifest : (buildManifest source).chunkSize = CHUNK_SIZE := by
  cases source <;> rfl

/-! ## One chunk after the other

`Scheduled` leaves much open; here is one way to run the chunk threads that it allows. -/

theorem uploadOf_eq_step {kind : Kind} {hkind : kind ≠ .text} {name tid : String} {entries : List Entry}
    {totalSize : Nat} (hsource : source = .blob kind hkind name entries totalSize tid) (j : Nat) :
    ∃ o k, uploadOf X target source j = .step o k := by
  subst hsource
  exact ⟨_, _, rfl⟩

/-- The chunk thread `i` may run while `main` waits, the chunks before it are uploaded, and no other chunk
has been begun. -/
theorem scheduled_upload {log : List (Thread × SendAction)} {chunks done rest : List Nat} {i : Nat}
    (hw : Waits X target source log chunks) (hsplit : chunks = done ++ i :: rest) (hnodup : chunks.Nodup)
    (hended : ∀ j ∈ done, Follows (uploadOf X target source j) (own (.upload j) log) (.ret ()))
    (hfresh : ∀ j, j ∉ done → j ≠ i → own (.upload j) log = [])
    (hstep : ∀ j, ∃ o k, uploadOf X target source j = .step o k)
    (hgoes : ∀ e, ¬ Follows (uploadOf X target source i) (own (.upload i) log) (.fail e)) (a : SendAction) :
    Scheduled X target source log (.upload i, a) := by
  refine ⟨chunks, hw, by simp [hsplit], ?_, ?_⟩
  · intro j hj e hfail
    by_cases hji : j = i
    · exact hgoes e (hji ▸ hfail)
    · by_cases hdone : j ∈ done
      · cases (hended j hdone).functional hfail
      · rw [hfresh j hdone hji] at hfail
        obtain ⟨o, k, hok⟩ := hstep j
        rw [hok] at hfail
        cases hfail
  · intro hnew
    refine ⟨?_, ?_⟩
    · -- the chunks before it are those that are done
      intro before later heq j hj hnil
      have hdone : j ∈ done := by
        rw [hsplit] at heq hnodup
        have hnot : i ∉ done ∧ i ∉ rest := by simpa using (List.nodup_middle.mp hnodup).notMem
        exact ((List.append_cons_inj_of_notMem hnot.1 hnot.2).mp heq).1 ▸ hj
      have hend := hended j hdone
      rw [hnil] at hend
      obtain ⟨o, k, hok⟩ := hstep j
      rw [hok] at hend
      cases hend
    · intro running _ hrun
      cases running with
      | nil => decide
      | cons j running =>
          obtain ⟨hown, o, k, hk⟩ := hrun j List.mem_cons_self
          by_cases hji : j = i
          · exact absurd (hji ▸ hnew) hown
          · by_cases hdone : j ∈ done
            · cases (hended j hdone).functional hk
            · exact absurd (hfresh j hdone hji) hown

/-- So it may run alone from its start, at each of its actions. -/
theorem scheduled_alone {log : List (Thread × SendAction)} {chunks done rest : List Nat} {i : Nat}
    (hw : Waits X target source log chunks) (hsplit : chunks = done ++ i :: rest) (hnodup : chunks.Nodup)
    (hended : ∀ j ∈ done, Follows (uploadOf X target source j) (own (.upload j) log) (.ret ()))
    (hfresh : ∀ j, j ∉ done → own (.upload j) log = [])
    (hstep : ∀ j, ∃ o k, uploadOf X target source j = .step o k) {tr : List SendAction} {q : SendProg Unit}
    (hpath : Follows (uploadOf X target source i) tr q) {pre post : List SendAction} {a : SendAction}
    (heq : tr = pre ++ a :: post) :
    Scheduled X target source (log ++ pre.map fun a => (.upload i, a)) (.upload i, a) := by
  have hnot : i ∉ done := by
    rw [hsplit] at hnodup
    exact fun hmem => (List.nodup_append.mp hnodup).2.2 i hmem i List.mem_cons_self rfl
  have hown : ∀ t, t ≠ .upload i → own t (log ++ pre.map fun a => (.upload i, a)) = own t log := by
    intro t ht
    rw [own_append, own_map_of_ne (Ne.symm ht), List.append_nil]
  refine scheduled_upload ?_ hsplit hnodup ?_ ?_ hstep ?_ a
  · rw [Waits, hown .main (by rintro ⟨⟩)]
    exact hw
  · intro j hj
    rw [hown _ (by rintro ⟨⟩; exact hnot hj)]
    exact hended j hj
  · intro j hj hji
    rw [hown _ (by rintro ⟨⟩; exact hji rfl), hfresh j hj]
  · -- a thread that goes on has not failed
    intro e hfail
    rw [own_append, hfresh i hnot, List.nil_append, own_map_self] at hfail
    obtain ⟨mid, hmid, hrest⟩ := (heq ▸ hpath).split
    cases hrest with
    | cons _ => cases hmid.functional hfail

end Tunnel
end B2p
