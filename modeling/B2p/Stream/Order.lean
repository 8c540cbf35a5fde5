import B2p.Stream.Integrity

/-!
# A stream session that nobody breaks into

The receiver takes the sender's frames, in order and none in between; the channel may die at any time, and
what reaches the sender may still come from anybody. Then every frame opens where the receiver expects it:
the session ends well, or with the channel, or for a reason at the receiver's own end.

* `Hosts` — what the two can rely on at home.
* `Payload` — what a sender sends for a reply; both sides make the same list of chunks of it.
* `Excused` — the reasons at the receiver's own end; `excused_of_inOrder` says that there are no others.
-/

namespace B2p

open Interaction Prog

namespace Stream

/-! ## One operation after the other -/

section inversion

variable {α β : Type} {tr : List StreamAction} {q : StreamProg β}

theorem follows_loc {o : HostOp} {f : o.Res → StreamProg β} (h : Follows (loc o >>= f) tr q) :
    (tr = [] ∧ q = (loc o >>= f)) ∨ ∃ r tr', tr = ⟨.loc o, r⟩ :: tr' ∧ Follows (f r) tr' q :=
  h.step_inv

/-- Sending, and giving up if it fails. -/
theorem follows_send {msg : Bytes} {f : Unit → StreamProg β} (h : Follows (send msg >>= f) tr q) :
    (tr = [] ∧ q = (send msg >>= f)) ∨ (∃ e, tr = [⟨.send msg, .error e⟩] ∧ q = .fail e) ∨
      ∃ tr', tr = ⟨.send msg, .ok ()⟩ :: tr' ∧ Follows (f ()) tr' q := by
  rcases h.step_inv with hnil | ⟨r, tr', rfl, hrest⟩
  · exact .inl hnil
  cases r with
  | ok u => exact .inr (.inr ⟨tr', rfl, hrest⟩)
  | error e =>
      cases hrest
      exact .inr (.inl ⟨e, rfl, rfl⟩)

/-- Receiving, and giving up if it fails. -/
theorem follows_recv {f : Bytes → StreamProg β} (h : Follows (recv >>= f) tr q) :
    (tr = [] ∧ q = (recv >>= f)) ∨ (∃ e, tr = [⟨.recv, .error e⟩] ∧ q = .fail e) ∨
      ∃ ct tr', tr = ⟨.recv, .ok ct⟩ :: tr' ∧ Follows (f ct) tr' q := by
  rcases h.step_inv with hnil | ⟨r, tr', rfl, hrest⟩
  · exact .inl hnil
  cases r with
  | ok ct => exact .inr (.inr ⟨ct, tr', rfl, hrest⟩)
  | error e =>
      cases hrest
      exact .inr (.inl ⟨e, rfl, rfl⟩)

theorem follows_ofExcept {x : Except Anyhow α} {f : α → StreamProg β}
    (h : Follows (ofExcept x >>= f) tr q) :
    (∃ e, x = .error e ∧ tr = [] ∧ q = .fail e) ∨ ∃ a, x = .ok a ∧ Follows (f a) tr q := by
  cases x with
  | ok a => exact .inr ⟨a, rfl, h⟩
  | error e =>
      cases h
      exact .inl ⟨e, rfl, rfl, rfl⟩

/-- What is done on disk, and then the rest, up to the end. -/
theorem follows_onDisk {p : FsProg α} {f : α → StreamProg β} (h : Follows (onDisk p >>= f) tr q)
    (hleaf : IsLeaf q) : (∃ e fin, tr = diskTrace fin ∧ Follows p fin (.fail e) ∧ q = .fail e) ∨
      ∃ a fin tr', tr = diskTrace fin ++ tr' ∧ Follows p fin (.ret a) ∧ Follows (f a) tr' q := by
  induction p generalizing tr with
  | ret a => exact .inr ⟨a, [], tr, rfl, .nil _, h⟩
  | fail e =>
      cases h
      exact .inl ⟨e, [], rfl, .nil _, rfl⟩
  | step o k ih =>
      rcases h.step_inv with ⟨-, rfl⟩ | ⟨r, tr', rfl, hrest⟩
      · exact hleaf.elim
      rcases ih r hrest with ⟨e, fin, rfl, hfin, hq⟩ | ⟨a, fin, tr'', rfl, hfin, hrest⟩
      · exact .inl ⟨e, ⟨o, r⟩ :: fin, rfl, .cons hfin, hq⟩
      · exact .inr ⟨a, ⟨o, r⟩ :: fin, tr'', rfl, .cons hfin, hrest⟩

/-- A sequence fails in its first part or in its second. -/
theorem follows_bind_fail {p : StreamProg α} {f : α → StreamProg β} {e : Anyhow}
    (h : Follows (p >>= f) tr (.fail e)) : Follows p tr (.fail e) ∨
      ∃ a tr₁ tr₂, tr = tr₁ ++ tr₂ ∧ Follows p tr₁ (.ret a) ∧ Follows (f a) tr₂ (.fail e) := by
  rcases h.bind_inv with ⟨m, hm, hq⟩ | hrest
  · cases m with
    | ret a => exact .inr ⟨a, tr, [], (List.append_nil tr).symm, hm, hq ▸ .nil _⟩
    | fail e' =>
        cases hq
        exact .inl hm
    | step o k => cases hq
  · exact .inr hrest

theorem got_diskTrace (fin : List (Action fsEffects)) : got (diskTrace fin) = [] := by
  simp [got, diskTrace]

end inversion

section

variable (X : Externals) (sk : Key)

/-- What the two can rely on at home: sealing, reading exactly so many bytes, and a state file that lists
chunks of its transfer only, as `Store` writes it. -/
def Hosts : StreamAction → Prop
  | ⟨.loc (.seal_ d i pt), ct⟩ => ct = X.cipher.seal_ sk d i [] pt
  | ⟨.loc (.readAt _ len), .ok b⟩ => b.length = len
  | ⟨.loc (.fs (.read (.staged _ .stateJson))), .ok bytes⟩ =>
      ∀ st, X.stateJson.fromSlice bytes = some st → ∀ i ∈ st.haves, i < divCeil st.totalSize st.chunkSize
  | _ => True

/-! ## The sender -/

/-- What a sender may have sent of the chunks `todo` and the commit that follows them. -/
inductive Payload (m : Manifest) : List Nat → List Bytes → Prop
  | nil {todo : List Nat} : Payload m todo []
  | chunk {i : Nat} {todo : List Nat} {fs : List Bytes} {b : Bytes}
      (hlen : b.length = min STREAM_FRAME_SIZE (m.totalSize - i * STREAM_FRAME_SIZE))
      (h : Payload m todo fs) :
      Payload m (i :: todo) (X.cipher.seal_ sk .streamToReceiver (1 + i) [] b :: fs)
  | commit (hash : String) : Payload m []
      [X.cipher.seal_ sk .streamToReceiver (1 + m.totalChunks) [] (X.commitJson.toVec ⟨hash⟩)]

variable {X sk} {m : Manifest} {tr : List StreamAction} {β : Type} {q : StreamProg β}

/-- The payload loop sends the chunks that the reply does not have. -/
theorem payload_sendChunks {ack : StreamManifestAck} {f : Unit → StreamProg β} {todo : List Nat}
    (h : Follows (sendChunks ack m.totalSize todo >>= f) tr q) (hlaw : ∀ a ∈ tr, Hosts X sk a)
    (hf : ∀ tr', tr' ⊆ tr → Follows (f ()) tr' q → Payload X sk m [] (sent tr')) :
    Payload X sk m (todo.filter fun i => !skips ack i) (sent tr) := by
  -- on the chunks to come; the trace may break off at any operation, with fewer frames sent
  induction todo generalizing tr with
  | nil => exact hf tr (List.Subset.refl _) h
  | cons i todo ih =>
      rw [sendChunks] at h
      split at h
      · next hskip =>
          rw [List.filter_cons_of_neg (by simp [hskip])]
          exact ih h hlaw hf
      next hskip =>
      rw [List.filter_cons_of_pos (by simp [hskip])]
      simp only [readChunk, seal_, bind_assoc] at h
      rcases follows_loc h with ⟨rfl, -⟩ | ⟨r, tr₁, rfl, h₁⟩
      · exact .nil
      rcases follows_ofExcept h₁ with ⟨e, -, rfl, -⟩ | ⟨b, hr, h₂⟩
      · exact .nil
      rw [mapError_eq_ok] at hr
      subst hr
      rcases follows_loc h₂ with ⟨rfl, -⟩ | ⟨ct, tr₂, rfl, h₃⟩
      · exact .nil
      have hlen : b.length = min STREAM_FRAME_SIZE (m.totalSize - i * STREAM_FRAME_SIZE) :=
        hlaw _ List.mem_cons_self
      obtain rfl : ct = X.cipher.seal_ sk .streamToReceiver (1 + i) [] b :=
        hlaw _ (List.mem_cons_of_mem _ List.mem_cons_self)
      rcases follows_send h₃ with ⟨rfl, -⟩ | ⟨e, rfl, -⟩ | ⟨tr₃, rfl, h₄⟩
      · exact .nil
      · exact .nil
      -- a whole chunk went out
      refine .chunk hlen (ih h₄ (fun a ha => hlaw a ?_) fun tr' hs => hf tr' fun a ha => ?_)
      · simp [ha]
      · simp [hs ha]

/-- The commit is the last frame. -/
theorem payload_commit {q : StreamProg String} (h : Follows (do
      (do
        let hash ← blake3File X
        let ct ← seal_ .streamToReceiver (1 + m.totalChunks) (X.commitJson.toVec ⟨hash⟩)
        send ct)
      awaitCommit X sk) tr q) (hlaw : ∀ a ∈ tr, Hosts X sk a) : Payload X sk m [] (sent tr) := by
  simp only [blake3File, seal_, bind_assoc] at h
  rcases follows_loc h with ⟨rfl, -⟩ | ⟨r, tr₁, rfl, h₁⟩
  · exact .nil
  rcases follows_ofExcept h₁ with ⟨e, -, rfl, -⟩ | ⟨content, -, h₂⟩
  · exact .nil
  rcases follows_loc h₂ with ⟨rfl, -⟩ | ⟨ct, tr₂, rfl, h₃⟩
  · exact .nil
  obtain rfl : ct = X.cipher.seal_ sk .streamToReceiver (1 + m.totalChunks) []
      (X.commitJson.toVec ⟨X.blake3 content⟩) := hlaw _ (List.mem_cons_of_mem _ List.mem_cons_self)
  rcases follows_send h₃ with ⟨rfl, -⟩ | ⟨e, rfl, -⟩ | ⟨tr₃, rfl, h₄⟩
  · exact .nil
  · exact .nil
  -- after the commit nothing is sent
  have hnone : sent tr₃ = [] := by
    rcases follows_recv h₄ with ⟨rfl, -⟩ | ⟨e, rfl, -⟩ | ⟨ct', tr₄, rfl, h₅⟩
    · rfl
    · rfl
    rcases follows_ofExcept h₅ with ⟨e, -, rfl, -⟩ | ⟨cack, -, h₆⟩
    · rfl
    split at h₆
    · cases h₆
      rfl
    · cases h₆
      rfl
  show Payload X sk m [] (_ :: sent tr₃)
  rw [hnone]
  exact .commit _

variable {source : Source}

variable (X sk source) in
/-- The frames of a sender: its offer, and the payload for a reply it took. -/
structure Frames (tr : List StreamAction) (fs : List Bytes) : Prop where
  offer : ∀ f rest, fs = f :: rest → f = manifestFrame X sk (streamManifest source)
  payload : ∀ f f' rest, fs = f :: f' :: rest → ∃ ct ack, Took ct tr ∧
    openVal X sk X.streamAckJson .streamToSender 0 ct = .ok ack ∧
    Payload X sk (streamManifest source)
      ((List.range (streamManifest source).totalChunks).filter fun i => !skips ack i) (f' :: rest)

theorem Frames.short {fs : List Bytes} (h : fs = [] ∨ fs = [manifestFrame X sk (streamManifest source)]) :
    Frames X sk source tr fs := by
  rcases h with rfl | rfl
  · refine ⟨fun f rest heq => ?_, fun f f' rest heq => ?_⟩
    · cases heq
    · cases heq
  · refine ⟨fun f rest heq => (List.cons.inj heq).1.symm, fun f f' rest heq => ?_⟩
    cases heq

/-- **What a sender sends.** -/
theorem frames_sendSource {q : StreamProg String} (h : Follows (sendSource X sk source) tr q)
    (hlaw : ∀ a ∈ tr, Hosts X sk a) : Frames X sk source tr (sent tr) := by
  simp only [sendSource, offer, seal_, bind_assoc] at h
  rcases follows_loc h with ⟨rfl, -⟩ | ⟨ct, tr₁, rfl, h₁⟩
  · exact .short (.inl rfl)
  obtain rfl : ct = manifestFrame X sk (streamManifest source) := hlaw _ List.mem_cons_self
  rcases follows_send h₁ with ⟨rfl, -⟩ | ⟨e, rfl, -⟩ | ⟨tr₂, rfl, h₂⟩
  · exact .short (.inl rfl)
  · exact .short (.inl rfl)
  rcases follows_recv h₂ with ⟨rfl, -⟩ | ⟨e, rfl, -⟩ | ⟨reply, tr₃, rfl, h₃⟩
  · exact .short (.inr rfl)
  · exact .short (.inr rfl)
  rcases follows_ofExcept h₃ with ⟨e, -, rfl, -⟩ | ⟨ack, hack, h₄⟩
  · exact .short (.inr rfl)
  rw [withContext_eq_ok] at hack
  split at h₄
  · cases h₄
    exact .short (.inr rfl)
  split at h₄
  · cases h₄
    exact .short (.inr rfl)
  rw [sendPayload, bind_assoc] at h₄
  -- past the ack: the chunks it does not skip, and the commit
  have hpay := payload_sendChunks h₄ (fun a ha => hlaw a (by simp [ha]))
    fun tr' hs h' => payload_commit h' fun a ha => hlaw a (by simp [hs ha])
  refine ⟨?_, ?_⟩
  · intro f rest heq
    exact (List.cons.inj heq).1.symm
  · intro f f' rest heq
    have htail : sent tr₃ = f' :: rest := (List.cons.inj heq).2
    refine ⟨reply, ack, ?_, hack, htail ▸ hpay⟩
    simp [Took]

/-! ## The receiver -/

/-- **What an attempt may fail with at the receiver's own end**: its user declines, the transfer is not
complete or not the sender's file when it is finalized, or the disk fails. -/
inductive Excused : Anyhow → Prop
  | declined : Excused (.msg "transfer declined")
  | incomplete : Excused (.msg "transfer incomplete")
  | mismatch : Excused hashMismatch
  | disk {e : Anyhow} (h : FromDisk e) : Excused e

/-- An attempt that the channel broke off, with the error of the channel. -/
def BrokenOff (tr : List StreamAction) (e : Anyhow) : Prop :=
  (⟨.recv, .error e⟩ : StreamAction) ∈ tr ∨ ∃ f, (⟨.send f, .error e⟩ : StreamAction) ∈ tr

theorem BrokenOff.mono {tr tr' : List StreamAction} {e : Anyhow} (h : BrokenOff tr e) (hs : tr ⊆ tr') :
    BrokenOff tr' e := by
  rcases h with h | ⟨f, h⟩
  · exact .inl (hs h)
  · exact .inr ⟨f, hs h⟩

/-- A store of the transfer's size. -/
structure StoreOf (m : Manifest) (store : Store) : Prop where
  totalSize : store.state.totalSize = m.totalSize
  chunkSize : store.state.chunkSize = m.chunkSize

theorem StoreOf.totalChunks {store : Store} (h : StoreOf m store) : store.totalChunks = m.totalChunks := by
  rw [Store.totalChunks, h.totalSize, h.chunkSize, Manifest.totalChunks]

variable {store : Store}

/-- The state that a store starts from is of the transfer's size and lists chunks of it only, whatever the
state file holds. -/
theorem loadState_within (bytes : Except IoError Bytes) (transferId : String) (totalSize chunkSize : Nat)
    (hfile : ∀ b, bytes = .ok b → ∀ st, X.stateJson.fromSlice b = some st →
      ∀ i ∈ st.haves, i < divCeil st.totalSize st.chunkSize) :
    (Store.loadState X bytes transferId totalSize chunkSize).totalSize = totalSize ∧
      (Store.loadState X bytes transferId totalSize chunkSize).chunkSize = chunkSize ∧
      ∀ i ∈ (Store.loadState X bytes transferId totalSize chunkSize).haves,
        i < divCeil totalSize chunkSize := by
  have hfresh : ∀ i ∈ (Store.freshState transferId totalSize chunkSize).haves,
      i < divCeil totalSize chunkSize := fun i hi => absurd hi (SortedSet.not_mem_empty i)
  unfold Store.loadState
  split
  · next b =>
      split
      · next st hst =>
          split
          · next hmatch =>
              refine ⟨hmatch.2.1, hmatch.2.2, fun i hi => ?_⟩
              rw [← hmatch.2.1, ← hmatch.2.2]
              exact hfile b rfl st hst i hi
          · exact ⟨rfl, rfl, hfresh⟩
      · exact ⟨rfl, rfl, hfresh⟩
  · exact ⟨rfl, rfl, hfresh⟩

theorem storeOf_openOrCreate {fin : List (Action fsEffects)} (hlaw : ∀ a ∈ diskTrace fin, Hosts X sk a)
    (h : Follows (Store.openOrCreate X (safeName m.name) m.transferId m.totalSize m.chunkSize) fin
      (.ret store)) : StoreOf m store ∧ ∀ i ∈ store.state.haves, i < store.totalChunks := by
  have hgiven : Given (fun o r => Hosts X sk ⟨.loc (.fs o), r⟩) (fun _ => True)
      (fun store => StoreOf m store ∧ ∀ i ∈ store.state.haves, i < store.totalChunks)
      (Store.openOrCreate X (safeName m.name) m.transferId m.totalSize m.chunkSize) := by
    refine .op trivial fun _ _ => .ofExcept fun _ _ => .op trivial fun bytes hbytes => .op trivial
      fun _ _ => .ofExcept fun _ _ => .op trivial fun _ _ => .ofExcept fun _ _ => ?_
    have hfile : ∀ b, bytes = .ok b → ∀ st, X.stateJson.fromSlice b = some st →
        ∀ i ∈ st.haves, i < divCeil st.totalSize st.chunkSize := by
      intro b hb
      subst hb
      exact hbytes
    obtain ⟨hsize, hchunk, hlisted⟩ := loadState_within bytes m.transferId m.totalSize m.chunkSize hfile
    refine ((given_true _).mono (fun _ _ _ => trivial) (fun _ h => h) fun _ h => h).bind fun _ _ => ?_
    refine ⟨⟨hsize, hchunk⟩, fun i hi => ?_⟩
    rw [Store.totalChunks, hsize, hchunk]
    exact hlisted i hi
  refine (hgiven.follows h fun a ha => hlaw _ ?_).2
  exact List.mem_map_of_mem ha

/-- A chunk of the right length can only fail to be written by the disk. -/
theorem storeOf_writeChunk (hs : StoreOf m store) {i : Nat} {plain : Bytes} (hacc : store.Accepts i plain)
    {fin : List (Action fsEffects)} {res : Except Anyhow Unit × Store}
    (h : Follows (store.writeChunk X i plain) fin (.ret res)) :
    (∀ e, res.1 = .error e → FromDisk e) ∧ StoreOf m res.2 := by
  have hgiven : Given (fun _ _ => True) (fun _ => True)
      (fun res : Except Anyhow Unit × Store => (∀ e, res.1 = .error e → FromDisk e) ∧ StoreOf m res.2)
      (store.writeChunk X i plain) := by
    rw [Store.writeChunk_of_accepts X hacc]
    refine ⟨trivial, fun r _ => ?_⟩
    cases r with
    | error e =>
        refine ⟨?_, hs⟩
        rintro _ ⟨⟩
        exact ⟨e, .inl rfl⟩
    | ok u => exact (FailsWith.given_attempt (failsWith_persistState _)).bind fun r hr =>
        ⟨hr, hs.totalSize, hs.chunkSize⟩
  exact (hgiven.follows h fun _ _ => trivial).2

/-- What `finalize` fails with, for a file or an archive. -/
theorem failsWith_finalize (hkind : m.kind ≠ .text) (commit : Commit) (outDir name : String) :
    FailsWith Excused (finalize X store m commit outDir name) := by
  unfold finalize
  split
  · exact .incomplete
  refine .bind ?_ fun hash => ?_
  · exact .bind (fun _ => trivial) fun r =>
      .bind (FailsWith.mono (failsWith_io r) fun _ => .disk) fun _ => trivial
  split
  · exact .mismatch
  split
  · exact .bind (FailsWith.mono (failsWith_finalizeFile _ _ _) fun _ => .disk) fun _ => trivial
  · exact .bind (FailsWith.mono (failsWith_unpackTar _) fun _ => .disk) fun _ =>
      .bind (FailsWith.mono (failsWith_removeDirAll _) fun _ => .disk) fun _ => trivial
  · next htext => exact absurd htext hkind

/-- **The payload loop**: as long as the frames are the sender's, it only fails with the channel or the
disk. -/
theorem fails_recvChunks {haves todo : List Nat} {rest : List Bytes} {f : Store → StreamProg β} {e : Anyhow}
    {C : Prop} (hs : StoreOf m store) (hchunk : m.chunkSize = STREAM_FRAME_SIZE)
    (htodo : ∀ i ∈ todo, i < m.totalChunks)
    (h : Follows (recvChunks X sk haves store todo >>= f) tr (.fail e))
    (hpay : Payload X sk m (todo.filter fun i => decide (i ∉ haves)) rest) (hgot : got tr <+: rest)
    (hbroken : BrokenOff tr e → C) (hdisk : FromDisk e → C)
    (hf : ∀ store tr' rest, tr' ⊆ tr → StoreOf m store → Payload X sk m [] rest → got tr' <+: rest →
      Follows (f store) tr' (.fail e) → C) : C := by
  -- on the chunks to come, which the payload of the sender lists in the same order
  induction todo generalizing store tr rest with
  | nil => exact hf store tr rest (List.Subset.refl _) hs hpay hgot h
  | cons i todo ih =>
      have hrest : ∀ j ∈ todo, j < m.totalChunks := fun j hj => htodo j (List.mem_cons_of_mem _ hj)
      rw [recvChunks] at h
      split at h
      · next hi =>
          rw [List.filter_cons_of_neg (by simpa using hi)] at hpay
          exact ih hs hrest h hpay hgot hbroken hf
      next hi =>
      rw [List.filter_cons_of_pos (by simpa using hi)] at hpay
      rw [bind_assoc] at h
      rcases follows_recv h with ⟨-, hq⟩ | ⟨e', rfl, hq⟩ | ⟨ct, tr₁, rfl, h₁⟩
      · cases hq
      · cases hq
        exact hbroken (.inl List.mem_cons_self)
      -- the frame is the sender's for this very chunk
      have hgot₁ : ct :: got tr₁ <+: rest := hgot
      cases hpay with
      | nil => exact absurd (List.prefix_nil.mp hgot₁) (List.cons_ne_nil _ _)
      | @chunk _ _ rest b hlen hpay =>
          obtain ⟨rfl, hgot₂⟩ := List.cons_prefix_cons.mp hgot₁
          rw [Cipher.open_seal_] at h₁
          dsimp only at h₁
          rw [bind_assoc] at h₁
          have hsub : tr₁ ⊆ _ := fun a ha => List.mem_cons_of_mem
            ⟨.recv, .ok (X.cipher.seal_ sk .streamToReceiver (1 + i) [] b)⟩ ha
          rcases follows_onDisk h₁ trivial
            with ⟨e', fin, -, hfin, -⟩ | ⟨res, fin, tr₂, rfl, hfin, h₂⟩
          · exact (FailsWith.of_follows (failsWith_writeChunk (fun _ => False) _ _ _) hfin).elim
          -- it has the right length, so the store takes it
          have hacc : store.Accepts i b := by
            have hi : i < store.totalChunks := hs.totalChunks ▸ htodo i List.mem_cons_self
            refine ⟨hi, ?_⟩
            rw [Store.expectedLen_eq (by rw [hs.chunkSize, hchunk]; decide) hi, hlen, hs.totalSize,
              hs.chunkSize, hchunk]
          obtain ⟨hres, hs'⟩ := storeOf_writeChunk hs hacc hfin
          rw [bind_assoc] at h₂
          rcases follows_ofExcept h₂ with ⟨e', he, -, hq⟩ | ⟨u, -, h₃⟩
          · cases hq
            exact hdisk (hres _ he)
          rw [got_append, got_diskTrace, List.nil_append] at hgot₂
          have hsub₂ : tr₂ ⊆ _ := fun a ha => hsub (List.mem_append_right (diskTrace fin) ha)
          exact ih hs' hrest h₃ hpay hgot₂ (fun hb => hbroken (hb.mono hsub₂))
            fun store tr' rest hsub' => hf store tr' rest fun a ha => hsub₂ (hsub' ha)

/-- The two lists of chunks agree. -/
theorem filter_skips {ack : StreamManifestAck} (hack : ack = ackFor store) (hs : StoreOf m store)
    (hlisted : ∀ i ∈ store.state.haves, i < store.totalChunks) :
    ((List.range m.totalChunks).filter fun i => !skips ack i)
      = (List.range m.totalChunks).filter fun i => decide (i ∉ store.haves) := by
  refine List.filter_congr fun i hi => ?_
  have hlt : i < store.totalChunks := hs.totalChunks ▸ List.mem_range.mp hi
  rw [hack, Bool.eq_iff_iff, Bool.not_eq_true', ← Bool.not_eq_true, skips_ackFor hlisted hlt,
    decide_eq_true_iff]

/-- A reply and then the rest, up to the end. -/
theorem follows_replyAck {ack : StreamManifestAck} {f : Unit → StreamProg β}
    (h : Follows (replyAck X ack >>= f) tr q) (hleaf : IsLeaf q) :
    (∃ e, q = .fail e ∧ BrokenOff tr e) ∨
      ∃ ct tr', tr = ⟨.loc (.seal_ .streamToSender 0 (X.streamAckJson.toVec ack)), ct⟩ ::
        ⟨.send ct, .ok ()⟩ :: tr' ∧ Follows (f ()) tr' q := by
  simp only [replyAck, seal_, bind_assoc] at h
  rcases follows_loc h with ⟨-, rfl⟩ | ⟨ct, tr₁, rfl, h₁⟩
  · exact hleaf.elim
  rcases follows_send h₁ with ⟨-, rfl⟩ | ⟨e, rfl, rfl⟩ | ⟨tr₂, rfl, h₂⟩
  · exact hleaf.elim
  · exact .inl ⟨e, rfl, .inr ⟨ct, List.mem_cons_of_mem _ List.mem_cons_self⟩⟩
  · exact .inr ⟨ct, tr₂, rfl, h₂⟩

/-- The plaintext was sealed under this nonce. -/
def Sealed (d : Domain) (i : Nat) (pt : Bytes) (tr : List StreamAction) : Prop :=
  ∃ ct, (⟨.loc (.seal_ d i pt), ct⟩ : StreamAction) ∈ tr

theorem Sealed.mono {d : Domain} {i : Nat} {pt : Bytes} {tr tr' : List StreamAction} (h : Sealed d i pt tr)
    (hs : tr ⊆ tr') : Sealed d i pt tr' := by
  obtain ⟨ct, h⟩ := h
  exact ⟨ct, hs h⟩

variable (X sk source) in
/-- What the negotiation ends with when the first frame is the sender's offer. -/
structure Negotiated (tr : List StreamAction) (p : Manifest × Option Store) : Prop where
  manifest : p.1 = streamManifest source
  first : got tr = [manifestFrame X sk (streamManifest source)]
  store : ∀ store, p.2 = some store → (streamManifest source).kind ≠ .text ∧
    StoreOf (streamManifest source) store ∧ (∀ i ∈ store.state.haves, i < store.totalChunks) ∧
    Sealed .streamToSender 0 (X.streamAckJson.toVec (ackFor store)) tr

/-- **The negotiation** ends well, with the channel, or at the receiver's own end. -/
theorem negotiated_or_fails {q : StreamProg (Manifest × Option Store)} (h : Follows (negotiate X sk) tr q)
    (hleaf : IsLeaf q) (hlaw : ∀ a ∈ tr, Hosts X sk a)
    (hfirst : ∀ f rest, got tr = f :: rest → f = manifestFrame X sk (streamManifest source)) :
    (∃ e, q = .fail e ∧ (BrokenOff tr e ∨ Excused e)) ∨
      ∃ p, q = .ret p ∧ Negotiated X sk source tr p := by
  have hversion : (streamManifest source).version = PROTOCOL_VERSION := by cases source <;> rfl
  rw [negotiate] at h
  rcases follows_recv h with ⟨-, rfl⟩ | ⟨e, rfl, rfl⟩ | ⟨ct, tr₁, rfl, h₁⟩
  · exact hleaf.elim
  · exact .inl ⟨e, rfl, .inl (.inl List.mem_cons_self)⟩
  obtain rfl := hfirst ct (got tr₁) rfl
  rw [manifestFrame, openVal_seal_, withContext_ok] at h₁
  rcases follows_ofExcept h₁ with ⟨e, he, -, -⟩ | ⟨m, hm, h₂⟩
  · cases he
  cases hm
  rw [if_neg (not_not.mpr hversion),
    if_neg (fun h => h.2 (Session.chunkSize_streamManifest source))] at h₂
  rcases follows_loc h₂ with ⟨-, rfl⟩ | ⟨accepted, tr₂, rfl, h₃⟩
  · exact hleaf.elim
  split at h₃
  · -- declined
    rcases follows_replyAck h₃ hleaf with ⟨e, rfl, hb⟩ | ⟨ct, tr₃, rfl, h₄⟩
    · exact .inl ⟨e, rfl, .inl (hb.mono (by simp))⟩
    · cases h₄
      exact .inl ⟨_, rfl, .inr .declined⟩
  split at h₃
  · -- a text
    rcases follows_replyAck h₃ hleaf with ⟨e, rfl, hb⟩ | ⟨ct, tr₃, rfl, h₄⟩
    · exact .inl ⟨e, rfl, .inl (hb.mono (by simp))⟩
    · cases h₄
      refine .inr ⟨_, rfl, rfl, rfl, fun store hstore => ?_⟩
      cases hstore
  next hkind =>
  rcases follows_onDisk h₃ hleaf with ⟨e, fin, rfl, hfin, rfl⟩ | ⟨store, fin, tr₃, rfl, hfin, h₄⟩
  · exact .inl ⟨e, rfl, .inr (.disk (FailsWith.of_follows (failsWith_openOrCreate _ _ _ _) hfin))⟩
  have hdisk : ∀ a ∈ diskTrace fin, Hosts X sk a := fun a ha =>
    hlaw a (List.mem_cons_of_mem _ (List.mem_cons_of_mem _ (List.mem_append_left _ ha)))
  -- accepted, and the store is open
  obtain ⟨hstore, hlisted⟩ := storeOf_openOrCreate hdisk hfin
  rcases follows_replyAck h₄ hleaf with ⟨e, rfl, hb⟩ | ⟨ct, tr₄, rfl, h₅⟩
  · refine .inl ⟨e, rfl, .inl (hb.mono fun a ha => ?_)⟩
    exact List.mem_cons_of_mem _ (List.mem_cons_of_mem _ (List.mem_append_right _ ha))
  · cases h₅
    refine .inr ⟨_, rfl, rfl, ?_, ?_⟩
    · show _ :: got (diskTrace fin ++ _) = _
      rw [got_append, got_diskTrace]
      rfl
    · rintro _ ⟨⟩
      exact ⟨hkind, hstore, hlisted, ct, by simp [ackFor]⟩

/-- `recv_into` from the opened store on, as long as the frames are the sender's payload. -/
theorem excused_of_receivePayload {outDir : String} {rest : List Bytes} {e : Anyhow} (hs : StoreOf m store)
    (hkind : m.kind ≠ .text) (hchunk : m.chunkSize = STREAM_FRAME_SIZE)
    (h : Follows (receivePayload X sk outDir m store) tr (.fail e))
    (hpay : Payload X sk m ((List.range m.totalChunks).filter fun i => decide (i ∉ store.haves)) rest)
    (hgot : got tr <+: rest) : BrokenOff tr e ∨ Excused e := by
  rw [receivePayload] at h
  refine fails_recvChunks hs hchunk (fun i hi => List.mem_range.mp hi) h hpay hgot .inl
    (fun hdisk => .inr (.disk hdisk)) fun store' tr₁ rest₁ hsub hs' hpay₁ hgot₁ h₁ => ?_
  rcases follows_recv h₁ with ⟨-, hq⟩ | ⟨e', rfl, hq⟩ | ⟨ct, tr₂, rfl, h₂⟩
  · cases hq
  · cases hq
    exact .inl (.inl (hsub List.mem_cons_self))
  -- the frame is the sender's commit
  have hgot₂ : ct :: got tr₂ <+: rest₁ := hgot₁
  cases hpay₁ with
  | nil => exact absurd (List.prefix_nil.mp hgot₂) (List.cons_ne_nil _ _)
  | commit hash =>
      obtain ⟨rfl, -⟩ := List.cons_prefix_cons.mp hgot₂
      rw [openVal_seal_] at h₂
      rcases follows_ofExcept h₂ with ⟨e', he, -, -⟩ | ⟨commit, -, h₃⟩
      · cases he
      rcases follows_onDisk h₃ trivial
        with ⟨e', fin, -, hfin, -⟩ | ⟨result, fin, tr₃, rfl, hfin, h₄⟩
      · exact (FailsWith.of_follows (FailsWith.attempt (fun _ => False) _) hfin).elim
      -- an integrity check that fails, or the disk
      have hresult : ∀ e', result = .error e' → Excused e' :=
        ((FailsWith.given_attempt (A := fun _ _ => True) (failsWith_finalize hkind _ _ _)).follows hfin
          fun _ _ => trivial).2
      rcases follows_loc h₄ with ⟨-, hq⟩ | ⟨ct', tr₄, rfl, h₅⟩
      · cases hq
      rcases follows_send h₅ with ⟨-, hq⟩ | ⟨e', rfl, hq⟩ | ⟨tr₅, rfl, h₆⟩
      · cases hq
      · cases hq
        refine .inl (.inr ⟨ct', hsub ?_⟩)
        exact List.mem_cons_of_mem _ (List.mem_append_right _ (List.mem_cons_of_mem _ List.mem_cons_self))
      · cases result with
        | ok desc => cases h₆
        | error e' =>
            cases h₆
            exact .inr (hresult _ rfl)

/-- The reply a sender took is the one the receiver made for its store. -/
theorem eq_ackFor {rtr : List StreamAction} {outDir : String} {q : StreamProg String} {ct : Bytes}
    {ack : StreamManifestAck} (hr : Follows (recvInto X sk outDir) rtr q)
    (hmade : Sealed .streamToSender 0 (X.streamAckJson.toVec (ackFor store)) rtr)
    (hreply : ∀ pt, X.cipher.open_ sk .streamToSender 0 [] ct = some pt → Sealed .streamToSender 0 pt rtr)
    (hack : openVal X sk X.streamAckJson .streamToSender 0 ct = .ok ack) : ack = ackFor store := by
  obtain ⟨pt, hpt, hv⟩ := open_of_openVal hack
  obtain ⟨ct', hmade⟩ := hmade
  obtain ⟨ct'', hmem⟩ := hreply pt hpt
  -- both were sealed under nonce 0, and it seals only once
  have hbelow := (hr.safe (keepsBelow_recvInto X sk outDir)).here
  rw [hbelow.unique hmade hmem, Codec.fromSlice_toVec, Option.some.injEq] at hv
  exact hv.symm

/-- **A session in order**: a receiver that has only taken the sender's own frames, one after the other, and
nothing in between fails with the channel, or at its own end. -/
theorem excused_of_inOrder {rtr str : List StreamAction} {outDir : String} {e : Anyhow}
    {q : StreamProg String} (hr : Follows (recvInto X sk outDir) rtr (.fail e))
    (hs : Follows (sendSource X sk source) str q) (hrlaw : ∀ a ∈ rtr, Hosts X sk a)
    (hslaw : ∀ a ∈ str, Hosts X sk a)
    (hreply : ∀ ct pt, Took ct str → X.cipher.open_ sk .streamToSender 0 [] ct = some pt →
      Sealed .streamToSender 0 pt rtr)
    (hgot : got rtr <+: sent str) : BrokenOff rtr e ∨ Excused e := by
  have hframes := frames_sendSource hs hslaw
  have hfirst : ∀ tr tr', rtr = tr ++ tr' → ∀ f rest, got tr = f :: rest →
      f = manifestFrame X sk (streamManifest source) := by
    rintro tr tr' rfl f rest heq
    rw [got_append, heq, List.cons_append] at hgot
    obtain ⟨fs, hfs⟩ := hgot
    exact hframes.offer f _ hfs.symm
  -- it failed in the negotiation, or after it
  rcases follows_bind_fail hr with hneg | ⟨p, tr₁, tr₂, rfl, hneg, hrest⟩
  · have hout := negotiated_or_fails hneg trivial hrlaw (hfirst rtr [] (List.append_nil rtr).symm)
    rcases hout with ⟨e', he, hout⟩ | ⟨p, hp, -⟩
    · cases he
      exact hout
    · cases hp
  have hout := negotiated_or_fails hneg trivial
    (fun a ha => hrlaw a (List.mem_append_left _ ha)) (hfirst tr₁ tr₂ rfl)
  rcases hout with ⟨e', he, -⟩ | ⟨p', hp, hnegotiated⟩
  · cases he
  cases hp
  obtain ⟨m, store?⟩ := p
  obtain rfl : m = streamManifest source := hnegotiated.manifest
  cases store? with
  | none => cases hrest -- a text is complete with the negotiation
  | some store =>
      obtain ⟨hkind, hstore, hlisted, hmade⟩ := hnegotiated.store store rfl
      rw [got_append, hnegotiated.first] at hgot
      obtain ⟨fs, hfs⟩ := hgot
      obtain ⟨rest, hrest'⟩ : ∃ rest, sent str = manifestFrame X sk (streamManifest source) :: rest :=
        ⟨_, hfs.symm⟩
      have hgot₂ : got tr₂ <+: rest := by
        rw [hrest'] at hfs
        exact ⟨fs, (List.cons.inj hfs).2⟩
      have hpay : Payload X sk (streamManifest source) ((List.range (streamManifest source).totalChunks).filter
          fun i => decide (i ∉ store.haves)) rest := by
        cases rest with
        | nil => exact .nil
        | cons f rest =>
            obtain ⟨ct, ack, htook, hack, hpay⟩ := hframes.payload _ f rest hrest'
            have hmade' := hmade.mono (List.subset_append_left tr₁ tr₂)
            -- both sides skip the same chunks
            have heq := eq_ackFor hr hmade' (fun pt => hreply ct pt htook) hack
            rwa [filter_skips heq hstore hlisted] at hpay
      rcases excused_of_receivePayload hstore hkind (Session.chunkSize_streamManifest source) hrest hpay hgot₂
        with hb | hx
      · exact .inl (hb.mono (List.subset_append_right _ _))
      · exact .inr hx

end

end Stream
end B2p
