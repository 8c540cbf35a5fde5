import B2p.Stream.Session
import B2p.Stream.Nonces

/-!
# A stream session against a hostile carrier

Whoever carries the messages may lose, reorder, repeat and invent them, but cannot make a frame that
opens under the stream key: what opens was sealed, for that very domain and index, by one of the two
parties. The disks and the source file may answer anything too.

* `Hostile` — the carrier.
* `SenderActs`, `ReceiverActs` — what each program does, judged by what it did before.
* `sealed_of_took` — what a party opens, the other one sealed.
* `integrity` — only chunks of the sender are staged, and the sender's success is the receiver's.
-/

namespace B2p

open Interaction Prog

namespace Stream

/-! ## Programs judged by their own past -/

/-- A message was taken from the channel. -/
def Took (ct : Bytes) (tr : List StreamAction) : Prop := (⟨.recv, .ok ct⟩ : StreamAction) ∈ tr

section Keeps

variable {P : List StreamAction → StreamAction → Prop} {α β : Type} {Q : α → List StreamAction → Prop}
  {tr : List StreamAction}

variable (P Q) in
/-- Every action is one that `P` allows after those before it, and `Q` holds of what is returned. -/
abbrev Keeps (p : StreamProg α) (tr : List StreamAction) : Prop :=
  Safe traced (Admits P []) (fun r tr => ∀ a, r = .ok a → Q a tr) p tr

theorem keeps_ret {a : α} (h : Admits P [] tr) (hQ : Q a tr) : Keeps P Q (.ret a) tr := by
  refine ⟨h, ?_⟩
  intro b hb
  cases hb
  exact hQ

theorem keeps_fail {e : Anyhow} (h : Admits P [] tr) : Keeps P Q (.fail e) tr := ⟨h, nofun⟩

/-- One operation, then the rest, which may look back at it. -/
theorem keeps_step {o : streamEffects.Op} {k : streamEffects.Res o → StreamProg α}
    (h : Admits P [] tr) (ho : ∀ r, P tr ⟨o, r⟩)
    (hk : ∀ r tr', Admits P [] tr' → tr ⊆ tr' → ⟨o, r⟩ ∈ tr' → Keeps P Q (k r) tr') :
    Keeps P Q (.step o k) tr := by
  refine ⟨h, ?_⟩
  rintro r _ rfl
  apply hk
  · exact admits_append.mpr ⟨h, by simpa using ho r, trivial⟩
  · exact List.subset_append_left _ _
  · exact List.mem_append_right _ List.mem_cons_self

theorem keeps_loc {o : HostOp} {f : o.Res → StreamProg α} (h : Admits P [] tr)
    (ho : ∀ r, P tr ⟨.loc o, r⟩)
    (hf : ∀ r tr', Admits P [] tr' → tr ⊆ tr' → ⟨.loc o, r⟩ ∈ tr' → Keeps P Q (f r) tr') :
    Keeps P Q (loc o >>= f) tr := keeps_step h ho hf

/-- A `?`, then the rest. -/
theorem keeps_ofExcept {x : Except Anyhow β} {f : β → StreamProg α} (h : Admits P [] tr)
    (hf : ∀ b, x = .ok b → Keeps P Q (f b) tr) : Keeps P Q (ofExcept x >>= f) tr := by
  cases x with
  | error e => exact keeps_fail h
  | ok b => exact hf b rfl

/-- Sending, then the rest. -/
theorem keeps_send {msg : Bytes} {f : Unit → StreamProg α} (h : Admits P [] tr)
    (ho : ∀ r, P tr ⟨.send msg, r⟩)
    (hf : ∀ tr', Admits P [] tr' → tr ⊆ tr' → Keeps P Q (f ()) tr') :
    Keeps P Q (send msg >>= f) tr := by
  apply keeps_step h ho
  intro r tr' h' hsub _
  exact keeps_ofExcept h' fun _ _ => hf tr' h' hsub

/-- Receiving, then the rest. -/
theorem keeps_recv {f : Bytes → StreamProg α} (h : Admits P [] tr) (ho : ∀ r, P tr ⟨.recv, r⟩)
    (hf : ∀ ct tr', Admits P [] tr' → tr ⊆ tr' → Took ct tr' → Keeps P Q (f ct) tr') :
    Keeps P Q (recv >>= f) tr := by
  apply keeps_step h ho
  intro r tr' h' hsub htook
  apply keeps_ofExcept h'
  rintro ct rfl
  exact hf ct tr' h' hsub htook

/-- A program that only touches the disk, then the rest. -/
theorem keeps_onDisk {p : FsProg β} {f : β → StreamProg α} (h : Admits P [] tr)
    (hp : Only (fun o => ∀ fin r, P (tr ++ diskTrace fin) ⟨.loc (.fs o), r⟩) p)
    (hf : ∀ b fin, Follows p fin (.ret b) → Admits P [] (tr ++ diskTrace fin) →
      Keeps P Q (f b) (tr ++ diskTrace fin)) : Keeps P Q (onDisk p >>= f) tr := by
  induction p generalizing tr with
  | ret b =>
      have hnil : tr ++ diskTrace [] = tr := List.append_nil tr
      have hb := hf b [] (.nil _)
      rw [hnil] at hb
      exact hb h
  | fail e => exact keeps_fail h
  | step o k ih =>
      -- an action moved from the rest of the disk trace to the stream
      have hcons : ∀ (r : o.Res) fin, tr ++ diskTrace (⟨o, r⟩ :: fin)
          = (tr ++ [⟨.loc (.fs o), r⟩]) ++ diskTrace fin := by
        intro r fin
        rw [List.append_assoc]
        rfl
      have ho : ∀ r, P tr ⟨.loc (.fs o), r⟩ := fun r => by simpa [diskTrace] using hp.1 [] r
      refine ⟨h, ?_⟩
      rintro r _ rfl
      refine ih r (admits_append.mpr ⟨h, by simpa using ho r, trivial⟩) ?_ ?_
      · apply (hp.2 r).mono
        intro o' ho' fin r'
        rw [← hcons]
        exact ho' _ r'
      · intro b fin hfollows hadm
        rw [← hcons] at hadm ⊢
        exact hf b _ (.cons hfollows) hadm

end Keeps

/-! ## The carrier -/

section

variable (X : Externals) (sk : Key)

/-- **The hostile carrier.** Any message may arrive, at either side and at any time, that opens at no
nonce but those it was sealed under by one of the two parties; sending may succeed or fail, and so may
all that the parties do on their own hosts. -/
def Hostile (log : List (Side × StreamAction)) : Side × StreamAction → Prop
  | (_, ⟨.loc (.seal_ d i pt), ct⟩) => ct = X.cipher.seal_ sk d i [] pt
  | (_, ⟨.recv, .ok ct⟩) => ∀ d i pt, i < 2 ^ 64 → X.cipher.open_ sk d i [] ct = some pt →
      ∃ p pt', (p, ⟨.loc (.seal_ d i pt'), ct⟩) ∈ log
  | _ => True

/-! ## The sender -/

/-- What the sender does: it seals for the receiver only, the manifest first and the hash of what it
read last. -/
def SenderActs (m : Manifest) (past : List StreamAction) : StreamAction → Prop
  | ⟨.loc (.seal_ d i pt), _⟩ => d = .streamToReceiver ∧ (i = 0 → pt = X.manifestJson.toVec m) ∧
      (i = 1 + m.totalChunks → ∃ content, (⟨.loc .readAll, .ok content⟩ : StreamAction) ∈ past ∧
        pt = X.commitJson.toVec ⟨X.blake3 content⟩)
  | _ => True

/-- What the sender has heard when it succeeds. -/
structure Heard (m : Manifest) (tr : List StreamAction) : Prop where
  accepted : ∃ ct ack, Took ct tr ∧ openVal X sk X.streamAckJson .streamToSender 0 ct = .ok ack ∧
    ack.accepted = true
  finalized : m.kind ≠ .text → ∃ ct cack, Took ct tr ∧
    openVal X sk X.commitAckJson .streamToSender 1 ct = .ok cack ∧ cack.ok = true

variable {α : Type} {Q : α → List StreamAction → Prop} {tr : List StreamAction} {m : Manifest}

theorem keeps_sendChunks (ack : StreamManifestAck) (totalSize : Nat) {f : Unit → StreamProg α}
    (todo : List Nat) (htodo : ∀ i ∈ todo, i < m.totalChunks) (h : Admits (SenderActs X m) [] tr)
    (hf : ∀ tr', Admits (SenderActs X m) [] tr' → tr ⊆ tr' → Keeps (SenderActs X m) Q (f ()) tr') :
    Keeps (SenderActs X m) Q (sendChunks ack totalSize todo >>= f) tr := by
  induction todo generalizing tr with
  | nil => exact hf tr h (List.Subset.refl _)
  | cons i rest ih =>
      have hi := htodo i List.mem_cons_self
      have hrest : ∀ j ∈ rest, j < m.totalChunks := fun j hj => htodo j (List.mem_cons_of_mem _ hj)
      unfold sendChunks
      split
      · exact ih hrest h hf
      simp only [readChunk, seal_, bind_assoc]
      refine keeps_loc h (fun _ => trivial) fun r tr₁ h₁ hs₁ _ => ?_
      refine keeps_ofExcept h₁ fun plain _ => ?_
      refine keeps_loc h₁ (fun _ => ⟨rfl, by omega, by omega⟩) fun ct tr₂ h₂ hs₂ _ => ?_
      refine keeps_send h₂ (fun _ => trivial) fun tr₃ h₃ hs₃ => ?_
      apply ih hrest h₃
      intro tr' h' hs'
      exact hf tr' h' fun a ha => hs' (hs₃ (hs₂ (hs₁ ha)))

theorem withContext_eq_ok {β : Type} {text : String} {x : Except Anyhow β} {b : β} :
    withContext text x = .ok b ↔ x = .ok b := by
  cases x <;> simp [withContext, Except.mapError]

theorem mapError_eq_ok {β ε ε' : Type} {g : ε → ε'} {x : Except ε β} {b : β} :
    x.mapError g = .ok b ↔ x = .ok b := by
  cases x <;> simp [Except.mapError]

/-- **The sender**: what it seals, and what it has heard when it succeeds. -/
theorem keeps_sendSource (source : Source) : Keeps (SenderActs X (streamManifest source))
    (fun _ tr => Heard X sk (streamManifest source) tr) (sendSource X sk source) [] := by
  simp only [sendSource, offer, seal_, bind_assoc]
  refine keeps_loc trivial (fun _ => ⟨rfl, fun _ => rfl, by omega⟩) fun _ tr₁ h₁ _ _ => ?_
  refine keeps_send h₁ (fun _ => trivial) fun tr₂ h₂ _ => ?_
  refine keeps_recv h₂ (fun _ => trivial) fun ct tr₃ h₃ _ htook => ?_
  refine keeps_ofExcept h₃ fun ack hack => ?_
  rw [withContext_eq_ok] at hack
  split
  · exact keeps_fail h₃
  next haccepted =>
  have hyes : ack.accepted = true := by simpa using haccepted
  split
  -- text ends here: the ack is all it heard
  · next hkind =>
      apply keeps_ret h₃
      exact ⟨⟨ct, ack, htook, hack, hyes⟩, fun hne => absurd hkind hne⟩
  -- then the chunks, and the commit under the last index
  simp only [sendPayload, blake3File, seal_, bind_assoc, awaitCommit]
  apply keeps_sendChunks X ack _ _ (fun i hi => List.mem_range.mp hi) h₃
  intro tr₄ h₄ hs₄
  refine keeps_loc h₄ (fun _ => trivial) fun r tr₅ h₅ hs₅ hread => ?_
  refine keeps_ofExcept h₅ fun content hcontent => ?_
  rw [mapError_eq_ok] at hcontent
  subst hcontent
  refine keeps_loc h₅ (fun _ => ⟨rfl, by omega, fun _ => ⟨content, hread, rfl⟩⟩)
    fun _ tr₆ h₆ hs₆ _ => ?_
  refine keeps_send h₆ (fun _ => trivial) fun tr₇ h₇ hs₇ => ?_
  refine keeps_recv h₇ (fun _ => trivial) fun ct' tr₈ h₈ hs₈ htook' => ?_
  refine keeps_ofExcept h₈ fun cack hcack => ?_
  split
  · next hok =>
      have hsub : tr₃ ⊆ tr₈ := fun a ha => hs₈ (hs₇ (hs₆ (hs₅ (hs₄ ha))))
      apply keeps_ret h₈
      exact ⟨⟨ct, ack, hsub htook, hack, hyes⟩, fun _ => ⟨ct', cack, htook', hcack, hok⟩⟩
  · exact keeps_fail h₈

/-! ## The receiver -/

/-- The receiver took the manifest `m` and said yes to it. -/
def Accepted (m : Manifest) (tr : List StreamAction) : Prop :=
  ∃ ct, Took ct tr ∧ openVal X sk X.manifestJson .streamToReceiver 0 ct = .ok m ∧
    (⟨.loc (.accept m), true⟩ : StreamAction) ∈ tr

/-- A store that was opened for `m`. -/
structure StoreFor (m : Manifest) (store : Store) : Prop where
  dir : store.dir = stagingDir (safeName m.name)
  chunkSize : store.state.chunkSize = STREAM_FRAME_SIZE

/-- The receiver's `finalize` has just returned `desc`, for the commit it took. -/
def Finalized (outDir : String) (m : Manifest) (commit : Commit) (desc : String)
    (tr : List StreamAction) : Prop :=
  ∃ store before fin, tr = before ++ diskTrace fin ∧ StoreFor m store ∧
    (∃ ct, Took ct tr ∧
      openVal X sk X.commitJson .streamToReceiver (1 + m.totalChunks) ct = .ok commit) ∧
    Follows (finalize X store m commit outDir (safeName m.name)) fin (.ret desc)

/-- What the receiver does: it seals for the sender only, says yes only to a manifest it accepted, and
reports success only after its `finalize`; it writes what it opened, where it belongs. -/
def ReceiverActs (outDir : String) (past : List StreamAction) : StreamAction → Prop
  | ⟨.loc (.seal_ d i pt), _⟩ => d = .streamToSender ∧
      (i = 0 → ∃ ack, pt = X.streamAckJson.toVec ack ∧
        (ack.accepted = true → ∃ m, Accepted X sk m past)) ∧
      (i = 1 → ∃ res, pt = X.commitAckJson.toVec (commitAck res) ∧
        ∀ desc, res = .ok desc → ∃ m commit, Accepted X sk m past ∧
          Finalized X sk outDir m commit desc past)
  | ⟨.loc (.fs (.writeAt _ off bytes)), _⟩ => ∃ m i ct, Accepted X sk m past ∧ i < m.totalChunks ∧
      off = i * STREAM_FRAME_SIZE ∧ Took ct past ∧
      X.cipher.open_ sk .streamToReceiver (1 + i) [] ct = some bytes
  | _ => True

variable {X sk} {outDir : String} {store : Store}

theorem Accepted.mono {tr' : List StreamAction} (h : Accepted X sk m tr) (hs : tr ⊆ tr') :
    Accepted X sk m tr' := by
  obtain ⟨ct, htook, hopen, hyes⟩ := h
  exact ⟨ct, hs htook, hopen, hs hyes⟩

/-- What does not write into an open file is nothing the receiver has to answer for. -/
theorem receiverActs_of_noWrite {o : FsOp} (ho : NoWrite o) (past : List StreamAction)
    (r : o.Res) : ReceiverActs X sk outDir past ⟨.loc (.fs o), r⟩ := by
  cases o with
  | writeAt file off bytes => exact ho.elim
  | _ => trivial

/-- `open_or_create` opens a store for what it was asked for. -/
theorem storeFor_openOrCreate (hm : m.chunkSize = STREAM_FRAME_SIZE) {fin : List (Action fsEffects)}
    (h : Follows (Store.openOrCreate X (safeName m.name) m.transferId m.totalSize m.chunkSize) fin
      (.ret store)) : StoreFor m store := by
  have hload : ∀ bytes, (Store.loadState X bytes m.transferId m.totalSize m.chunkSize).chunkSize
      = STREAM_FRAME_SIZE := by
    intro bytes
    unfold Store.loadState
    repeat' split
    all_goals first | exact hm | simp_all
  have hgiven : Given (fun _ _ => True) (fun _ => True) (StoreFor m)
      (Store.openOrCreate X (safeName m.name) m.transferId m.totalSize m.chunkSize) := by
    refine .op trivial fun _ _ => .ofExcept fun _ _ => .op trivial fun bytes _ => .op trivial
      fun _ _ => .ofExcept fun _ _ => .op trivial fun _ _ => .ofExcept fun _ _ => ?_
    apply (given_true _).bind
    intro _ _
    exact ⟨rfl, hload bytes⟩
  exact (hgiven.follows h fun _ _ => trivial).2

/-- A chunk written leaves the store one for the same transfer. -/
theorem storeFor_writeChunk (h : StoreFor m store) {i : Nat} {plain : Bytes}
    {fin : List (Action fsEffects)} {res : Except Anyhow Unit × Store}
    (hf : Follows (store.writeChunk X i plain) fin (.ret res)) : StoreFor m res.2 := by
  have hgiven : Given (fun _ _ => True) (fun _ => True)
      (fun res : Except Anyhow Unit × Store => StoreFor m res.2) (store.writeChunk X i plain) := by
    unfold Store.writeChunk
    split
    · exact h
    split
    · exact h
    refine .op trivial fun r _ => ?_
    cases r with
    | error e => exact h
    | ok u =>
        apply (given_true _).bind
        intro _ _
        exact ⟨h.dir, h.chunkSize⟩
  exact (hgiven.follows hf fun _ _ => trivial).2

variable (X) in
/-- The one write of `write_chunk`. -/
theorem only_writeChunk {P : FsOp → Prop} {i : Nat} {plain : Bytes}
    (hother : ∀ o, NoWrite o → P o)
    (hwrite : ∀ file, P (.writeAt file (i * store.state.chunkSize) plain)) :
    Only P (store.writeChunk X i plain) := by
  unfold Store.writeChunk
  split
  · trivial
  split
  · trivial
  apply Only.op (hwrite _)
  intro r
  cases r with
  | error e => trivial
  | ok u => exact .bind ((only_persistState _).mono hother).attempt fun _ => trivial

/-- The reply to the manifest, then the rest. -/
theorem keeps_replyAck {f : Unit → StreamProg α} {ack : StreamManifestAck}
    (h : Admits (ReceiverActs X sk outDir) [] tr)
    (hack : ack.accepted = true → ∃ m, Accepted X sk m tr)
    (hf : ∀ tr', Admits (ReceiverActs X sk outDir) [] tr' → tr ⊆ tr' →
      Keeps (ReceiverActs X sk outDir) Q (f ()) tr') :
    Keeps (ReceiverActs X sk outDir) Q (replyAck X ack >>= f) tr := by
  simp only [replyAck, seal_, bind_assoc]
  refine keeps_loc h (fun _ => ⟨rfl, fun _ => ⟨ack, rfl, hack⟩, by omega⟩) fun ct tr₁ h₁ hs₁ _ => ?_
  refine keeps_send h₁ (fun _ => trivial) fun tr₂ h₂ hs₂ => ?_
  exact hf tr₂ h₂ fun a ha => hs₂ (hs₁ ha)

theorem keeps_refuse {e : Anyhow} (h : Admits (ReceiverActs X sk outDir) [] tr) :
    Keeps (ReceiverActs X sk outDir) Q (refuse X e : StreamProg α) tr :=
  keeps_replyAck h (fun h => by cases h) fun _ h' _ => keeps_fail h'

variable (X sk outDir) in
/-- **Negotiation** ends with a manifest that was accepted, and a store for it. -/
theorem keeps_negotiate : Keeps (ReceiverActs X sk outDir) (fun p tr => Accepted X sk p.1 tr ∧
    ∀ store, p.2 = some store → StoreFor p.1 store) (negotiate X sk) [] := by
  refine keeps_recv trivial (fun _ => trivial) fun ct tr₁ h₁ _ htook => ?_
  refine keeps_ofExcept h₁ fun m hm => ?_
  rw [withContext_eq_ok] at hm
  split
  · exact keeps_refuse h₁
  split
  · exact keeps_refuse h₁
  next hsize =>
  refine keeps_loc h₁ (fun _ => trivial) fun accepted tr₂ h₂ hs₂ hanswer => ?_
  split
  · exact keeps_refuse h₂
  next hyes =>
  have hacc : Accepted X sk m tr₂ := by
    rw [Bool.not_eq_false] at hyes
    exact ⟨ct, hs₂ htook, hm, hyes ▸ hanswer⟩
  split
  · refine keeps_replyAck h₂ (fun _ => ⟨m, hacc⟩) fun tr₃ h₃ hs₃ => ?_
    exact keeps_ret h₃ ⟨hacc.mono hs₃, nofun⟩
  next hkind =>
  have hchunk : m.chunkSize = STREAM_FRAME_SIZE := by
    by_contra hne
    exact hsize ⟨hkind, hne⟩
  apply keeps_onDisk h₂
  · apply (only_openOrCreate _ _ _ _).mono
    exact fun o ho fin r => receiverActs_of_noWrite ho _ r
  intro store fin hfollows h₃
  have hacc₃ := hacc.mono (List.subset_append_left tr₂ (diskTrace fin))
  refine keeps_replyAck h₃ (fun _ => ⟨m, hacc₃⟩) fun tr₄ h₄ hs₄ => ?_
  apply keeps_ret h₄
  refine ⟨hacc₃.mono hs₄, ?_⟩
  intro store' hstore
  cases hstore
  exact storeFor_openOrCreate hchunk hfollows

/-- **The payload loop** writes what it opened at the nonce of the chunk. -/
theorem keeps_recvChunks (haves : List Nat) (todo : List Nat) (htodo : ∀ i ∈ todo, i < m.totalChunks)
    {f : Store → StreamProg α} (h : Admits (ReceiverActs X sk outDir) [] tr)
    (hacc : Accepted X sk m tr) (hstore : StoreFor m store)
    (hf : ∀ store tr', Admits (ReceiverActs X sk outDir) [] tr' → tr ⊆ tr' → StoreFor m store →
      Keeps (ReceiverActs X sk outDir) Q (f store) tr') :
    Keeps (ReceiverActs X sk outDir) Q (recvChunks X sk haves store todo >>= f) tr := by
  induction todo generalizing store tr with
  | nil => exact hf store tr h (List.Subset.refl _) hstore
  | cons i rest ih =>
      have hrest : ∀ j ∈ rest, j < m.totalChunks := fun j hj => htodo j (List.mem_cons_of_mem _ hj)
      unfold recvChunks
      split
      · exact ih hrest h hacc hstore hf
      rw [bind_assoc]
      refine keeps_recv h (fun _ => trivial) fun ct tr₁ h₁ hs₁ htook => ?_
      split
      · exact keeps_fail h₁
      next plain hplain =>
      rw [bind_assoc]
      apply keeps_onDisk h₁
      · apply only_writeChunk X
        · exact fun o ho fin r => receiverActs_of_noWrite ho _ r
        -- the write is of a chunk of the accepted manifest, as opened
        · intro file fin r
          have hsub := List.subset_append_left tr₁ (diskTrace fin)
          refine ⟨m, i, ct, (hacc.mono hs₁).mono hsub, htodo i List.mem_cons_self, ?_, hsub htook, hplain⟩
          rw [hstore.chunkSize]
      intro res fin hfollows h₂
      have hs₂ := List.subset_append_left tr₁ (diskTrace fin)
      rw [bind_assoc]
      refine keeps_ofExcept h₂ fun _ _ => ?_
      apply ih hrest h₂ ((hacc.mono hs₁).mono hs₂) (storeFor_writeChunk hstore hfollows)
      intro store' tr' h' hs'
      exact hf store' tr' h' fun a ha => hs' (hs₂ (hs₁ ha))

variable (X sk outDir) in
/-- **The receiver**: what it seals and what it writes. -/
theorem keeps_recvInto :
    Keeps (ReceiverActs X sk outDir) (fun _ _ => True) (recvInto X sk outDir) [] := by
  apply Safe.bind
  refine (keeps_negotiate X sk outDir).mono fun r tr h hr => ?_
  cases r with
  | error e => nofun
  | ok p =>
      obtain ⟨m, store?⟩ := p
      obtain ⟨hacc, hstore⟩ := hr _ rfl
      cases store? with
      | none => exact keeps_ret h trivial
      | some store =>
          apply keeps_recvChunks _ _ (fun i hi => List.mem_range.mp hi) h hacc (hstore store rfl)
          intro store' tr₁ h₁ hs₁ hstore'
          refine keeps_recv h₁ (fun _ => trivial) fun ct tr₂ h₂ hs₂ htook => ?_
          refine keeps_ofExcept h₂ fun commit hcommit => ?_
          apply keeps_onDisk h₂
          · apply ((only_finalize _ _ _).attempt).mono
            exact fun o ho fin r => receiverActs_of_noWrite ho _ r
          intro res fin hfollows h₃
          have hs₃ := List.subset_append_left tr₂ (diskTrace fin)
          -- what the ack says is what `finalize` returned
          refine keeps_loc h₃ (fun _ => ⟨rfl, by omega, fun _ => ⟨res, rfl, ?_⟩⟩) fun ack tr₄ h₄ _ _ => ?_
          · rintro desc rfl
            refine ⟨m, commit, ((hacc.mono hs₁).mono hs₂).mono hs₃, store', tr₂, fin, rfl, hstore',
              ⟨ct, hs₃ htook, hcommit⟩, ?_⟩
            exact hfollows.attempt_inv
          refine keeps_send h₄ (fun _ => trivial) fun tr₅ h₅ _ => ?_
          cases res with
          | error e => exact keeps_fail h₅
          | ok desc => exact keeps_ret h₅ trivial

/-- A commit that was finalized is the hash of what was staged. -/
theorem read_of_finalize {commit : Commit} {fin : List (Action fsEffects)} {desc : String}
    (h : Follows (finalize X store m commit outDir (safeName m.name)) fin (.ret desc)) :
    ∃ data, (⟨.read store.dataPath, .ok data⟩ : Action fsEffects) ∈ fin ∧
      X.blake3 data = commit.blake3Hex := by
  unfold finalize at h
  split at h
  · cases h
  rw [Store.fileHash, bind_assoc] at h
  cases h with
  | @cons _ _ r tr _ h =>
      cases r with
      | error e => cases h
      | ok data =>
          replace h : Follows (if X.blake3 data ≠ commit.blake3Hex then _ else _) tr (.ret desc) := h
          split at h
          · cases h
          · next hhash => exact ⟨data, List.mem_cons_self, not_not.mp hhash⟩

end

/-! ## The session -/

section session

variable {X : Externals} {sk : Key} {source : Source} {outDir : String}
  {log : List (Side × StreamAction)} {qs : (p : Side) → StreamProg String}
  (hrun : Run (β := fun _ => String) (party X sk source outDir) (Hostile X sk) log qs)

/-- An index is sealed with one plaintext only. -/
theorem Below.unique {d : Domain} {n i : Nat} {tr : List StreamAction} (h : Below d n tr)
    {pt pt' ct ct' : Bytes} (hmem : (⟨.loc (.seal_ d i pt), ct⟩ : StreamAction) ∈ tr)
    (hmem' : (⟨.loc (.seal_ d i pt'), ct'⟩ : StreamAction) ∈ tr) : pt' = pt := by
  have hlt := List.pairwise_filterMap.mp h.increasing
  obtain ⟨before, later, rfl⟩ := List.append_of_mem hmem
  rw [List.pairwise_append, List.pairwise_cons] at hlt
  obtain ⟨-, ⟨hlater, -⟩, hbefore⟩ := hlt
  rcases List.mem_append.mp hmem' with hin | hin
  · exact absurd (hbefore _ hin _ List.mem_cons_self _ rfl _ rfl) (Nat.lt_irrefl i)
  rcases List.mem_cons.mp hin with heq | hin
  · cases heq
    rfl
  · exact absurd (hlater _ hin _ rfl _ rfl) (Nat.lt_irrefl i)

include hrun

/-- An action of the sender, after its own past. -/
theorem senderActs_of_mem {a : StreamAction} (ha : (Side.left, a) ∈ log) :
    ∃ past, past ⊆ own .left log ∧ SenderActs X (streamManifest source) past a := by
  have hkeeps := (hrun.safe .left (keeps_sendSource X sk source)).here
  obtain ⟨before, later, heq⟩ := List.append_of_mem (mem_own.mpr ha)
  rw [heq] at hkeeps ⊢
  exact ⟨before, List.subset_append_left _ _, hkeeps.at⟩

/-- An action of the receiver, after its own past. -/
theorem receiverActs_of_mem {a : StreamAction} (ha : (Side.right, a) ∈ log) :
    ∃ past later, own .right log = past ++ later ∧ ReceiverActs X sk outDir past a := by
  have hkeeps := (hrun.safe .right (keeps_recvInto X sk outDir)).here
  obtain ⟨before, later, heq⟩ := List.append_of_mem (mem_own.mpr ha)
  rw [heq] at hkeeps ⊢
  exact ⟨before, _, rfl, hkeeps.at⟩

/-- What opens was sealed, with that plaintext. -/
theorem exists_sealed {p : Side} {ct pt : Bytes} {d : Domain} {i : Nat} (hi : i < 2 ^ 64)
    (htook : Took ct (own p log)) (hopen : X.cipher.open_ sk d i [] ct = some pt) :
    ∃ p', (p', ⟨.loc (.seal_ d i pt), ct⟩) ∈ log := by
  obtain ⟨before, later, heq, hallowed⟩ := hrun.allowed_of_mem (mem_own.mp htook)
  obtain ⟨p', pt', hsealed⟩ := hallowed d i pt hi hopen
  replace hsealed : (p', (⟨.loc (.seal_ d i pt'), ct⟩ : StreamAction)) ∈ log := by
    rw [heq]
    exact List.mem_append_left _ hsealed
  obtain ⟨_, _, -, hct⟩ := hrun.allowed_of_mem hsealed
  have hpt : X.cipher.open_ sk d i [] ct = some pt' := by
    rw [show ct = X.cipher.seal_ sk d i [] pt' from hct, Cipher.open_seal_]
  rw [hopen, Option.some.injEq] at hpt
  subst hpt
  exact ⟨p', hsealed⟩

/-- What is opened in the receiver's domain was sealed by the sender … -/
theorem sealed_of_took_left {p : Side} {ct pt : Bytes} {i : Nat} (hi : i < 2 ^ 64)
    (htook : Took ct (own p log)) (hopen : X.cipher.open_ sk .streamToReceiver i [] ct = some pt) :
    (Side.left, ⟨.loc (.seal_ .streamToReceiver i pt), ct⟩) ∈ log := by
  obtain ⟨p', hmem⟩ := exists_sealed hrun hi htook hopen
  cases p' with
  | left => exact hmem
  | right =>
      obtain ⟨_, _, -, hacts⟩ := receiverActs_of_mem hrun hmem
      cases hacts.1

/-- … and what is opened in the sender's domain by the receiver. -/
theorem sealed_of_took_right {p : Side} {ct pt : Bytes} {i : Nat} (hi : i < 2 ^ 64)
    (htook : Took ct (own p log)) (hopen : X.cipher.open_ sk .streamToSender i [] ct = some pt) :
    (Side.right, ⟨.loc (.seal_ .streamToSender i pt), ct⟩) ∈ log := by
  obtain ⟨p', hmem⟩ := exists_sealed hrun hi htook hopen
  cases p' with
  | right => exact hmem
  | left =>
      obtain ⟨_, -, hacts⟩ := senderActs_of_mem hrun hmem
      cases hacts.1

omit hrun in
theorem open_of_openVal {T : Type} {c : Codec T} {d : Domain} {i : Nat} {ct : Bytes} {v : T}
    (h : openVal X sk c d i ct = .ok v) :
    ∃ pt, X.cipher.open_ sk d i [] ct = some pt ∧ c.fromSlice pt = some v := by
  unfold openVal at h
  split at h
  · cases h
  next pt hopen =>
    split at h
    · cases h
    next v' hv =>
      cases h
      exact ⟨pt, hopen, hv⟩

/-- **The receiver only ever accepts the sender's manifest.** -/
theorem manifest_of_accepted {m : Manifest} (h : Accepted X sk m (own .right log)) :
    m = streamManifest source := by
  obtain ⟨ct, htook, hopen, -⟩ := h
  obtain ⟨pt, hpt, hv⟩ := open_of_openVal hopen
  obtain ⟨_, -, hacts⟩ := senderActs_of_mem hrun (sealed_of_took_left hrun (by decide) htook hpt)
  rw [hacts.2.1 rfl, Codec.fromSlice_toVec, Option.some.injEq] at hv
  exact hv.symm

omit hrun in
variable (X sk source outDir log qs) in
/-- What a session guarantees, whoever carries its messages. -/
structure Intact : Prop where
  /-- What is written for chunk `i` is the plaintext the sender sealed for it. -/
  written : ∀ file off bytes r, (Side.right, ⟨.loc (.fs (.writeAt file off bytes)), r⟩) ∈ log →
    ∃ i < (streamManifest source).totalChunks, off = i * STREAM_FRAME_SIZE ∧
      (∃ ct, (Side.left, ⟨.loc (.seal_ .streamToReceiver (1 + i) bytes), ct⟩) ∈ log) ∧
      ∀ bytes' ct, (Side.left, ⟨.loc (.seal_ .streamToReceiver (1 + i) bytes'), ct⟩) ∈ log →
        bytes' = bytes
  /-- A sender that succeeded with a file or an archive was told so by a receiver whose `finalize`
  returned `Ok`, after reading staged bytes with the very hash the sender computed and committed to. -/
  blob : ∀ done, qs .left = .ret done → (streamManifest source).kind ≠ .text → ∃ content,
    (Side.left, ⟨.loc .readAll, .ok content⟩) ∈ log ∧
    (∃ ct, (Side.left, ⟨.loc (.seal_ .streamToReceiver (1 + (streamManifest source).totalChunks)
      (X.commitJson.toVec ⟨X.blake3 content⟩)), ct⟩) ∈ log) ∧
    ∃ store before fin later desc data, own .right log = before ++ diskTrace fin ++ later ∧
      store.dir = stagingDir (safeName (streamManifest source).name) ∧
      Follows (finalize X store (streamManifest source) ⟨X.blake3 content⟩ outDir
        (safeName (streamManifest source).name)) fin (.ret desc) ∧
      (⟨.read store.dataPath, .ok data⟩ : Action fsEffects) ∈ fin ∧
      X.blake3 data = X.blake3 content
  /-- A sender that succeeded with a text was told so by a receiver that took a manifest with this text
  and accepted it. -/
  text : ∀ done content transferId, source = .text content transferId → qs .left = .ret done →
    ∃ m ct, m.text = some content ∧ (Side.right, ⟨.recv, .ok ct⟩) ∈ log ∧
      openVal X sk X.manifestJson .streamToReceiver 0 ct = .ok m ∧
      (Side.right, ⟨.loc (.accept m), true⟩) ∈ log

/-- What the sender has heard at its end. -/
theorem heard_of_done {done : String} (hdone : qs .left = .ret done) :
    Heard X sk (streamManifest source) (own .left log) := by
  have hsafe := hrun.safe .left (keeps_sendSource X sk source)
  rw [hdone] at hsafe
  exact hsafe.2 done rfl

/-- A reply that says yes was made by a receiver that did. -/
theorem accepted_of_heard (h : Heard X sk (streamManifest source) (own .left log)) :
    Accepted X sk (streamManifest source) (own .right log) := by
  obtain ⟨ct, ack, htook, hopen, hyes⟩ := h.accepted
  obtain ⟨pt, hpt, hv⟩ := open_of_openVal hopen
  obtain ⟨past, later, heq, hacts⟩ :=
    receiverActs_of_mem hrun (sealed_of_took_right hrun (by decide) htook hpt)
  obtain ⟨ack', rfl, hack'⟩ := hacts.2.1 rfl
  rw [Codec.fromSlice_toVec, Option.some.injEq] at hv
  subst hv
  obtain ⟨m, hm⟩ := hack' hyes
  have hacc : Accepted X sk m (own .right log) := by
    rw [heq]
    exact hm.mono (List.subset_append_left _ _)
  rwa [manifest_of_accepted hrun hacc] at hacc

section size

variable (hsize : (streamManifest source).totalSize < 2 ^ 64)
include hsize

omit hrun in
/-- The indices of a session are `u64`. -/
theorem index_lt : 1 + (streamManifest source).totalChunks < 2 ^ 64 := by
  have := Session.totalChunks_lt (Session.chunkSize_streamManifest source) hsize
  omega

theorem intact_written (file : Handle) (off : Nat) (bytes : Bytes) (r : Except IoError Unit)
    (hmem : (Side.right, ⟨.loc (.fs (.writeAt file off bytes)), r⟩) ∈ log) :
    ∃ i < (streamManifest source).totalChunks, off = i * STREAM_FRAME_SIZE ∧
      (∃ ct, (Side.left, ⟨.loc (.seal_ .streamToReceiver (1 + i) bytes), ct⟩) ∈ log) ∧
      ∀ bytes' ct, (Side.left, ⟨.loc (.seal_ .streamToReceiver (1 + i) bytes'), ct⟩) ∈ log →
        bytes' = bytes := by
  obtain ⟨past, later, heq, m, i, ct, hacc, hi, hoff, htook, hopen⟩ := receiverActs_of_mem hrun hmem
  have hsub : past ⊆ own .right log := by
    rw [heq]
    exact List.subset_append_left _ _
  obtain rfl := manifest_of_accepted hrun (hacc.mono hsub)
  have hlt := index_lt hsize
  have hsealed := sealed_of_took_left hrun (by omega) (hsub htook) hopen
  have hbelow := (hrun.safe .left (keepsBelow_sendSource X sk source)).here
  refine ⟨i, hi, hoff, ⟨ct, hsealed⟩, ?_⟩
  intro bytes' ct' hmem'
  exact hbelow.unique (mem_own.mpr hsealed) (mem_own.mpr hmem')

/-- The commit a receiver takes is the sender's. -/
theorem commit_of_took {ct : Bytes} {commit : Commit} (htook : Took ct (own .right log))
    (hopen : openVal X sk X.commitJson .streamToReceiver (1 + (streamManifest source).totalChunks) ct
      = .ok commit) :
    ∃ content, commit = ⟨X.blake3 content⟩ ∧ (Side.left, ⟨.loc .readAll, .ok content⟩) ∈ log ∧
      (Side.left, ⟨.loc (.seal_ .streamToReceiver (1 + (streamManifest source).totalChunks)
        (X.commitJson.toVec ⟨X.blake3 content⟩)), ct⟩) ∈ log := by
  obtain ⟨pt, hpt, hv⟩ := open_of_openVal hopen
  have hsealed := sealed_of_took_left hrun (index_lt hsize) htook hpt
  obtain ⟨past, hsub, -, -, hlast⟩ := senderActs_of_mem hrun hsealed
  obtain ⟨content, hread, rfl⟩ := hlast rfl
  rw [Codec.fromSlice_toVec, Option.some.injEq] at hv
  exact ⟨content, hv.symm, mem_own.mp (hsub hread), hsealed⟩

/-- **One stream session is intact whatever the carrier does**: what is staged is what the sender
sealed, chunk by chunk, and a sender that succeeds has a receiver that did. -/
theorem integrity : Intact X sk source outDir log qs := by
  refine ⟨intact_written hrun hsize, ?_, ?_⟩
  · intro done hdone hkind
    obtain ⟨ct, cack, htook, hopen, hok⟩ := (heard_of_done hrun hdone).finalized hkind
    obtain ⟨pt, hpt, hv⟩ := open_of_openVal hopen
    obtain ⟨past, later, heq, hacts⟩ :=
      -- the receiver sealed the ack, so its `finalize` returned
      receiverActs_of_mem hrun (sealed_of_took_right hrun (by decide) htook hpt)
    obtain ⟨res, rfl, hres⟩ := hacts.2.2 rfl
    rw [Codec.fromSlice_toVec, Option.some.injEq] at hv
    subst hv
    cases res with
    | error e => cases hok
    | ok desc =>
        obtain ⟨m, commit, hacc, store, before, fin, rfl, hstore, ⟨ct', htook', hopen'⟩, hfollows⟩ :=
          hres desc rfl
        have hsub : before ++ diskTrace fin ⊆ own .right log := by
          rw [heq]
          exact List.subset_append_left _ _
        obtain rfl := manifest_of_accepted hrun (hacc.mono hsub)
        -- the commit it opened is the one sealed over the file that was read
        obtain ⟨content, rfl, hread, hsealed⟩ := commit_of_took hrun hsize (hsub htook') hopen'
        obtain ⟨data, hdata, hhash⟩ := read_of_finalize hfollows
        exact ⟨content, hread, ⟨ct', hsealed⟩, store, before, fin, later, desc, data, heq, hstore.dir,
          hfollows, hdata, hhash⟩
  · rintro done content transferId rfl hdone
    obtain ⟨ct, htook, hopen, hyes⟩ := accepted_of_heard hrun (heard_of_done hrun hdone)
    exact ⟨_, ct, rfl, mem_own.mp htook, hopen, mem_own.mp hyes⟩

end size

end session

/-! ## A text, delivered -/

section greeting

variable (X : Externals) (sk : Key)

abbrev greeting : Source := .text "hi" "greeting"

/-- A whole session: the manifest, the decision and the reply. -/
def greetingLog : List (Side × StreamAction) :=
  [(.left, ⟨.loc (.seal_ .streamToReceiver 0 (X.manifestJson.toVec (streamManifest greeting))),
      manifestFrame X sk (streamManifest greeting)⟩),
    (.left, ⟨.send (manifestFrame X sk (streamManifest greeting)), .ok ()⟩),
    (.right, ⟨.recv, .ok (manifestFrame X sk (streamManifest greeting))⟩),
    (.right, ⟨.loc (.accept (streamManifest greeting)), true⟩),
    (.right, ⟨.loc (.seal_ .streamToSender 0 (X.streamAckJson.toVec ⟨true, false, []⟩)),
      ackFrame X sk ⟨true, false, []⟩⟩),
    (.right, ⟨.send (ackFrame X sk ⟨true, false, []⟩), .ok ()⟩),
    (.left, ⟨.recv, .ok (ackFrame X sk ⟨true, false, []⟩)⟩)]

theorem follows_greeting_left :
    Follows (sendSource X sk greeting) (own .left (greetingLog X sk)) (.ret "text delivered") := by
  refine .cons (.cons (.cons ?_))
  show Follows (ofExcept (withContext _ (openVal _ _ _ _ _ (ackFrame _ _ _))) >>= _) [] _
  rw [ackFrame, openVal_seal_]
  exact .nil _

theorem follows_greeting_right (outDir : String) :
    Follows (recvInto X sk outDir) (own .right (greetingLog X sk)) (.ret "hi") := by
  refine .cons ?_
  show Follows ((ofExcept (withContext _ (openVal _ _ _ _ _ (manifestFrame _ _ _))) >>= _) >>= _) _ _
  rw [manifestFrame, openVal_seal_]
  exact .cons (.cons (.cons (.nil _)))

/-- The outside world of the example. -/
abbrev quietWorld : Externals := .ideal fun _ => ""

/-- What was sealed and sent may arrive. -/
theorem hostile_recv {log : List (Side × StreamAction)} {p q : Side} {d : Domain} {i : Nat} {pt : Bytes}
    (hi : i < 2 ^ 64) (hmem : (p, ⟨.loc (.seal_ d i pt), quietWorld.cipher.seal_ sk d i [] pt⟩) ∈ log) :
    Hostile quietWorld sk log (q, ⟨.recv, .ok (quietWorld.cipher.seal_ sk d i [] pt)⟩) := by
  intro d' i' pt' hi' hopen
  obtain ⟨rfl, rfl⟩ := Cipher.ideal_open_inj hi' hi hopen
  exact ⟨p, pt, hmem⟩

theorem run_greetingLog : Run (β := fun _ => String) (party quietWorld [] greeting "out")
    (Hostile quietWorld []) (greetingLog quietWorld []) (pick (.ret "text delivered") (.ret "hi")) := by
  refine ⟨?_, rfl, trivial, ?_, trivial, rfl, trivial, ?_, trivial⟩
  · intro p
    cases p with
    | left => exact follows_greeting_left quietWorld []
    | right => exact follows_greeting_right quietWorld [] "out"
  · exact hostile_recv [] (by decide) (List.mem_of_getElem? (i := 0) rfl)
  · exact hostile_recv [] (by decide) (List.mem_of_getElem? (i := 4) rfl)

end greeting

/-! ## A file of one byte, delivered -/

section oneByte

open B2p.Session (offerSteps replySteps chunkSteps oneByteManifest follows_chunkSteps follows_replySteps)

abbrev oneByte : Source := .blob .file Kind.file_ne_text "a" [] 1 "t"

variable (X : Externals)

/-- What the receiver does with the chunk and the commit. -/
def storeSteps : List StreamAction :=
  [⟨.recv, .ok (chunkFrame X [1] [7] 0)⟩,
    ⟨.loc (.fs (.writeAt 0 0 [7])), .ok ()⟩,
    ⟨.loc (.fs (.writeFile (.staged (stagingDir (safeName "a")) .stateJsonTmp)
      (X.stateJson.toVec ⟨"t", 1, STREAM_FRAME_SIZE, .insert 0 .empty⟩))), .ok ()⟩,
    ⟨.loc (.fs (.rename (.staged (stagingDir (safeName "a")) .stateJsonTmp)
      (.staged (stagingDir (safeName "a")) .stateJson))), .ok ()⟩,
    ⟨.recv, .ok (commitFrame X [1] 1 [7])⟩,
    ⟨.loc (.fs (.read (.staged (stagingDir (safeName "a")) .data))), .ok [7]⟩,
    ⟨.loc (.fs (.rename (.staged (stagingDir (safeName "a")) .data) (.out (safeName "a")))), .ok ()⟩,
    ⟨.loc (.fs (.readDir (stagingDir (safeName "a")))), .ok [.stateJson]⟩,
    ⟨.loc (.fs (.removeFile (.staged (stagingDir (safeName "a")) .stateJson))), .ok ()⟩,
    ⟨.loc (.fs (.removeDir (stagingDir (safeName "a")))), .ok ()⟩,
    ⟨.loc (.seal_ .streamToSender 1 (X.commitAckJson.toVec ⟨true, none⟩)), commitAckFrame X [1] ⟨true, none⟩⟩,
    ⟨.send (commitAckFrame X [1] ⟨true, none⟩), .ok ()⟩]

theorem follows_storeSteps : Follows (receivePayload quietWorld [1] "out" oneByteManifest
    ⟨stagingDir (safeName "a"), 0, ⟨"t", 1, STREAM_FRAME_SIZE, .empty⟩⟩) (storeSteps quietWorld)
    (.ret ("saved " ++ joinPath "out" (safeName "a"))) := by
  have hchunk : Follows (recvChunks quietWorld [1] [] ⟨stagingDir (safeName "a"), 0,
      ⟨"t", 1, STREAM_FRAME_SIZE, .empty⟩⟩ [0]) ((storeSteps quietWorld).take 4)
      (.ret ⟨stagingDir (safeName "a"), 0, ⟨"t", 1, STREAM_FRAME_SIZE, .insert 0 .empty⟩⟩) := by
    rw [recvChunks, if_neg List.not_mem_nil, recv_bind]
    refine .cons ?_
    rw [ofExcept_ok, ret_bind, chunkFrame, Cipher.open_seal_]
    exact .cons (.cons (.cons (.nil _)))
  rw [← List.take_append_drop 4 (storeSteps quietWorld)]
  refine (hchunk.bind _).append ?_
  rw [ret_bind, recv_bind]
  refine .cons ?_
  rw [ofExcept_ok, ret_bind, show oneByteManifest.totalChunks = 1 from rfl, commitFrame, openVal_seal_]
  exact .cons (.cons (.cons (.cons (.cons (.cons (.cons (.nil _)))))))

/-- A whole session. -/
def oneByteLog : List (Side × StreamAction) :=
  (offerSteps X).map (fun a => (.left, a)) ++ ((replySteps X).map (fun a => (.right, a)) ++
    ((chunkSteps X).map (fun a => (.left, a)) ++ ((storeSteps X).map (fun a => (.right, a)) ++
      [(.left, ⟨.recv, .ok (commitAckFrame X [1] ⟨true, none⟩)⟩)])))

theorem run_oneByteLog : Run (β := fun _ => String) (party quietWorld [1] oneByte "out")
    (Hostile quietWorld [1]) (oneByteLog quietWorld)
    (pick (.ret "transfer complete") (.ret ("saved " ++ joinPath "out" (safeName "a")))) := by
  refine ⟨?_, ?_⟩
  · intro p
    cases p with
    | left =>
        refine (follows_chunkSteps quietWorld).append ?_
        rw [awaitCommit, recv_bind]
        refine .cons ?_
        rw [ofExcept_ok, ret_bind, commitAckFrame, openVal_seal_]
        exact .nil _
    | right => exact (follows_replySteps quietWorld).append follows_storeSteps
  · refine ⟨rfl, trivial, ?_, trivial, trivial, trivial, trivial, trivial, trivial, trivial, rfl, trivial, ?_,
      trivial, rfl, trivial, trivial, rfl, trivial, ?_, trivial, trivial, trivial, ?_, trivial, trivial,
      trivial, trivial, trivial, rfl, trivial, ?_, trivial⟩
    · exact hostile_recv [1] (by decide) (List.mem_of_getElem? (i := 0) rfl)
    · exact hostile_recv [1] (by decide) (List.mem_of_getElem? (i := 10) rfl)
    · exact hostile_recv [1] (by decide) (List.mem_of_getElem? (i := 14) rfl)
    · exact hostile_recv [1] (by decide) (List.mem_of_getElem? (i := 17) rfl)
    · exact hostile_recv [1] (by decide) (List.mem_of_getElem? (i := 29) rfl)

/-- Of a text that was delivered, and of a file. -/
theorem integrity_oneByte :
    Intact quietWorld [] greeting "out" (greetingLog quietWorld [])
      (pick (.ret "text delivered") (.ret "hi")) ∧
    Intact quietWorld [1] oneByte "out" (oneByteLog quietWorld)
      (pick (.ret "transfer complete") (.ret ("saved " ++ joinPath "out" (safeName "a")))) ∧
    (Side.right, ⟨.loc (.fs (.writeAt 0 0 [7])), .ok ()⟩) ∈ oneByteLog quietWorld :=
  ⟨integrity run_greetingLog (by decide), integrity run_oneByteLog (by decide),
    List.mem_of_getElem? (i := 20) rfl⟩

end oneByte

end Stream
end B2p
