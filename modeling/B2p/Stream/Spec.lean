import B2p.Staging

/-!
# What the parts of a stream session do

An honest session between two hosts: the sender's holds the source file, the receiver's the output
directory. One lemma per part of `send_source` and `recv_into`: which messages it takes, what it does,
and what it leaves on the receiver's disk.

* `skips_ackFor` — the sender's test against the run-length reply and the receiver's test against its
  own list agree on every chunk.
* `does_sendChunks`, `does_recvChunks` — the two payload loops.
-/

namespace B2p

open Interaction Prog Fs

/-- What one side has at hand: the source file (the sender) and the disk (the receiver). -/
structure Host where
  file : Bytes
  disk : Fs

section

variable (X : Externals) (sk : Key)

/-- The local operations of one session. A read past the end of the source fails, as `read_exact`
does; the transfer is always accepted. -/
def Host.handle : Handler hostEffects Host
  | .seal_ d i pt, s => (X.cipher.seal_ sk d i [] pt, s)
  | .readAt off len, s =>
      (if off + len ≤ s.file.length then .ok (slice off len s.file)
        else .error (.other "failed to fill whole buffer"), s)
  | .readAll, s => (.ok s.file, s)
  | .accept _, s => (true, s)
  | .fs o, s => ((X.handle o s.disk).1, { s with disk := (X.handle o s.disk).2 })

namespace Stream

/-! ## Operations on disk -/

/-- What a program did on disk, as part of a session. -/
def diskTrace (tr : List (Action fsEffects)) : List StreamAction :=
  tr.map fun a => ⟨.loc (.fs a.op), a.res⟩

theorem does_onDisk {α : Type} (p : FsProg α) (host : Host) :
    Does (Host.handle X sk) host [] (onDisk p) (diskTrace (traceOf X.handle p host.disk))
      (ofExcept (p.eval X.handle host.disk).1)
      { host with disk := (p.eval X.handle host.disk).2 } := by
  induction p generalizing host with
  | ret a => exact .nil _ _
  | fail e => exact .nil _ _
  | step o k ih => exact .loc (ih _ { host with disk := (X.handle o host.disk).2 })

/-- A disk program whose outcome is known. -/
theorem does_onDisk_ok {α : Type} {p : FsProg α} (host : Host) {a : α} {fs' : Fs}
    (h : p.eval X.handle host.disk = (.ok a, fs')) :
    Does (Host.handle X sk) host [] (onDisk p) (diskTrace (traceOf X.handle p host.disk)) (.ret a)
      { host with disk := fs' } := by
  have hdoes := does_onDisk X sk p host
  rwa [h] at hdoes

/-- The chunks written, by their offsets. -/
def written (tr : List StreamAction) : List Nat :=
  tr.filterMap fun
    | ⟨.loc (.fs (.writeAt _ off _)), _⟩ => some (off / STREAM_FRAME_SIZE)
    | _ => none

/-- The indices sealed for the receiver. -/
def sealed (tr : List StreamAction) : List Nat :=
  tr.filterMap fun
    | ⟨.loc (.seal_ .streamToReceiver i _), _⟩ => some i
    | _ => none

theorem written_append (l m : List StreamAction) : written (l ++ m) = written l ++ written m :=
  List.filterMap_append ..

theorem sealed_append (l m : List StreamAction) : sealed (l ++ m) = sealed l ++ sealed m :=
  List.filterMap_append ..

/-- Not a write into an open file. -/
def NoWrite : FsOp → Prop
  | .writeAt _ _ _ => False
  | _ => True

theorem sent_diskTrace (tr : List (Action fsEffects)) : sent (diskTrace tr) = [] := by
  rw [sent, diskTrace, List.filterMap_map, List.filterMap_eq_nil_iff]
  exact fun a _ => rfl

theorem written_diskTrace {α : Type} {p : FsProg α} (hp : Only NoWrite p) (fs : Fs) :
    written (diskTrace (traceOf X.handle p fs)) = [] := by
  rw [written, diskTrace, List.filterMap_map, List.filterMap_eq_nil_iff]
  intro a ha
  have hno := hp.of_mem_traceOf X.handle ha
  obtain ⟨o, r⟩ := a
  cases o with
  | writeAt h off b => exact hno.elim
  | _ => rfl

/-- Nothing is sent or received while a disk program runs. -/
theorem atMessages_diskTrace {C : Host → Prop} (host : Host) (tr : List (Action fsEffects)) :
    AtMessages (Host.handle X sk) C host (diskTrace tr) := by
  induction tr generalizing host with
  | nil => trivial
  | cons a tr ih => exact ih _

theorem failsFast_onDisk {α : Type} (p : FsProg α) : FailsFast (onDisk p) := by
  induction p with
  | ret a => trivial
  | fail e => trivial
  | step o k ih => exact fun r => ih r

theorem failsFast_ofExcept {α : Type} (x : Except Anyhow α) :
    FailsFast (ofExcept x : StreamProg α) := by
  cases x <;> trivial

theorem failsFast_send (msg : Bytes) : FailsFast (send msg) :=
  ⟨fun e => ⟨e, rfl⟩, failsFast_ofExcept⟩

theorem failsFast_recv : FailsFast recv := ⟨fun e => ⟨e, rfl⟩, failsFast_ofExcept⟩

theorem recv_bind {α : Type} (f : Bytes → StreamProg α) :
    (recv >>= f) = .step .recv (fun r => ofExcept r >>= f) := rfl

/-! ## The frames of an honest session -/

/-- The bytes of chunk `i`. -/
def chunkOf (content : Bytes) (i : Nat) : Bytes :=
  slice (i * STREAM_FRAME_SIZE) STREAM_FRAME_SIZE content

def manifestFrame (m : Manifest) : Bytes :=
  X.cipher.seal_ sk .streamToReceiver 0 [] (X.manifestJson.toVec m)

def chunkFrame (content : Bytes) (i : Nat) : Bytes :=
  X.cipher.seal_ sk .streamToReceiver (1 + i) [] (chunkOf content i)

def commitFrame (total : Nat) (content : Bytes) : Bytes :=
  X.cipher.seal_ sk .streamToReceiver (1 + total) [] (X.commitJson.toVec ⟨X.blake3 content⟩)

def ackFrame (ack : StreamManifestAck) : Bytes :=
  X.cipher.seal_ sk .streamToSender 0 [] (X.streamAckJson.toVec ack)

def commitAckFrame (ack : CommitAck) : Bytes :=
  X.cipher.seal_ sk .streamToSender 1 [] (X.commitAckJson.toVec ack)

/-- Opening what was sealed yields the value. -/
theorem openVal_seal_ {T : Type} (c : Codec T) (d : Domain) (i : Nat) (v : T) :
    openVal X sk c d i (X.cipher.seal_ sk d i [] (c.toVec v)) = .ok v := by
  simp [openVal]

@[simp] theorem withContext_ok {α : Type} (text : String) (a : α) :
    withContext text (.ok a) = .ok a := rfl

/-! ## The sender's parts -/

theorem failsFast_sendChunks (ack : StreamManifestAck) (totalSize : Nat) (todo : List Nat) :
    FailsFast (sendChunks ack totalSize todo) := by
  induction todo with
  | nil => trivial
  | cons i todo ih =>
      rw [sendChunks]
      split
      · exact ih
      · exact .bind (.bind (fun _ => trivial) (fun _ => failsFast_ofExcept _)) fun _ =>
          .bind (fun _ => trivial) fun _ => .bind (failsFast_send _) fun _ => ih

theorem failsFast_sendSource (source : Source) : FailsFast (sendSource X sk source) := by
  refine .bind (.bind (fun _ => trivial) fun _ => failsFast_send _) fun _ =>
    .bind failsFast_recv fun _ => .bind (failsFast_ofExcept _) fun ack => ?_
  split
  · trivial
  · split
    · trivial
    · refine .bind (.bind (failsFast_sendChunks _ _ _) fun _ => .bind ?_ fun _ =>
        .bind (fun _ => trivial) fun _ => failsFast_send _) fun _ =>
        .bind failsFast_recv fun _ => .bind (failsFast_ofExcept _) fun cack => ?_
      · exact .bind (fun _ => trivial) fun _ => .bind (failsFast_ofExcept _) fun _ => trivial
      · split <;> trivial

/-- Seal and send. -/
def sealAndSend (d : Domain) (i : Nat) (pt : Bytes) : List StreamAction :=
  [⟨.loc (.seal_ d i pt), X.cipher.seal_ sk d i [] pt⟩,
    ⟨.send (X.cipher.seal_ sk d i [] pt), .ok ()⟩]

theorem does_sealAndSend (host : Host) (d : Domain) (i : Nat) (pt : Bytes) :
    Does (Host.handle X sk) host [] (do
      let ct ← seal_ d i pt
      send ct) (sealAndSend X sk d i pt) (.ret ()) host :=
  .loc (.send (.nil _ _))

/-- What the payload loop does for one chunk. -/
def chunkActions (content : Bytes) (i : Nat) : List StreamAction :=
  ⟨.loc (.readAt (i * STREAM_FRAME_SIZE)
      (min STREAM_FRAME_SIZE (content.length - i * STREAM_FRAME_SIZE))), .ok (chunkOf content i)⟩ ::
    sealAndSend X sk .streamToReceiver (1 + i) (chunkOf content i)

theorem frameSize_pos : 0 < STREAM_FRAME_SIZE := by decide

/-- Reading a chunk of the source. -/
theorem does_readChunk (host : Host) {i : Nat}
    (hi : i < divCeil host.file.length STREAM_FRAME_SIZE) :
    Does (Host.handle X sk) host [] (readChunk i STREAM_FRAME_SIZE host.file.length)
      [⟨.loc (.readAt (i * STREAM_FRAME_SIZE)
        (min STREAM_FRAME_SIZE (host.file.length - i * STREAM_FRAME_SIZE))),
        .ok (chunkOf host.file i)⟩] (.ret (chunkOf host.file i)) host := by
  have hstart := (lt_divCeil_iff frameSize_pos).mp hi
  have hread : Host.handle X sk (.readAt (i * STREAM_FRAME_SIZE)
      (min STREAM_FRAME_SIZE (host.file.length - i * STREAM_FRAME_SIZE))) host
      = (.ok (chunkOf host.file i), host) := by
    have hwhole : slice (i * STREAM_FRAME_SIZE)
        (min STREAM_FRAME_SIZE (host.file.length - i * STREAM_FRAME_SIZE)) host.file
        = chunkOf host.file i := slice_eq_slice_of_min (by omega)
    rw [Host.handle, if_pos (by omega), hwhole]
  have hdoes := Does.loc (h := Host.handle X sk) (s := host) (M := Bytes) (ε := Anyhow)
    (o := .readAt (i * STREAM_FRAME_SIZE)
      (min STREAM_FRAME_SIZE (host.file.length - i * STREAM_FRAME_SIZE)))
    (k := fun r => ofExcept (r.mapError Anyhow.io)) (.nil _ _)
  rw [hread] at hdoes
  exact hdoes

/-- **The sender's payload loop** reads, seals and sends exactly the chunks it does not skip. -/
theorem does_sendChunks (host : Host) (ack : StreamManifestAck) (todo : List Nat)
    (htodo : ∀ i ∈ todo, i < divCeil host.file.length STREAM_FRAME_SIZE) :
    Does (Host.handle X sk) host [] (sendChunks ack host.file.length todo)
      ((todo.filter (fun i => !skips ack i)).flatMap (chunkActions X sk host.file)) (.ret ()) host := by
  induction todo with
  | nil => exact .nil _ _
  | cons i todo ih =>
      have hrest := ih fun j hj => htodo j (List.mem_cons_of_mem _ hj)
      rw [sendChunks]
      by_cases hskip : skips ack i
      · rw [if_pos hskip, List.filter_cons_of_neg (by simp [hskip])]
        exact hrest
      · rw [if_neg hskip, List.filter_cons_of_pos (by simp [hskip]), List.flatMap_cons]
        refine (does_readChunk X sk host (htodo i List.mem_cons_self)).andThen (w := []) ?_
        exact .loc (.send hrest)

/-- What `send_source` does between the reply and the answer to its commit. -/
def payloadActions (content : Bytes) (missing : List Nat) (total : Nat) : List StreamAction :=
  missing.flatMap (chunkActions X sk content) ++ ⟨.loc .readAll, .ok content⟩ ::
    sealAndSend X sk .streamToReceiver (1 + total) (X.commitJson.toVec ⟨X.blake3 content⟩)

theorem does_sendPayload (host : Host) {manifest : Manifest}
    (hsize : manifest.totalSize = host.file.length) (hchunk : manifest.chunkSize = STREAM_FRAME_SIZE)
    (ack : StreamManifestAck) :
    Does (Host.handle X sk) host [] (sendPayload X manifest ack)
      (payloadActions X sk host.file ((List.range manifest.totalChunks).filter fun i => !skips ack i)
        manifest.totalChunks) (.ret ()) host := by
  have htotal : manifest.totalChunks = divCeil host.file.length STREAM_FRAME_SIZE := by
    rw [Manifest.totalChunks, hsize, hchunk]
  have hchunks := does_sendChunks X sk host ack (List.range manifest.totalChunks) (fun i hi => by
    rw [← htotal]
    exact List.mem_range.mp hi)
  rw [sendPayload, hsize]
  exact hchunks.andThen (w := []) (.loc (.loc (.send (.nil _ _))))

theorem sent_flatMap_chunkActions (content : Bytes) (missing : List Nat) :
    sent (missing.flatMap (chunkActions X sk content)) = missing.map (chunkFrame X sk content) := by
  induction missing with
  | nil => rfl
  | cons i missing ih =>
      rw [List.flatMap_cons, sent_append, ih, List.map_cons]
      rfl

theorem sent_payloadActions (content : Bytes) (missing : List Nat) (total : Nat) :
    sent (payloadActions X sk content missing total)
      = missing.map (chunkFrame X sk content) ++ [commitFrame X sk total content] := by
  rw [payloadActions, sent_append, sent_flatMap_chunkActions]
  rfl

theorem sealed_payloadActions (content : Bytes) (missing : List Nat) (total : Nat) :
    sealed (payloadActions X sk content missing total) = missing.map (1 + ·) ++ [1 + total] := by
  have hloop : sealed (missing.flatMap (chunkActions X sk content)) = missing.map (1 + ·) := by
    induction missing with
    | nil => rfl
    | cons i missing ih =>
        rw [List.flatMap_cons, sealed_append, ih, List.map_cons]
        rfl
  rw [payloadActions, sealed_append, hloop]
  rfl

/-! ## The reply and what it makes the sender skip -/

/-- The reply to an accepted manifest. -/
def ackFor (store : Store) : StreamManifestAck :=
  ⟨true, store.isComplete, runsFromSorted store.haves⟩

/-- **The two sides skip the same chunks**: the sender decides by the reply's runs and its `complete`
flag, the receiver by its own list. -/
theorem skips_ackFor {store : Store} (hlt : ∀ i ∈ store.state.haves, i < store.totalChunks) {i : Nat}
    (hi : i < store.totalChunks) : skips (ackFor store) i = true ↔ i ∈ store.haves := by
  rw [skips, Bool.or_eq_true, ackFor, runsContain_runsFromSorted]
  constructor
  · rintro (hall | hmem)
    · rw [Store.isComplete, beq_iff_eq, SortedSet.card_eq_iff_forall_mem hlt] at hall
      exact hall i hi
    · exact hmem
  · exact .inr

theorem filter_skips_ackFor {store : Store} (hlt : ∀ i ∈ store.state.haves, i < store.totalChunks) :
    ((List.range store.totalChunks).filter fun i => !skips (ackFor store) i)
      = missing store.totalChunks store.state.haves := by
  refine List.filter_congr fun i hi => ?_
  have hskip := skips_ackFor hlt (List.mem_range.mp hi)
  rw [Bool.eq_iff_iff, Bool.not_eq_true', ← Bool.not_eq_true, hskip, decide_eq_true_iff]
  rfl

/-! ## The receiver's parts -/

/-- The manifest of a transfer with a payload, as `recv_into` checks it. -/
structure IsBlob (m : Manifest) : Prop where
  version : m.version = PROTOCOL_VERSION
  kind : m.kind ≠ .text
  chunkSize : m.chunkSize = STREAM_FRAME_SIZE

theorem failsFast_recvChunks (haves : List Nat) (store : Store) (todo : List Nat) :
    FailsFast (recvChunks X sk haves store todo) := by
  induction todo generalizing store with
  | nil => trivial
  | cons i todo ih =>
      rw [recvChunks]
      split
      · exact ih store
      · refine .bind failsFast_recv fun ct => ?_
        split
        · trivial
        · exact .bind (failsFast_onDisk _) fun r => .bind (failsFast_ofExcept _) fun _ => ih r.2

theorem failsFast_replyAck (ack : StreamManifestAck) : FailsFast (replyAck X ack) :=
  .bind (fun _ => trivial) fun _ => failsFast_send _

theorem failsFast_refuse {α : Type} (e : Anyhow) : FailsFast (refuse X e : StreamProg α) :=
  .bind (failsFast_replyAck X _) fun _ => trivial

theorem failsFast_negotiate : FailsFast (negotiate X sk) := by
  refine .bind failsFast_recv fun _ => .bind (failsFast_ofExcept _) fun m => ?_
  split
  · exact failsFast_refuse X _
  · split
    · exact failsFast_refuse X _
    · refine .bind (fun _ => trivial) fun accepted => ?_
      split
      · exact failsFast_refuse X _
      · split
        · exact .bind (failsFast_replyAck X _) fun _ => trivial
        · exact .bind (failsFast_onDisk _) fun _ => .bind (failsFast_replyAck X _) fun _ => trivial

theorem failsFast_recvInto (outDir : String) : FailsFast (recvInto X sk outDir) := by
  refine .bind (failsFast_negotiate X sk) fun r => ?_
  obtain ⟨manifest, _ | store⟩ := r
  · trivial
  · exact .bind (failsFast_recvChunks X sk _ _ _) fun _ => .bind failsFast_recv fun _ =>
      .bind (failsFast_ofExcept _) fun _ => .bind (failsFast_onDisk _) fun _ =>
        .bind (fun _ => trivial) fun _ => .bind (failsFast_send _) fun _ => failsFast_ofExcept _

variable {X} {m : Manifest} {want : Nat → Bytes → Prop} {store : Store} {fs : Fs}

theorem only_syscall {P : FsOp → Prop} {o : FsOp} (h : P o) : Only P (syscall o) :=
  ⟨h, fun _ => trivial⟩

theorem only_io {P : FsOp → Prop} {α : Type} (x : Except IoError α) : Only P (io x) := by
  cases x <;> trivial

theorem only_persistState (s : Store) : Only NoWrite (s.persistState X) :=
  .bind (only_syscall trivial) fun _ => .bind (only_io _) fun _ =>
    .bind (only_syscall trivial) fun _ => only_io _

/-- An accepted chunk is one write. -/
theorem written_writeChunk {i : Nat} {plaintext : Bytes} (hacc : store.Accepts i plaintext)
    (hc : store.state.chunkSize = STREAM_FRAME_SIZE) (fs : Fs) :
    written (diskTrace (traceOf X.handle (store.writeChunk X i plaintext) fs)) = [i] := by
  rw [Store.writeChunk_of_accepts X hacc]
  have hrest : Only NoWrite (((store.record i).persistState X).attempt >>= fun persisted =>
      (ret (persisted, store.record i) : FsProg (Except Anyhow Unit × Store))) :=
    .bind (only_persistState _).attempt fun _ => trivial
  refine (congrArg (i * store.state.chunkSize / STREAM_FRAME_SIZE :: ·)
    (written_diskTrace X hrest _)).trans ?_
  rw [hc, Nat.mul_div_cancel _ frameSize_pos]

/-- **The receiver's payload loop** takes one frame for each chunk it does not have, and ends with
all of them staged. -/
theorem does_recvChunks {C : Fs → Prop} {fs₀ : Fs} (hC : ∀ store fs, Staged X m want store fs →
      SameOutside (stagingDir (safeName m.name)) fs₀ fs → C fs)
    (hm : m.chunkSize = STREAM_FRAME_SIZE) {content : Bytes} (hsize : content.length = m.totalSize)
    (haves : SortedSet Nat) (hwant : ∀ i, i ∉ haves → want i (chunkOf content i)) (file : Bytes)
    (todo : List Nat) (htodo : ∀ i ∈ todo, i < m.totalChunks) (hst : Staged X m want store fs)
    (hsame : SameOutside (stagingDir (safeName m.name)) fs₀ fs) :
    ∃ tr store' fs', Does (Host.handle X sk) ⟨file, fs⟩
        ((todo.filter fun i => decide (i ∉ haves)).map (chunkFrame X sk content))
        (recvChunks X sk haves.toList store todo) tr (.ret store') ⟨file, fs'⟩ ∧
      Staged X m want store' fs' ∧ SameOutside (stagingDir (safeName m.name)) fs₀ fs' ∧
      (∀ i, i ∈ store'.state.haves ↔
        i ∈ store.state.haves ∨ i ∈ todo.filter fun i => decide (i ∉ haves)) ∧
      sent tr = [] ∧ written tr = (todo.filter fun i => decide (i ∉ haves)) ∧
      AtMessages (Host.handle X sk) (fun host => C host.disk) ⟨file, fs⟩ tr := by
  induction todo generalizing store fs with
  | nil => exact ⟨[], store, fs, .nil _ _, hst, hsame, by simp, rfl, rfl, trivial⟩
  | cons i todo ih =>
      have htodo' : ∀ j ∈ todo, j < m.totalChunks := fun j hj => htodo j (List.mem_cons_of_mem _ hj)
      rw [recvChunks]
      -- a chunk the receiver lists is not sent
      by_cases hi : i ∈ haves
      · rw [if_pos (show i ∈ haves.toList from hi), List.filter_cons_of_neg (by simpa using hi)]
        exact ih htodo' hst hsame
      · have hlt := htodo i List.mem_cons_self
        have hstart := (lt_divCeil_iff (a := m.totalSize) (hm ▸ frameSize_pos)).mp hlt
        -- write the next, and go on from there
        obtain ⟨fs₁, heval, hst₁, hacc, hsame₁⟩ := hst.writeChunk hlt
          (show (chunkOf content i).length = _ by rw [chunkOf, length_slice, hsize, hm]) (hwant i hi)
        obtain ⟨tr, store', fs', hdoes, hst', hsame', hhaves, hsent, hwritten, hat⟩ :=
          ih htodo' hst₁ (hsame.trans hsame₁)
        rw [if_neg (show i ∉ haves.toList from hi), List.filter_cons_of_pos (by simpa using hi)]
        have hwrite := (does_onDisk_ok X sk ⟨file, fs⟩ heval).andThen
          (f := fun r => ofExcept r.1 >>= fun _ => recvChunks X sk haves.toList r.2 todo) hdoes
        refine ⟨⟨.recv, .ok (chunkFrame X sk content i)⟩ :: (diskTrace (traceOf X.handle
          (store.writeChunk X i (chunkOf content i)) fs) ++ tr), store', fs', ?_, hst', hsame', ?_, ?_, ?_,
          hC store fs hst hsame, ?_⟩
        · rw [recv_bind]
          refine .recv ?_
          rw [ofExcept_ok, ret_bind, chunkFrame, Cipher.open_seal_]
          exact hwrite
        · intro j
          rw [hhaves, Store.record, SortedSet.mem_insert, List.mem_cons]
          tauto
        · show sent (_ ++ tr) = []
          rw [sent_append, sent_diskTrace, hsent]
          rfl
        · show written (_ ++ tr) = _
          rw [written_append, written_writeChunk hacc (hst.chunkSize.trans hm), hwritten]
          rfl
        · rw [atMessages_append]
          refine ⟨atMessages_diskTrace X sk _ _, ?_⟩
          rw [(does_onDisk_ok X sk ⟨file, fs⟩ heval).after_eq]
          exact hat

theorem only_openOrCreate (name transferId : String) (totalSize chunkSize : Nat) :
    Only NoWrite (Store.openOrCreate X name transferId totalSize chunkSize) :=
  .bind (only_syscall trivial) fun _ => .bind (only_io _) fun _ =>
    .bind (only_syscall trivial) fun _ => .bind (only_syscall trivial) fun _ =>
      .bind (only_io _) fun _ => .bind (only_syscall trivial) fun _ =>
        .bind (only_io _) fun _ => .bind (only_persistState _) fun _ => trivial

variable (X) in
/-- What `recv_into` does up to its reply, when the store it opens is `store`. -/
def negotiateActions (m : Manifest) (store : Store) (fs : Fs) : List StreamAction :=
  ⟨.recv, .ok (manifestFrame X sk m)⟩ :: ⟨.loc (.accept m), true⟩ ::
    (diskTrace (traceOf X.handle (Store.openOrCreate X (safeName m.name) m.transferId m.totalSize
      m.chunkSize) fs)
      ++ sealAndSend X sk .streamToSender 0 (X.streamAckJson.toVec (ackFor store)))

/-- **Negotiation**: the receiver takes the manifest, opens the store and replies with what it has. -/
theorem does_negotiate (hm : IsBlob m) (file : Bytes) {fs' : Fs} (heval : (Store.openOrCreate X
      (safeName m.name) m.transferId m.totalSize m.chunkSize).eval X.handle fs = (.ok store, fs')) :
    Does (Host.handle X sk) ⟨file, fs⟩ [manifestFrame X sk m] (negotiate X sk)
      (negotiateActions X sk m store fs) (.ret (m, some store)) ⟨file, fs'⟩ := by
  have hreply : Does (Host.handle X sk) ⟨file, fs'⟩ [] (do
      replyAck X (ackFor store)
      return (m, some store))
      (sealAndSend X sk .streamToSender 0 (X.streamAckJson.toVec (ackFor store)))
      (.ret (m, some store)) ⟨file, fs'⟩ := .loc (.send (.nil _ _))
  have htail := (does_onDisk_ok X sk ⟨file, fs⟩ heval).andThen (f := fun store => do
    replyAck X (ackFor store)
    return (m, some store)) hreply
  rw [negotiate, recv_bind]
  refine .recv ?_
  rw [ofExcept_ok, ret_bind, manifestFrame, openVal_seal_, withContext_ok, ofExcept_ok, ret_bind,
    if_neg (not_not.mpr hm.version), if_neg (fun h => h.2 hm.chunkSize), loc, step_bind]
  refine .loc ?_
  rw [ret_bind, Host.handle, if_neg (by simp), if_neg hm.kind]
  exact htail

variable (X) in
/-- What it does where the store cannot be opened. -/
def blockedActions (m : Manifest) (fs : Fs) : List StreamAction :=
  ⟨.recv, .ok (manifestFrame X sk m)⟩ :: ⟨.loc (.accept m), true⟩ ::
    diskTrace (traceOf X.handle
      (Store.openOrCreate X (safeName m.name) m.transferId m.totalSize m.chunkSize) fs)

theorem does_negotiate_of_error (hm : IsBlob m) (file : Bytes) {e : Anyhow} {fs' : Fs}
    (heval : (Store.openOrCreate X (safeName m.name) m.transferId m.totalSize m.chunkSize).eval X.handle fs
      = (.error e, fs')) :
    Does (Host.handle X sk) ⟨file, fs⟩ [manifestFrame X sk m] (negotiate X sk) (blockedActions X sk m fs)
      (.fail e) ⟨file, fs'⟩ := by
  have hdisk := does_onDisk X sk (Store.openOrCreate X (safeName m.name) m.transferId m.totalSize m.chunkSize)
    ⟨file, fs⟩
  rw [heval] at hdisk
  have htail := hdisk.bind (f := fun store => do
    replyAck X (ackFor store)
    return (m, some store))
  rw [negotiate, recv_bind]
  refine .recv ?_
  rw [ofExcept_ok, ret_bind, manifestFrame, openVal_seal_, withContext_ok, ofExcept_ok, ret_bind,
    if_neg (not_not.mpr hm.version), if_neg (fun h => h.2 hm.chunkSize), loc, step_bind]
  refine .loc ?_
  rw [ret_bind, Host.handle, if_neg (by simp), if_neg hm.kind]
  exact htail

theorem sent_blockedActions : sent (blockedActions X sk m fs) = [] := sent_diskTrace _

theorem sent_negotiateActions :
    sent (negotiateActions X sk m store fs) = [ackFrame X sk (ackFor store)] := by
  show sent (diskTrace _ ++ _) = _
  rw [sent_append, sent_diskTrace]
  rfl

theorem written_negotiateActions : written (negotiateActions X sk m store fs) = [] := by
  show written (diskTrace _ ++ _) = _
  rw [written_append, written_diskTrace X (only_openOrCreate _ _ _ _)]
  rfl

theorem atMessages_negotiateActions {C : Fs → Prop} {fs' : Fs} {file : Bytes} (heval : (Store.openOrCreate
      X (safeName m.name) m.transferId m.totalSize m.chunkSize).eval X.handle fs = (.ok store, fs'))
    (hC : C fs) (hC' : C fs') : AtMessages (Host.handle X sk) (fun host => C host.disk) ⟨file, fs⟩
      (negotiateActions X sk m store fs) := by
  refine ⟨hC, atMessages_append.mpr ⟨atMessages_diskTrace X sk ⟨file, fs⟩ _, ?_⟩⟩
  have hafter := (does_onDisk_ok X sk ⟨file, fs⟩ heval).after_eq
  have hdisk : AtMessages (Host.handle X sk) (fun host => C host.disk) ⟨file, fs'⟩
      (sealAndSend X sk .streamToSender 0 (X.streamAckJson.toVec (ackFor store))) := ⟨hC', trivial⟩
  rwa [← hafter] at hdisk

/-! ## The end of a transfer -/

section finalize

variable (hst : Staged X m want store fs)
  (hall : ∀ i < m.totalChunks, i ∈ store.state.haves) {data : Bytes}
  (hd : fs.content store.dataPath = some data) {commit : Commit} (outDir name : String)

include hst hall hd

variable (commit) in
/-- With the right hash, the file is moved into place, if that is free, and the staging directory is
gone. -/
theorem eval_finalize_of_eq (hkind : m.kind = .file) (hhash : X.blake3 data = commit.blake3Hex)
    (hdest : fs.dirs name = false) :
    ∃ fs', (finalize X store m commit outDir name).eval X.handle fs
        = (.ok ("saved " ++ joinPath outDir name), fs') ∧
      Store.Gone store.dir fs' ∧ fs'.content (.out name) = some data ∧
      (∀ n, n ≠ name → fs'.content (.out n) = fs.content (.out n)) ∧
      ∀ d, d ≠ store.dir → fs'.dirs d = fs.dirs d := by
  obtain ⟨fs', heval, hfile⟩ := Store.eval_finalizeFile X hst.live hd outDir hdest
  refine ⟨fs', ?_, hfile⟩
  rw [finalize, if_neg (by rw [hst.isComplete hall]; decide), eval_bind_ok _ (Store.eval_fileHash X hd),
    if_neg (not_not.mpr hhash), hkind]
  exact eval_bind_ok _ heval

/-- Onto a directory it cannot be moved, and the disk is left as it is. -/
theorem eval_finalize_of_dir (hkind : m.kind = .file) (hhash : X.blake3 data = commit.blake3Hex)
    (hdest : fs.dirs name = true) :
    (finalize X store m commit outDir name).eval X.handle fs = (.error (.context
      ("moving download into place at " ++ joinPath outDir name) (.io .isDirectory)), fs) := by
  rw [finalize, if_neg (by rw [hst.isComplete hall]; decide), eval_bind_ok _ (Store.eval_fileHash X hd),
    if_neg (not_not.mpr hhash), hkind]
  dsimp only
  rw [eval_bind, Store.eval_finalizeFile_of_dir X hd outDir hdest]

/-- With a wrong hash, it is left as it is too. -/
theorem eval_finalize_of_ne (hhash : X.blake3 data ≠ commit.blake3Hex) :
    (finalize X store m commit outDir name).eval X.handle fs
      = (.error (.msg "integrity check failed: hash mismatch"), fs) := by
  rw [finalize, if_neg (by rw [hst.isComplete hall]; decide), eval_bind_ok _ (Store.eval_fileHash X hd),
    if_pos hhash]
  rfl

end finalize

theorem only_removeFiles (dir : String) (files : List StagedFile) :
    Only NoWrite (Store.removeFiles dir files) := by
  induction files with
  | nil => trivial
  | cons f files ih => exact .bind (only_syscall trivial) fun _ => .bind (only_io _) fun _ => ih

theorem only_removeDirAll (dir : String) : Only NoWrite (Store.removeDirAll dir) :=
  .bind (only_syscall trivial) fun _ => .bind (only_io _) fun _ => .bind (only_removeFiles _ _)
    fun _ => .bind (only_syscall trivial) fun _ => only_io _

theorem only_finalize (commit : Commit) (outDir name : String) :
    Only NoWrite (finalize X store m commit outDir name) := by
  rw [finalize]
  split
  · trivial
  refine .bind (.bind (only_syscall trivial) fun _ => .bind (only_io _) fun _ => trivial) fun hash => ?_
  split
  · trivial
  split
  · refine .bind (.bind (only_syscall trivial) fun r => ?_) fun _ => trivial
    split
    · trivial
    · exact only_removeDirAll _
  · refine .bind (.bind (only_syscall trivial) fun _ => .bind (only_io _) fun _ =>
      .bind (only_syscall trivial) fun r => ?_) fun _ => .bind (only_removeDirAll _) fun _ => trivial
    split <;> trivial
  · trivial

variable (X) in
/-- What `recv_into` does after its payload loop. -/
def finalActions (store : Store) (m : Manifest) (commit : Commit) (outDir : String) (fs : Fs)
    (res : Except Anyhow String) : List StreamAction :=
  ⟨.recv, .ok (X.cipher.seal_ sk .streamToReceiver (1 + m.totalChunks) [] (X.commitJson.toVec commit))⟩
    :: (diskTrace (traceOf X.handle (finalize X store m commit outDir (safeName m.name)).attempt fs)
      ++ sealAndSend X sk .streamToSender 1 (X.commitAckJson.toVec (commitAck res)))

/-- **The receiver's part after the reply**, from what its loop and its `finalize` do. -/
theorem does_receivePayload {tr : List StreamAction} {ms : List Bytes} {store' : Store} {fs' fs'' : Fs}
    {file : Bytes} (hchunks : Does (Host.handle X sk) ⟨file, fs⟩ ms
      (recvChunks X sk store.haves store (List.range m.totalChunks)) tr (.ret store') ⟨file, fs'⟩)
    {commit : Commit} {outDir : String} {res : Except Anyhow String}
    (heval : (finalize X store' m commit outDir (safeName m.name)).eval X.handle fs' = (res, fs'')) :
    Does (Host.handle X sk) ⟨file, fs⟩
      (ms ++ [X.cipher.seal_ sk .streamToReceiver (1 + m.totalChunks) [] (X.commitJson.toVec commit)])
      (receivePayload X sk outDir m store)
      (tr ++ finalActions X sk store' m commit outDir fs' res) (ofExcept res) ⟨file, fs''⟩ := by
  have hfin : (finalize X store' m commit outDir (safeName m.name)).attempt.eval X.handle fs'
      = (.ok res, fs'') := by
    rw [eval_attempt, heval]
  refine hchunks.andThen ?_
  rw [recv_bind]
  refine .recv ?_
  rw [ofExcept_ok, ret_bind, openVal_seal_]
  refine (does_onDisk_ok X sk ⟨file, fs'⟩ hfin).andThen ?_
  exact .loc (.send (.nil _ _))

theorem sent_finalActions (commit : Commit) (outDir : String) (res : Except Anyhow String) :
    sent (finalActions X sk store m commit outDir fs res)
      = [commitAckFrame X sk (commitAck res)] := by
  show sent (diskTrace _ ++ _) = _
  rw [sent_append, sent_diskTrace]
  rfl

theorem written_finalActions (commit : Commit) (outDir : String) (res : Except Anyhow String) :
    written (finalActions X sk store m commit outDir fs res) = [] := by
  show written (diskTrace _ ++ _) = _
  rw [written_append, written_diskTrace X (only_finalize _ _ _).attempt]
  rfl

theorem atMessages_finalActions {C : Fs → Prop} {fs' : Fs} {file : Bytes} {commit : Commit}
    {outDir : String} {res : Except Anyhow String}
    (heval : (finalize X store m commit outDir (safeName m.name)).eval X.handle fs = (res, fs'))
    (hC : C fs) (hC' : C fs') : AtMessages (Host.handle X sk) (fun host => C host.disk) ⟨file, fs⟩
      (finalActions X sk store m commit outDir fs res) := by
  refine ⟨hC, atMessages_append.mpr ⟨atMessages_diskTrace X sk ⟨file, fs⟩ _, ?_⟩⟩
  have hafter := (does_onDisk_ok X sk ⟨file, fs⟩
    (p := (finalize X store m commit outDir (safeName m.name)).attempt)
    (by rw [eval_attempt, heval])).after_eq
  have hdisk : AtMessages (Host.handle X sk) (fun host => C host.disk) ⟨file, fs'⟩
      (sealAndSend X sk .streamToSender 1 (X.commitAckJson.toVec (commitAck res))) := ⟨hC', trivial⟩
  rwa [← hafter] at hdisk

end Stream
end
end B2p
