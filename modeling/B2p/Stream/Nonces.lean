import B2p.Session
import B2p.Stream.Spec

/-!
# Nonces on the stream path

Both parties of a session seal under one stream key. Each keeps to a domain of its own and uses its
indices in increasing order, whatever it is answered; so a nonce is used twice only by two parties of
one kind that share a session key, which an ideal handshake rules out.

* `Below` — one domain, indices increasing and below a bound: the invariant of both programs.
* `Call.sealed` — the same for a whole call, under the key of its handshake.
* `nonces_unique` — any number of calls, each cut off anywhere, against any network and disk.
-/

namespace B2p

open Interaction Prog

namespace Stream

/-- Where an action seals. -/
def sealAt : StreamAction → Option (Domain × Nat)
  | ⟨.loc (.seal_ d i _), _⟩ => some (d, i)
  | _ => none

/-- All seals of a trace are in the domain `d`, with increasing indices below `n`. -/
structure Below (d : Domain) (n : Nat) (tr : List StreamAction) : Prop where
  sealed : ∀ x ∈ tr.filterMap sealAt, x.1 = d ∧ x.2 < n
  increasing : (tr.filterMap sealAt).Pairwise (·.2 < ·.2)

variable {d : Domain} {n N : Nat} {tr : List StreamAction}

theorem Below.nil (d : Domain) (n : Nat) : Below d n [] := ⟨nofun, .nil⟩

theorem Below.mono {n' : Nat} (h : Below d n tr) (hn : n ≤ n') : Below d n' tr :=
  ⟨fun x hx => ⟨(h.sealed x hx).1, lt_of_lt_of_le (h.sealed x hx).2 hn⟩, h.increasing⟩

theorem Below.other {a : StreamAction} (h : Below d n tr) (ha : sealAt a = none) :
    Below d n (tr ++ [a]) := by
  have heq : (tr ++ [a]).filterMap sealAt = tr.filterMap sealAt := by
    simp [ha]
  exact ⟨heq ▸ h.sealed, heq ▸ h.increasing⟩

theorem Below.seal_ {i : Nat} {pt ct : Bytes} (h : Below d n tr) (hi : n ≤ i) :
    Below d (i + 1) (tr ++ [⟨.loc (.seal_ d i pt), ct⟩]) := by
  have heq : (tr ++ [(⟨.loc (.seal_ d i pt), ct⟩ : StreamAction)]).filterMap sealAt
      = tr.filterMap sealAt ++ [(d, i)] := by
    rw [List.filterMap_append]
    rfl
  refine ⟨?_, ?_⟩
  · intro x hx
    rw [heq, List.mem_append, List.mem_singleton] at hx
    rcases hx with hx | rfl
    · exact ⟨(h.sealed x hx).1, by have := (h.sealed x hx).2; omega⟩
    · exact ⟨rfl, Nat.lt_succ_self i⟩
  · rw [heq, List.pairwise_append]
    refine ⟨h.increasing, List.pairwise_singleton _ _, ?_⟩
    intro x hx y hy
    rw [List.mem_singleton.mp hy]
    exact lt_of_lt_of_le (h.sealed x hx).2 hi

/-! ## The two programs

In the world of one party anything may be answered. `Keeps N` is what both programs are shown to do:
stay below `N` all along, and below the given bound at the end. -/

abbrev KeepsBelow (d : Domain) (N : Nat) {α : Type} (Q : List StreamAction → Prop) (p : StreamProg α)
    (tr : List StreamAction) : Prop :=
  Safe traced (Below d N) (fun _ => Q) p tr

section

variable {α β : Type} {Q : List StreamAction → Prop}

/-- An operation that seals nothing, then the rest. -/
theorem keepsBelow_other {o : streamEffects.Op} {k : streamEffects.Res o → StreamProg α}
    (h : Below d n tr) (hn : n ≤ N) (ho : ∀ r, sealAt ⟨o, r⟩ = none)
    (hk : ∀ r tr', Below d n tr' → KeepsBelow d N Q (k r) tr') :
    KeepsBelow d N Q (.step o k) tr := by
  refine ⟨h.mono hn, ?_⟩
  rintro r tr' rfl
  exact hk r _ (h.other (ho r))

/-- A seal, then the rest. -/
theorem keepsBelow_seal {i : Nat} {pt : Bytes} {k : Bytes → StreamProg α} (h : Below d n tr)
    (hn : n ≤ i) (hi : i < N)
    (hk : ∀ ct tr', Below d (i + 1) tr' → KeepsBelow d N Q (k ct) tr') :
    KeepsBelow d N Q (.step (.loc (.seal_ d i pt)) k) tr := by
  refine ⟨h.mono (by omega), ?_⟩
  rintro r tr' rfl
  exact hk r _ (h.seal_ hn)

/-- A `?`, then the rest. -/
theorem keepsBelow_ofExcept {x : Except Anyhow β} {f : β → StreamProg α} (h : Below d n tr)
    (hn : n ≤ N) (hQ : Q tr) (hf : ∀ b, KeepsBelow d N Q (f b) tr) :
    KeepsBelow d N Q (ofExcept x >>= f) tr := by
  cases x with
  | error e => exact ⟨h.mono hn, hQ⟩
  | ok b => exact hf b

/-- A program that only touches the disk seals nothing. -/
theorem keepsBelow_onDisk {p : FsProg β} {f : β → StreamProg α} (h : Below d n tr) (hn : n ≤ N)
    (hQ : ∀ tr, Below d n tr → Q tr)
    (hf : ∀ b tr', Below d n tr' → KeepsBelow d N Q (f b) tr') :
    KeepsBelow d N Q (onDisk p >>= f) tr := by
  induction p generalizing tr with
  | ret b => exact hf b tr h
  | fail e => exact ⟨h.mono hn, hQ tr h⟩
  | step o k ih => exact keepsBelow_other h hn (fun _ => rfl) fun r tr' h' => ih r h'

end

section programs

variable (X : Externals) (sk : Key)

/-- The payload loop seals chunk after chunk. -/
theorem keepsBelow_sendChunks {α : Type} {Q : List StreamAction → Prop} (ack : StreamManifestAck)
    (totalSize total : Nat) {f : Unit → StreamProg α} (hQ : ∀ tr, Below d (1 + total) tr → Q tr)
    (hd : d = .streamToReceiver) (todo : List Nat) (hsorted : todo.Pairwise (· < ·))
    (htodo : ∀ i ∈ todo, n ≤ 1 + i ∧ i < total) (hn : n ≤ 1 + total) (hN : 1 + total ≤ N)
    (hf : ∀ tr', Below d (1 + total) tr' → KeepsBelow d N Q (f ()) tr') (h : Below d n tr) :
    KeepsBelow d N Q (sendChunks ack totalSize todo >>= f) tr := by
  subst hd
  induction todo generalizing tr n with
  | nil => exact hf tr (h.mono hn)
  | cons i rest ih =>
      have hrest : ∀ j ∈ rest, i < j := (List.pairwise_cons.mp hsorted).1
      have hsorted' := (List.pairwise_cons.mp hsorted).2
      obtain ⟨hni, hi⟩ := htodo i List.mem_cons_self
      unfold sendChunks
      split
      · -- a chunk the receiver has leaves a gap
        exact ih hsorted' (fun j hj => htodo j (List.mem_cons_of_mem _ hj)) hn h
      · refine keepsBelow_other h (by omega) (fun _ => rfl) fun r tr₁ h₁ => ?_
        cases r with
        | error e => exact ⟨h₁.mono (by omega), hQ _ (h₁.mono hn)⟩
        | ok plain =>
            -- the index of the chunk is above all those before it
            refine keepsBelow_seal h₁ hni (by omega) fun ct tr₂ h₂ => ?_
            refine keepsBelow_other h₂ (by omega) (fun _ => rfl) fun r tr₃ h₃ => ?_
            cases r with
            | error e => exact ⟨h₃.mono (by omega), hQ _ (h₃.mono (by omega))⟩
            | ok u =>
                refine ih hsorted' (fun j hj => ⟨?_, (htodo j (List.mem_cons_of_mem _ hj)).2⟩) (by omega) h₃
                have := hrest j hj
                omega

/-- **The sender seals each index once**: the manifest, the chunks it sends in order, the commit. -/
theorem keepsBelow_sendSource (source : Source) :
    KeepsBelow .streamToReceiver (2 + (streamManifest source).totalChunks) (fun _ => True)
      (sendSource X sk source) [] := by
  -- the manifest at 0
  refine keepsBelow_seal (.nil _ 0) (le_refl 0) (by omega) fun ct tr₁ h₁ => ?_
  refine keepsBelow_other h₁ (by omega) (fun _ => rfl) fun r tr₂ h₂ => ?_
  cases r with
  | error e => exact ⟨h₂.mono (by omega), trivial⟩
  | ok u =>
      refine keepsBelow_other h₂ (by omega) (fun _ => rfl) fun r tr₃ h₃ => ?_
      cases r with
      | error e => exact ⟨h₃.mono (by omega), trivial⟩
      | ok ct =>
          show KeepsBelow _ _ _ (ofExcept (withContext _ _) >>= _) tr₃
          refine keepsBelow_ofExcept h₃ (by omega) trivial fun ack => ?_
          split
          · exact ⟨h₃.mono (by omega), trivial⟩
          split
          · exact ⟨h₃.mono (by omega), trivial⟩
          show KeepsBelow _ _ _ ((sendChunks _ _ _ >>= _) >>= _) tr₃
          rw [bind_assoc]
          -- the chunks from 1 on
          refine keepsBelow_sendChunks ack _ _ (fun _ _ => trivial) rfl _ List.pairwise_lt_range
            (fun i hi => ⟨by omega, List.mem_range.mp hi⟩) (by omega) (by omega) (fun tr₄ h₄ => ?_) h₃
          refine keepsBelow_other h₄ (by omega) (fun _ => rfl) fun r tr₅ h₅ => ?_
          cases r with
          | error e => exact ⟨h₅.mono (by omega), trivial⟩
          | ok bytes =>
              -- and the commit after the last of them
              refine keepsBelow_seal h₅ (le_refl _) (by omega) fun ct tr₆ h₆ => ?_
              refine keepsBelow_other h₆ (by omega) (fun _ => rfl) fun r tr₇ h₇ => ?_
              cases r with
              | error e => exact ⟨h₇.mono (by omega), trivial⟩
              | ok u =>
                  refine keepsBelow_other h₇ (by omega) (fun _ => rfl) fun r tr₈ h₈ => ?_
                  cases r with
                  | error e => exact ⟨h₈.mono (by omega), trivial⟩
                  | ok ct =>
                      show KeepsBelow _ _ _ (ofExcept (openVal _ _ _ _ _ _) >>= _) tr₈
                      refine keepsBelow_ofExcept h₈ (by omega) trivial fun cack => ?_
                      split
                      · exact ⟨h₈.mono (by omega), trivial⟩
                      · exact ⟨h₈.mono (by omega), trivial⟩

/-- Every way the receiver has of answering a manifest seals index 0, and none does so twice. -/
theorem keepsBelow_negotiate :
    KeepsBelow .streamToSender 2 (Below .streamToSender 1) (negotiate X sk) [] := by
  -- the reply, in all five places
  have hreply : ∀ {α : Type} (ack : StreamManifestAck) (f : Unit → StreamProg α) (tr : List StreamAction),
      Below .streamToSender 0 tr → (∀ tr', Below .streamToSender 1 tr' →
        KeepsBelow .streamToSender 2 (Below .streamToSender 1) (f ()) tr') →
      KeepsBelow .streamToSender 2 (Below .streamToSender 1) (replyAck X ack >>= f) tr := by
    intro α ack f tr h hf
    refine keepsBelow_seal h (le_refl 0) (by omega) fun ct tr₁ h₁ => ?_
    refine keepsBelow_other h₁ (by omega) (fun _ => rfl) fun r tr₂ h₂ => ?_
    cases r with
    | error e => exact ⟨h₂.mono (by omega), h₂⟩
    | ok u => exact hf tr₂ h₂
  have hrefuse : ∀ (e : Anyhow) (tr : List StreamAction), Below .streamToSender 0 tr →
      KeepsBelow .streamToSender 2 (Below .streamToSender 1)
        (refuse X e : StreamProg (Manifest × Option Store)) tr :=
    fun e tr h => hreply _ _ tr h fun tr' h' => ⟨h'.mono (by omega), h'⟩
  refine keepsBelow_other (.nil _ 0) (by omega) (fun _ => rfl) fun r tr₁ h₁ => ?_
  cases r with
  | error e => exact ⟨h₁.mono (by omega), h₁.mono (by omega)⟩
  | ok ct =>
      show KeepsBelow _ _ _ (ofExcept (withContext _ _) >>= _) tr₁
      refine keepsBelow_ofExcept h₁ (by omega) (h₁.mono (by omega)) fun m => ?_
      split
      · exact hrefuse _ tr₁ h₁
      split
      · exact hrefuse _ tr₁ h₁
      refine keepsBelow_other h₁ (by omega) (fun _ => rfl) fun accepted tr₂ h₂ => ?_
      show KeepsBelow _ _ _ (if accepted = false then _ else _) tr₂
      split
      · exact hrefuse _ tr₂ h₂
      split
      · exact hreply _ _ tr₂ h₂ fun tr' h' => ⟨h'.mono (by omega), h'⟩
      · refine keepsBelow_onDisk h₂ (by omega) (fun _ h => h.mono (by omega)) fun store tr₃ h₃ => ?_
        exact hreply _ _ tr₃ h₃ fun tr' h' => ⟨h'.mono (by omega), h'⟩

/-- The receiver's loop seals nothing. -/
theorem keepsBelow_recvChunks {α : Type} (haves : List Nat) (store : Store) (todo : List Nat)
    {f : Store → StreamProg α} (h : Below d n tr) (hn : n ≤ N)
    (hf : ∀ store tr', Below d n tr' → KeepsBelow d N (fun _ => True) (f store) tr') :
    KeepsBelow d N (fun _ => True) (recvChunks X sk haves store todo >>= f) tr := by
  induction todo generalizing store tr with
  | nil => exact hf store tr h
  | cons i rest ih =>
      unfold recvChunks
      split
      -- the receiver seals nothing here
      · exact ih store h
      · refine keepsBelow_other h hn (fun _ => rfl) fun r tr₁ h₁ => ?_
        cases r with
        | error e => exact ⟨h₁.mono hn, trivial⟩
        | ok ct =>
            dsimp only [Prog.ofExcept, Prog.bind]
            split
            · exact ⟨h₁.mono hn, trivial⟩
            · show KeepsBelow _ _ _ (onDisk _ >>= _ >>= f) tr₁
              rw [bind_assoc]
              refine keepsBelow_onDisk h₁ hn (fun _ _ => trivial) fun p tr₂ h₂ => ?_
              obtain ⟨res, store⟩ := p
              cases res with
              | error e => exact ⟨h₂.mono hn, trivial⟩
              | ok u => exact ih store h₂

/-- **The receiver seals at most its two replies.** -/
theorem keepsBelow_recvInto (outDir : String) :
    KeepsBelow .streamToSender 2 (fun _ => True) (recvInto X sk outDir) [] := by
  apply Safe.bind
  refine (keepsBelow_negotiate X sk).mono fun r tr hC h => ?_
  cases r with
  | error e => trivial
  | ok p =>
      obtain ⟨m, store?⟩ := p
      cases store? with
      -- a text has no second frame
      | none => exact ⟨hC, trivial⟩
      | some store =>
          refine keepsBelow_recvChunks X sk _ store _ h (by omega) fun store tr₁ h₁ => ?_
          refine keepsBelow_other h₁ (by omega) (fun _ => rfl) fun r tr₂ h₂ => ?_
          cases r with
          | error e => exact ⟨h₂.mono (by omega), trivial⟩
          | ok ct =>
              show KeepsBelow _ _ _ (ofExcept (openVal _ _ _ _ _ _) >>= _) tr₂
              refine keepsBelow_ofExcept h₂ (by omega) trivial fun commit => ?_
              refine keepsBelow_onDisk h₂ (by omega) (fun _ _ => trivial) fun res tr₃ h₃ => ?_
              -- the outcome at 1
              refine keepsBelow_seal h₃ (le_refl 1) (by omega) fun ack tr₄ h₄ => ?_
              refine keepsBelow_other h₄ (by omega) (fun _ => rfl) fun r tr₅ h₅ => ?_
              cases r with
              | error e => exact ⟨h₅.mono (by omega), trivial⟩
              | ok u => cases res <;> exact ⟨h₅.mono (by omega), trivial⟩

/-- The receiver goes on with frames of the one size only. -/
theorem given_negotiate : Given (fun _ _ => True) (fun _ => True)
    (fun p : Manifest × Option Store => p.2.isSome → p.1.chunkSize = STREAM_FRAME_SIZE)
    (negotiate X sk) := by
  have hrefuse : ∀ e, Given (fun _ _ => True) (fun _ => True)
      (fun p : Manifest × Option Store => p.2.isSome → p.1.chunkSize = STREAM_FRAME_SIZE)
      (refuse X e : StreamProg (Manifest × Option Store)) :=
    fun e => ⟨trivial, fun _ _ => ⟨trivial, fun r _ => by cases r <;> trivial⟩⟩
  refine ⟨trivial, fun r _ => Given.ofExcept fun ct _ => Given.ofExcept fun m _ => ?_⟩
  split
  · exact hrefuse _
  split
  · exact hrefuse _
  next hsize =>
    refine ⟨trivial, fun accepted _ => ?_⟩
    show Given _ _ _ (if accepted = false then _ else _)
    split
    · exact hrefuse _
    split
    · refine ⟨trivial, fun _ _ => ⟨trivial, fun r _ => ?_⟩⟩
      cases r with
      | error e => trivial
      | ok u => exact nofun
    next hkind =>
      -- a file in frames of another size was refused above
      have hchunk : m.chunkSize = STREAM_FRAME_SIZE := by
        by_contra hne
        exact hsize ⟨hkind, hne⟩
      refine Given.bind (given_true _) fun store _ => ?_
      refine ⟨trivial, fun _ _ => ⟨trivial, fun r _ => ?_⟩⟩
      cases r with
      | error e => trivial
      | ok u => exact fun _ => hchunk

end programs

end Stream

/-! ## A call -/

namespace Session

variable {P : PakeLib}

/-- The key, domain and index of a seal. -/
def sealedAt : SessionAction P → Option (Key × Domain × Nat)
  | ⟨.stream sk (.loc (.seal_ d i _)), _⟩ => some (sk, d, i)
  | _ => none

/-- Seals nothing. -/
def Silent : Op P → Prop
  | .stream _ _ => False
  | _ => True

theorem filterMap_sealedAt_of_only {α : Type} {p q : SessionProg P α} {tr : List (SessionAction P)}
    (hp : Only Silent p) (h : Follows p tr q) : tr.filterMap sealedAt = [] := by
  induction h with
  | nil p => rfl
  | @cons o k r tr q h ih =>
      have hnone : sealedAt (⟨o, r⟩ : SessionAction P) = none := by
        cases o with
        | stream sk o => exact hp.1.elim
        | connect => rfl
        | handshake => rfl
        | linger => rfl
        | close => rfl
      rw [List.filterMap_cons_none hnone]
      exact ih (hp.2 r)

theorem only_ofExcept {α : Type} (x : Except Anyhow α) :
    Only Silent (ofExcept x : SessionProg P α) := by
  cases x <;> trivial

theorem only_connect (mark : Anyhow → Anyhow) : Only Silent (connect mark : SessionProg P Unit) :=
  ⟨trivial, fun _ => only_ofExcept _⟩

theorem only_handshake (mark : Anyhow → Anyhow) : Only Silent (handshake mark : SessionProg P _) :=
  ⟨trivial, fun _ => only_ofExcept _⟩

/-- The handshake returns the key it was answered. -/
theorem mem_of_handshake {mark : Anyhow → Anyhow} {tr : List (SessionAction P)} {key : P.SessionKey}
    (h : Follows (handshake mark) tr (.ret key)) : ⟨.handshake, .ok key⟩ ∈ tr := by
  cases h with
  | @cons _ _ r tr _ h =>
      cases r with
      | error e => cases h
      | ok key' =>
          cases h
          exact List.mem_cons_self

/-- What a transfer seals is what its program seals, under its key. -/
theorem follows_transfer {α : Type} {sk : Key} {p : StreamProg α} {tr : List (SessionAction P)}
    {q : SessionProg P α} (h : Follows (transfer sk p) tr q) :
    ∃ strm m, Follows p strm m ∧
      tr.filterMap sealedAt = strm.filterMap fun a => (Stream.sealAt a).map fun x => (sk, x) := by
  induction p generalizing tr with
  | ret a =>
      cases h
      exact ⟨[], _, .nil _, rfl⟩
  | fail e =>
      cases h
      exact ⟨[], _, .nil _, rfl⟩
  | step o k ih =>
      cases h with
      | nil => exact ⟨[], _, .nil _, rfl⟩
      | @cons _ _ r tr _ h =>
          obtain ⟨strm, m, hf, heq⟩ := ih r h
          refine ⟨⟨o, r⟩ :: strm, m, .cons hf, ?_⟩
          have hhead : sealedAt (⟨.stream sk o, r⟩ : SessionAction P)
              = (Stream.sealAt ⟨o, r⟩).map fun x => (sk, x) := by
            cases o with
            | send msg => rfl
            | recv => rfl
            | loc o => cases o <;> rfl
          simp only [List.filterMap_cons, hhead, heq]

section beginnings

variable {α : Type} {mark mark' : Anyhow → Anyhow} {g : P.SessionKey → SessionProg P α}
  {tr : List (SessionAction P)} {q : SessionProg P α}

/-- Up to the transfer a call over the relay seals nothing. -/
theorem relay_beginning (h : Follows (connect mark >>= fun _ => handshake mark' >>= g) tr q) :
    tr.filterMap sealedAt = [] ∨ ∃ key tr₁ tr₂, tr = tr₁ ++ tr₂ ∧ ⟨.handshake, .ok key⟩ ∈ tr₁ ∧
      tr₁.filterMap sealedAt = [] ∧ Follows (g key) tr₂ q := by
  rcases h.bind_inv with ⟨m, hm, -⟩ | ⟨_, tr₁, tr', rfl, h₁, h'⟩
  · exact .inl (filterMap_sealedAt_of_only (only_connect mark) hm)
  have hnone := filterMap_sealedAt_of_only (only_connect mark) h₁
  rcases h'.bind_inv with ⟨m, hm, -⟩ | ⟨key, tr₂, tr₃, rfl, h₂, h₃⟩
  · have := filterMap_sealedAt_of_only (only_handshake mark') hm
    exact .inl (by rw [List.filterMap_append, hnone, this, List.append_nil])
  · have := filterMap_sealedAt_of_only (only_handshake mark') h₂
    refine .inr ⟨key, tr₁ ++ tr₂, tr₃, by simp, ?_, ?_, h₃⟩
    · exact List.mem_append_right _ (mem_of_handshake h₂)
    · rw [List.filterMap_append, hnone, this, List.append_nil]

/-- … and neither does one that shakes hands first. -/
theorem p1_beginning (h : Follows (handshake mark >>= fun key => connect mark' >>= fun _ => g key) tr q) :
    tr.filterMap sealedAt = [] ∨ ∃ key tr₁ tr₂, tr = tr₁ ++ tr₂ ∧ ⟨.handshake, .ok key⟩ ∈ tr₁ ∧
      tr₁.filterMap sealedAt = [] ∧ Follows (g key) tr₂ q := by
  rcases h.bind_inv with ⟨m, hm, -⟩ | ⟨key, tr₁, tr', rfl, h₁, h'⟩
  · exact .inl (filterMap_sealedAt_of_only (only_handshake mark) hm)
  have hnone := filterMap_sealedAt_of_only (only_handshake mark) h₁
  rcases h'.bind_inv with ⟨m, hm, -⟩ | ⟨_, tr₂, tr₃, rfl, h₂, h₃⟩
  · have := filterMap_sealedAt_of_only (only_connect mark') hm
    exact .inl (by rw [List.filterMap_append, hnone, this, List.append_nil])
  · have := filterMap_sealedAt_of_only (only_connect mark') h₂
    refine .inr ⟨key, tr₁ ++ tr₂, tr₃, by simp, ?_, ?_, h₃⟩
    · exact List.mem_append_left _ (mem_of_handshake h₁)
    · rw [List.filterMap_append, hnone, this, List.append_nil]

end beginnings

/-- The size of a source is a `u64`. -/
def Call.Fits : Call → Prop
  | .sendRelay source => (Stream.streamManifest source).totalSize < 2 ^ 64
  | .sendP1 source => (Stream.streamManifest source).totalSize < 2 ^ 64
  | _ => True

/-- The domain a party keeps to. -/
def domainOf : Pake.Role → Domain
  | .receiver => .streamToSender
  | .sender => .streamToReceiver

/-- What a part of a call seals: the seals of one transfer, in one domain. -/
def SealsIn (d : Domain) (sk : Key) (tr : List (SessionAction P)) : Prop :=
  ∃ strm, Stream.Below d (2 ^ 64) strm ∧
    tr.filterMap sealedAt = strm.filterMap fun a => (Stream.sealAt a).map fun x => (sk, x)

/-- There are far fewer frames than `u64` counts. -/
theorem totalChunks_lt {m : Manifest} (hc : m.chunkSize = Stream.STREAM_FRAME_SIZE)
    (hsize : m.totalSize < 2 ^ 64) : 2 + m.totalChunks < 2 ^ 64 := by
  unfold Manifest.totalChunks divCeil
  rw [hc, Stream.STREAM_FRAME_SIZE]
  split <;> omega

theorem chunkSize_streamManifest (source : Source) :
    (Stream.streamManifest source).chunkSize = Stream.STREAM_FRAME_SIZE := by
  cases source <;> rfl

section ends

variable {X : Externals} {sk : Key} {α : Type} {f : String → SessionProg P α}
  {tr : List (SessionAction P)} {q : SessionProg P α}

/-- A transfer and the silent rest of a call. -/
theorem sealsIn_of_follows {d : Domain} {p : StreamProg String} (h : Follows (transfer sk p >>= f) tr q)
    (hp : ∀ strm m, Follows p strm m → Stream.Below d (2 ^ 64) strm) (hf : ∀ a, Only Silent (f a)) :
    SealsIn d sk tr := by
  rcases h.bind_inv with ⟨m, hm, -⟩ | ⟨a, tr₁, tr₂, rfl, h₁, h₂⟩
  · obtain ⟨strm, m', hf, heq⟩ := follows_transfer hm
    exact ⟨strm, hp _ _ hf, heq⟩
  · obtain ⟨strm, m', hf', heq⟩ := follows_transfer h₁
    refine ⟨strm, hp _ _ hf', ?_⟩
    rw [List.filterMap_append, filterMap_sealedAt_of_only (hf a) h₂, List.append_nil, heq]

theorem below_sendSource {source : Source} (hsize : (Stream.streamManifest source).totalSize < 2 ^ 64)
    (strm : List StreamAction) (m : StreamProg String)
    (h : Follows (Stream.sendSource X sk source) strm m) : Stream.Below .streamToReceiver (2 ^ 64) strm := by
  have hbelow := (h.safe (Stream.keepsBelow_sendSource X sk source)).here
  exact hbelow.mono (totalChunks_lt (chunkSize_streamManifest source) hsize).le

theorem below_recvInto {outDir : String} (strm : List StreamAction) (m : StreamProg String)
    (h : Follows (Stream.recvInto X sk outDir) strm m) : Stream.Below .streamToSender (2 ^ 64) strm :=
  (h.safe (Stream.keepsBelow_recvInto X sk outDir)).here.mono (by decide)

end ends

/-- **A call seals nothing, or the seals of one transfer under the key of its handshake.** -/
theorem Call.sealed {X : Externals} {streamKey : P.SessionKey → Key} {c : Call} (hfits : c.Fits)
    {tr : List (SessionAction P)} {q : SessionProg P String}
    (h : Follows (c.prog X streamKey) tr q) : tr.filterMap sealedAt = [] ∨
      ∃ key, ⟨.handshake, .ok key⟩ ∈ tr ∧ SealsIn (domainOf c.role) (streamKey key) tr := by
  -- a beginning that seals nothing, then the transfer
  have hjoin : ∀ (key : P.SessionKey) (tr₁ tr₂ : List (SessionAction P)) (d : Domain),
      ⟨.handshake, .ok key⟩ ∈ tr₁ → tr₁.filterMap sealedAt = [] → SealsIn d (streamKey key) tr₂ →
      ∃ key, ⟨.handshake, .ok key⟩ ∈ tr₁ ++ tr₂ ∧ SealsIn d (streamKey key) (tr₁ ++ tr₂) := by
    rintro key tr₁ tr₂ d hkey hnone ⟨strm, hbelow, heq⟩
    refine ⟨key, List.mem_append_left _ hkey, strm, hbelow, ?_⟩
    rw [List.filterMap_append, hnone, heq, List.nil_append]
  cases c with
  | receiveRelay outDir =>
      rcases relay_beginning h with hnone | ⟨key, tr₁, tr₂, rfl, hkey, hnone, h₂⟩
      · exact .inl hnone
      · refine .inr (hjoin key tr₁ tr₂ _ hkey hnone ?_)
        exact sealsIn_of_follows h₂ below_recvInto fun _ => ⟨trivial, fun _ => ⟨trivial, fun _ => trivial⟩⟩
  | sendRelay source =>
      rcases relay_beginning h with hnone | ⟨key, tr₁, tr₂, rfl, hkey, hnone, h₂⟩
      · exact .inl hnone
      · refine .inr (hjoin key tr₁ tr₂ _ hkey hnone ?_)
        exact sealsIn_of_follows h₂ (below_sendSource hfits) fun _ => ⟨trivial, fun _ => trivial⟩
  | receiveP1 outDir =>
      rcases p1_beginning h with hnone | ⟨key, tr₁, tr₂, rfl, hkey, hnone, h₂⟩
      · exact .inl hnone
      · refine .inr (hjoin key tr₁ tr₂ _ hkey hnone ?_)
        exact sealsIn_of_follows h₂ below_recvInto fun _ => ⟨trivial, fun _ => trivial⟩
  | sendP1 source =>
      rcases p1_beginning h with hnone | ⟨key, tr₁, tr₂, rfl, hkey, hnone, h₂⟩
      · exact .inl hnone
      · refine .inr (hjoin key tr₁ tr₂ _ hkey hnone ?_)
        obtain ⟨strm, m, hf, heq⟩ := follows_transfer h₂
        exact ⟨strm, below_sendSource hfits strm m hf, heq⟩

/-! ## Any number of calls -/

/-- The key and the nonce of a seal. -/
def nonceAt (a : SessionAction P) : Option (Key × Bytes) :=
  (sealedAt a).map fun x => (x.1, makeNonce x.2.1 x.2.2)

/-- An ideal handshake: of the honest parties that got a key, no two play the same part. So a key is
shared with at most one honest peer. -/
def IdealHandshakes {I : Type} (calls : I → Call) (log : List (I × SessionAction P)) : Prop :=
  ∀ i j key, (i, ⟨.handshake, .ok key⟩) ∈ log → (j, ⟨.handshake, .ok key⟩) ∈ log → i ≠ j →
    (calls i).role ≠ (calls j).role

theorem domainOf_injective : Function.Injective domainOf := by
  intro a b h
  cases a <;> cases b <;> first | rfl | cases h

section unique

variable {I : Type} [DecidableEq I] {X : Externals} {streamKey : P.SessionKey → Key} {calls : I → Call}
  {log : List (I × SessionAction P)} {qs : I → SessionProg P String}

/-- Where the seal of a call comes from. -/
theorem sealed_of_mem (hfollows : ∀ i, Follows ((calls i).prog X streamKey) (own i log) (qs i))
    (hfits : ∀ i, (calls i).Fits) {i : I} {a : SessionAction P} {sk : Key} {d : Domain} {n : Nat}
    (ha : (i, a) ∈ log) (hs : sealedAt a = some (sk, d, n)) :
    d = domainOf (calls i).role ∧ n < 2 ^ 64 ∧
      ∃ key, (i, ⟨.handshake, .ok key⟩) ∈ log ∧ sk = streamKey key := by
  have hmem : (sk, d, n) ∈ (own i log).filterMap sealedAt :=
    List.mem_filterMap.mpr ⟨a, mem_own.mpr ha, hs⟩
  rcases Call.sealed (hfits i) (hfollows i) with hnone | ⟨key, hkey, strm, hbelow, heq⟩
  · rw [hnone] at hmem
    cases hmem
  · rw [heq] at hmem
    obtain ⟨b, hb, hsb⟩ := List.mem_filterMap.mp hmem
    obtain ⟨x, hx, hxeq⟩ := Option.map_eq_some_iff.mp hsb
    have hx' := hbelow.sealed x (List.mem_filterMap.mpr ⟨b, hb, hx⟩)
    cases hxeq
    exact ⟨hx'.1, hx'.2, key, mem_own.mp hkey, rfl⟩

/-- A call uses no nonce twice. -/
theorem nodup_own (hfollows : ∀ i, Follows ((calls i).prog X streamKey) (own i log) (qs i))
    (hfits : ∀ i, (calls i).Fits) (i : I) : ((own i log).filterMap nonceAt).Nodup := by
  have heq : (own i log).filterMap nonceAt
      = ((own i log).filterMap sealedAt).map fun x => (x.1, makeNonce x.2.1 x.2.2) := by
    rw [List.map_filterMap]
    rfl
  rw [heq]
  rcases Call.sealed (hfits i) (hfollows i) with hnone | ⟨key, hkey, strm, hbelow, hseal⟩
  · rw [hnone]
    exact List.nodup_nil
  · have hmap : (own i log).filterMap sealedAt
        = (strm.filterMap Stream.sealAt).map fun x => (streamKey key, x) := by
      rw [hseal, List.map_filterMap]
    rw [hmap, List.map_map]
    -- indices below 2 ^ 64 give different nonces
    refine List.Nodup.map_on ?_ (hbelow.increasing.imp fun h heq => by rw [heq] at h; omega)
    intro x hx y hy hxy
    have hnonce := (Prod.mk.inj hxy).2
    obtain ⟨hd, hn⟩ := makeNonce_inj (hbelow.sealed x hx).2 (hbelow.sealed y hy).2 hnonce
    exact Prod.ext hd hn

/-- **No nonce is used twice under a stream key, and no index wraps around**: over any number of calls,
whatever the network, the peers and the disk answer, and wherever each call is cut off. -/
theorem nonces_unique (hkey : Function.Injective streamKey)
    (hfollows : ∀ i, Follows ((calls i).prog X streamKey) (own i log) (qs i))
    (hideal : IdealHandshakes calls log) (hfits : ∀ i, (calls i).Fits) :
    (log.filterMap fun e => nonceAt e.2).Nodup ∧
    (∀ e ∈ log, ∀ sk d n, sealedAt e.2 = some (sk, d, n) → n < 2 ^ 64) ∧
    ∀ sk tr m store, Follows (Stream.negotiate X sk) tr (.ret (m, some store)) → m.totalSize < 2 ^ 64 →
      1 + m.totalChunks < 2 ^ 64 := by
  refine ⟨nodup_of_own (nodup_own hfollows hfits) ?_, ?_, ?_⟩
  · intro i j a b x ha hb hna hnb
    -- two calls that use one key belong to one session
    obtain ⟨⟨sk, d, n⟩, hsa, rfl⟩ := Option.map_eq_some_iff.mp hna
    obtain ⟨⟨sk', d', n'⟩, hsb, hx⟩ := Option.map_eq_some_iff.mp hnb
    obtain ⟨hd, hn, key, hkeyi, rfl⟩ := sealed_of_mem hfollows hfits ha hsa
    obtain ⟨hd', hn', key', hkeyj, rfl⟩ := sealed_of_mem hfollows hfits hb hsb
    obtain rfl := hkey (Prod.mk.inj hx).1
    -- the same domain, so the same part in one session
    have hdom : d' = d := (makeNonce_inj hn' hn (Prod.mk.inj hx).2).1
    by_contra hne
    apply hideal i j key' hkeyi hkeyj hne
    apply domainOf_injective
    rw [← hd, ← hd', hdom]
  · rintro ⟨i, a⟩ ha sk d n hs
    exact (sealed_of_mem hfollows hfits ha hs).2.1
  · intro sk tr m store h hsize
    have hret := ((Stream.given_negotiate X sk).follows h fun _ _ => trivial).2
    have hlt : 2 + m.totalChunks < 2 ^ 64 := totalChunks_lt (hret rfl) hsize
    omega

end unique

/-- Keys that are bytes. -/
def bytesLib : PakeLib := ⟨Bytes, fun _ _ own peer => .ok (own ++ peer), fun key tag => key ++ tag⟩

/-- A file of one byte is sent, and received, under the key `[1]`: up to the commit. -/
def twoCalls : Bool → Call
  | true => .sendRelay (.blob .file Kind.file_ne_text "a" [] 1 "t")
  | false => .receiveRelay "out"

section twoCalls

abbrev oneByteManifest : Manifest := Stream.streamManifest (.blob .file Kind.file_ne_text "a" [] 1 "t")

variable (X : Externals)

/-- The sender's offer, … -/
def offerSteps : List StreamAction :=
  [⟨.loc (.seal_ .streamToReceiver 0 (X.manifestJson.toVec oneByteManifest)),
      Stream.manifestFrame X [1] oneByteManifest⟩,
    ⟨.send (Stream.manifestFrame X [1] oneByteManifest), .ok ()⟩]

/-- … the receiver's reply once its store is open, … -/
def replySteps : List StreamAction :=
  [⟨.recv, .ok (Stream.manifestFrame X [1] oneByteManifest)⟩,
    ⟨.loc (.accept oneByteManifest), true⟩,
    ⟨.loc (.fs (.createDirAll (stagingDir (Stream.safeName "a")))), .ok ()⟩,
    ⟨.loc (.fs (.read (.staged (stagingDir (Stream.safeName "a")) .stateJson))), .error .notFound⟩,
    ⟨.loc (.fs (.openRw (.staged (stagingDir (Stream.safeName "a")) .data) true)), .ok 0⟩,
    ⟨.loc (.fs (.setLen 0 1)), .ok ()⟩,
    ⟨.loc (.fs (.writeFile (.staged (stagingDir (Stream.safeName "a")) .stateJsonTmp)
      (X.stateJson.toVec ⟨"t", 1, Stream.STREAM_FRAME_SIZE, .empty⟩))), .ok ()⟩,
    ⟨.loc (.fs (.rename (.staged (stagingDir (Stream.safeName "a")) .stateJsonTmp)
      (.staged (stagingDir (Stream.safeName "a")) .stateJson))), .ok ()⟩,
    ⟨.loc (.seal_ .streamToSender 0 (X.streamAckJson.toVec ⟨true, false, []⟩)),
      Stream.ackFrame X [1] ⟨true, false, []⟩⟩,
    ⟨.send (Stream.ackFrame X [1] ⟨true, false, []⟩), .ok ()⟩]

/-- … and the sender's chunk and commit. -/
def chunkSteps : List StreamAction :=
  [⟨.recv, .ok (Stream.ackFrame X [1] ⟨true, false, []⟩)⟩,
    ⟨.loc (.readAt 0 1), .ok [7]⟩,
    ⟨.loc (.seal_ .streamToReceiver 1 [7]), Stream.chunkFrame X [1] [7] 0⟩,
    ⟨.send (Stream.chunkFrame X [1] [7] 0), .ok ()⟩,
    ⟨.loc .readAll, .ok [7]⟩,
    ⟨.loc (.seal_ .streamToReceiver 2 (X.commitJson.toVec ⟨X.blake3 [7]⟩)), Stream.commitFrame X [1] 1 [7]⟩,
    ⟨.send (Stream.commitFrame X [1] 1 [7]), .ok ()⟩]

theorem follows_chunkSteps : Follows (Stream.sendSource X [1] (.blob .file Kind.file_ne_text "a" [] 1 "t"))
    (offerSteps X ++ chunkSteps X) (Stream.awaitCommit X [1]) := by
  refine .cons (.cons (.cons ?_))
  show Follows (ofExcept (Stream.withContext _ (Stream.openVal _ _ _ _ _ (Stream.ackFrame _ _ _))) >>= _) _ _
  rw [Stream.ackFrame, Stream.openVal_seal_]
  exact .cons (.cons (.cons (.cons (.cons (.cons (.nil _))))))

theorem follows_replySteps : Follows (Stream.recvInto X [1] "out") (replySteps X)
    (Stream.receivePayload X [1] "out" oneByteManifest
      ⟨stagingDir (Stream.safeName "a"), 0, ⟨"t", 1, Stream.STREAM_FRAME_SIZE, .empty⟩⟩) := by
  refine .cons ?_
  show Follows ((ofExcept (Stream.withContext _ (Stream.openVal _ _ _ _ _ (Stream.manifestFrame _ _ _))) >>= _)
    >>= _) _ _
  rw [Stream.manifestFrame, Stream.openVal_seal_]
  exact .cons (.cons (.cons (.cons (.cons (.cons (.cons (.cons (.cons (.nil _)))))))))

variable {P : PakeLib}

/-- A transfer goes as its program does. -/
theorem transfer_follows {α : Type} {p m : StreamProg α} {strm : List StreamAction} (h : Follows p strm m)
    (sk : Key) : Follows (transfer (P := P) sk p)
      (strm.map fun a => (⟨.stream sk a.op, a.res⟩ : SessionAction P)) (transfer sk m) := by
  induction h with
  | nil p => exact .nil _
  | cons _ ih => exact .cons ih

/-- The offer, the reply, and the rest. -/
def twoCallsLog : List (Bool × SessionAction bytesLib) :=
  [(true, ⟨.connect, .ok ()⟩), (false, ⟨.connect, .ok ()⟩),
    (true, ⟨.handshake, .ok [1]⟩), (false, ⟨.handshake, .ok [1]⟩)] ++
  ((offerSteps X).map (fun a => (true, ⟨.stream [1] a.op, a.res⟩)) ++
    ((replySteps X).map (fun a => (false, ⟨.stream [1] a.op, a.res⟩)) ++
      (chunkSteps X).map fun a => (true, ⟨.stream [1] a.op, a.res⟩)))

theorem follows_twoCalls (i : Bool) : ∃ q, Follows ((twoCalls i).prog X id) (own i (twoCallsLog X)) q := by
  cases i with
  | true =>
      exact ⟨_, .cons (.cons ((transfer_follows (P := bytesLib) (follows_chunkSteps X) [1]).bind _))⟩
  | false =>
      exact ⟨_, .cons (.cons ((transfer_follows (P := bytesLib) (follows_replySteps X) [1]).bind _))⟩

/-- Four nonces, of which two have the same index. -/
theorem nonces_unique_twoCalls :
    ((twoCallsLog (.ideal fun _ => "")).filterMap fun e => nonceAt e.2).Nodup ∧
      (twoCallsLog (.ideal fun _ => "")).filterMap (fun e => sealedAt e.2)
        = [([1], .streamToReceiver, 0), ([1], .streamToSender, 0), ([1], .streamToReceiver, 1),
          ([1], .streamToReceiver, 2)] := by
  obtain ⟨qs, hqs⟩ := Classical.axiomOfChoice (follows_twoCalls (X := .ideal fun _ => ""))
  have hideal : IdealHandshakes twoCalls (twoCallsLog (.ideal fun _ => "")) := by
    intro i j key _ _ hne
    cases i <;> cases j <;> first | exact absurd rfl hne | nofun
  have hfits : ∀ i, (twoCalls i).Fits := by
    intro i
    cases i with
    | true => exact (by decide : 1 < 2 ^ 64)
    | false => trivial
  exact ⟨(nonces_unique (P := bytesLib) Function.injective_id hqs hideal hfits).1, rfl⟩

end twoCalls

end Session
end B2p
