import B2p.Tunnel.Commit
import B2p.Tunnel.Nonces

/-!
# A sender, a receiver and the edge between them

Everything between the two goes through an edge that ends TLS. It knows the bearer token, so it can put
any request to the receiver, and it can answer the sender's requests as it likes. It has no key: a body
that opens under the data key is one that a call of `send` has sealed before.

* `Mediated` — any number of calls with one code and any number of requests, interleaved.
* `SuccessReal` — a call for a file or an archive that returns has been finalized.
* `Relays` — the edge says that the transfer is over only in the receiver's words.
-/

namespace B2p

open Interaction Prog Fs

/-- The associated data are authenticated and nothing else: under one key and nonce a ciphertext has one
plaintext. -/
def Cipher.OnePlaintext (cipher : Cipher) : Prop :=
  ∀ key nonce aad aad' pt pt', cipher.decrypt key nonce aad' (cipher.encrypt key nonce aad pt) = some pt' →
    pt' = pt

namespace Edge

open Tunnel Server

/-! ## Runs -/

/-- What happens on either side of the edge. -/
inductive Act (C I : Type) where
  | call (c : C) (x : Thread × SendAction)
  | server (x : I × ServerAction)

section

variable {C I : Type}

/-- The log of the receiver. -/
def serverLog (log : List (Act C I)) : List (I × ServerAction) :=
  log.filterMap fun
    | .call _ _ => none
    | .server x => some x

/-- The log of one call. -/
def callLog [DecidableEq C] (c : C) (log : List (Act C I)) : List (Thread × SendAction) :=
  log.filterMap fun
    | .call c' x => if c' = c then some x else none
    | .server _ => none

theorem serverLog_append (l m : List (Act C I)) : serverLog (l ++ m) = serverLog l ++ serverLog m :=
  List.filterMap_append ..

theorem callLog_append [DecidableEq C] (c : C) (l m : List (Act C I)) :
    callLog c (l ++ m) = callLog c l ++ callLog c m :=
  List.filterMap_append ..

/-- What one call did is in the log. -/
theorem mem_callLog [DecidableEq C] {c : C} {x : Thread × SendAction} {log : List (Act C I)} :
    x ∈ callLog c log ↔ .call c x ∈ log := by
  rw [callLog, List.mem_filterMap]
  constructor
  · rintro ⟨y, hy, hx⟩
    cases y with
    | server y => cases hx
    | call c' y =>
        dsimp only at hx
        split at hx
        · next hc =>
            cases hx
            exact hc ▸ hy
        · cases hx
  · intro h
    exact ⟨_, h, if_pos rfl⟩

/-- Some call has sealed `pt` under this nonce, and got `ct`. -/
def Sealed (log : List (Act C I)) (nonce aad pt ct : Bytes) : Prop :=
  ∃ c t d index, .call c (t, (⟨.seal_ d index aad pt, ct⟩ : SendAction)) ∈ log ∧ makeNonce d index = nonce

end

section

variable {C I : Type} [DecidableEq C] [DecidableEq I] (X : Externals) (target : Target) (cfg : ServerCfg)
  (key : Key) (calls : C → Source × Bytes) (reqs : I → Request) (fs : Fs)

/-- The calls `calls` of `send`, and the requests `reqs` that reach the receiver. The network answers the
calls anything; what opens under the key was sealed before it is handled. -/
structure Mediated (log : List (Act C I)) (ps : (c : C) → (t : Thread) → SendProg t.Out)
    (qs : I → ServerProg Response) : Prop where
  calls : ∀ c, Tunnel.Call X target key (calls c).1 (calls c).2 (callLog c log) (ps c)
  handling : Handling X cfg key reqs fs (serverLog log) qs
  unforged : ∀ before i a later, log = before ++ .server (i, a) :: later → ∀ nonce aad pt,
    X.cipher.decrypt key nonce aad (reqs i).body = some pt → Sealed before nonce aad pt (reqs i).body

/-- A commit has been handled up to the end of `finalize`, which read a staged file with this hash. -/
def Finalized (log : List (I × ServerAction)) (hash : String) : Prop :=
  ∃ i active commit desc bytes tr rest, (reqs i).endpoint = .commit ∧
    own i log = ⟨.lock, some active⟩ :: tr ++ rest ∧
    Follows (Server.onDisk (finalize X cfg active commit)) tr (.ret desc) ∧
    (⟨.fs (.read active.store.dataPath), .ok bytes⟩ : ServerAction) ∈ tr ∧ X.blake3 bytes = hash

/-- **A sender's success is real**: a call for a file or an archive that returned has been finalized by the
receiver, with the hash of its content. -/
def SuccessReal (log : List (Act C I)) (ps : (c : C) → (t : Thread) → SendProg t.Out) : Prop :=
  ∀ c, (∀ content transferId, (calls c).1 ≠ .text content transferId) → ∀ desc, ps c .main = .ret desc →
    Finalized X cfg reqs (serverLog log) (X.blake3 (calls c).2)

/-! ## What the edge may say -/

/-- To the one who made the request, this response means that the transfer is over. -/
def Claims (req : Request) (resp : Response) : Prop :=
  match req.endpoint with
  | .manifest => resp.isSuccess = true ∧ ∃ ack, X.manifestAckJson.fromSlice resp.body = some ack ∧
      ack.accepted = true ∧ ack.complete = true
  | .commit => ∃ ack, X.commitAckJson.fromSlice resp.body = some ack ∧ ack.ok = true
  | _ => False

/-- The receiver has answered such a request so. -/
def Gave (log : List (I × ServerAction)) (req : Request) (resp : Response) : Prop :=
  ∃ i tr, (reqs i).endpoint = req.endpoint ∧ (reqs i).body = req.body ∧ tr <+: own i log ∧
    Follows (handler X cfg key (reqs i)) tr (.ret resp)

/-- The edge says that the transfer is over only when the receiver has said so to this very request. -/
def Relays (before : List (Act C I)) : Act C I → Prop
  | .call _ (.main, ⟨.http req, .ok resp⟩) =>
      Claims X req resp → Gave X cfg key reqs (serverLog before) req resp
  | _ => True

end

/-! ## What the receiver says -/

section handlers

variable {X : Externals} {cfg : ServerCfg} {key : Key}

/-- A manifest of a file or an archive is never complete at once. -/
theorem given_handleManifest_incomplete {body : Bytes} {m : Manifest}
    (hopen : openJson X key X.manifestJson .manifest [] body = some m) (hkind : m.kind ≠ .text) :
    Given (fun _ _ => True) (fun _ => True) (fun r => r.isSuccess = true → ∀ ack,
      X.manifestAckJson.fromSlice r.body = some ack → ack.complete = false)
        (handleManifest X cfg key body) := by
  have hdeclined : (declined X).isSuccess = true → ∀ ack,
      X.manifestAckJson.fromSlice (declined X).body = some ack → ack.complete = false := by
    intro _ ack hack
    rw [declined, Codec.fromSlice_toVec] at hack
    cases hack
    rfl
  rw [handleManifest, hopen]
  dsimp only
  split
  · exact hdeclined
  · refine .op trivial fun destExists _ => (given_true _).bind fun answer _ => ?_
    rcases answer with _ | _ | _
    · -- nobody is there to ask
      intro h
      cases h
    · exact hdeclined
    · show Given _ _ _ (acceptManifest X m (safeName m.name))
      rw [acceptManifest, if_neg hkind]
      refine (given_true _).bind fun opened _ => ?_
      cases opened with
      | error e =>
          refine .op trivial fun _ _ => ?_
          intro h
          cases h
      -- the only reply to an accepted file says that there is more to come
      | ok store =>
          refine .op trivial fun _ _ => .op trivial fun _ _ => .op trivial fun _ _ => ?_
          intro _ ack hack
          rw [Codec.fromSlice_toVec] at hack
          cases hack
          rfl

/-- What `finalize` has hashed when it succeeds. -/
theorem read_of_follows_finalize {active : ActiveTransfer} {commit : Commit} {tr : List ServerAction}
    {desc : String} (h : Follows (Server.onDisk (finalize X cfg active commit)) tr (.ret desc)) :
    ∃ bytes, (⟨.fs (.read active.store.dataPath), .ok bytes⟩ : ServerAction) ∈ tr ∧
      X.blake3 bytes = commit.blake3Hex := by
  rw [finalize] at h
  split at h
  · cases h
  · cases h with
    | @cons _ _ r tr _ h =>
        cases r with
        | error e => cases h
        | ok bytes =>
            refine ⟨bytes, List.mem_cons_self, ?_⟩
            by_contra hne
            replace h : Follows (Server.onDisk (if X.blake3 bytes ≠ commit.blake3Hex then _ else _)) tr _ := h
            rw [if_pos hne] at h
            cases h

/-- **A commit that is answered `ok: true`** has opened and has been finalized. An empty body is no JSON. -/
theorem finalize_of_follows_handleCommit (hjson : X.commitAckJson.fromSlice [] = none) {body : Bytes}
    {tr : List ServerAction} {resp : Response} (h : Follows (handleCommit X cfg key body) tr (.ret resp))
    {ack : CommitAck} (hack : X.commitAckJson.fromSlice resp.body = some ack) (hok : ack.ok = true) :
    ∃ active commit desc fin rest, tr = ⟨.lock, some active⟩ :: fin ++ rest ∧
      openJson X key X.commitJson .commit (asBytes active.manifest.transferId) body = some commit ∧
      Follows (Server.onDisk (finalize X cfg active commit)) fin (.ret desc) := by
  -- the refusals have no body
  have hrefused : ∀ {t code rest}, Follows (Prog.step (E := serverEffects) (.unlock t) fun _ =>
      (Prog.ret (status code) : ServerProg Response)) rest (.ret resp) → False := by
    intro t code rest hf
    cases hf with
    | cons hf =>
        cases hf
        rw [status, hjson] at hack
        cases hack
  cases h with
  | @cons _ _ slot tr _ h =>
  cases slot with
  | none => exact (hrefused h).elim
  | some active =>
      dsimp only [Prog.bind] at h
      split at h
      · exact (hrefused h).elim
      · next commit hopen =>
          obtain ⟨result, fin, rest, rfl, hfin, hrest⟩ := h.of_bind_ret
          -- the reply is the outcome of `finalize`
          have hresult : resp = ⟨200, X.commitAckJson.toVec (commitReply result)⟩ := by
            refine (Given.follows (A := fun _ _ => True) (P := fun _ => True) (Q := (· = _)) ?_ hrest
              fun _ _ => trivial).2
            cases result with
            | ok desc => exact ⟨trivial, fun _ _ => ⟨trivial, fun _ _ => ⟨trivial, fun _ _ => rfl⟩⟩⟩
            | error e => exact ⟨trivial, fun _ _ => ⟨trivial, fun _ _ => rfl⟩⟩
          rw [hresult, Codec.fromSlice_toVec, Option.some.injEq] at hack
          subst hack
          cases result with
          | error e => cases hok
          | ok desc => exact ⟨active, commit, desc, fin, rest, rfl, hopen, hfin.attempt_inv⟩

end handlers

/-! ## What a call makes of it -/

section calls

variable {C I : Type} [DecidableEq C] [DecidableEq I] {X : Externals} {target : Target} {cfg : ServerCfg}
  {key : Key} {calls : C → Source × Bytes} {reqs : I → Request} {fs : Fs}

theorem Finalized.append {log : List (I × ServerAction)} {hash : String}
    (h : Finalized X cfg reqs log hash) (later : List (I × ServerAction)) :
    Finalized X cfg reqs (log ++ later) hash := by
  obtain ⟨i, active, commit, desc, bytes, tr, rest, hreq, hown, hfin⟩ := h
  refine ⟨i, active, commit, desc, bytes, tr, rest ++ own i later, hreq, ?_, hfin⟩
  rw [own_append, hown, List.append_assoc]

/-- An answer that was given stays given. -/
theorem Gave.append {log : List (I × ServerAction)} {req : Request} {resp : Response}
    (h : Gave X cfg key reqs log req resp) (later : List (I × ServerAction)) :
    Gave X cfg key reqs (log ++ later) req resp := by
  obtain ⟨i, tr, hend, hbody, hpre, hf⟩ := h
  refine ⟨i, tr, hend, hbody, ?_, hf⟩
  rw [own_append]
  exact hpre.trans (List.prefix_append _ _)

variable (key) in
/-- The receiver never says that it has a file or an archive on being offered it. -/
theorem not_gave_complete {log : List (I × ServerAction)} {req : Request} {resp : Response} {m : Manifest}
    (hreq : req.endpoint = .manifest)
    (hbody : req.body = X.cipher.seal_ key .manifest 0 [] (X.manifestJson.toVec m)) (hkind : m.kind ≠ .text)
    (hclaims : Claims X req resp) : ¬ Gave X cfg key reqs log req resp := by
  rintro ⟨i, tr, hend, hsame, -, hf⟩
  rw [Claims, hreq] at hclaims
  obtain ⟨hsuccess, ack, hack, -, hcomplete⟩ := hclaims
  have hopen : openJson X key X.manifestJson .manifest [] (reqs i).body = some m := by
    rw [hsame, hbody, openJson, Cipher.open_seal_, Option.bind_some, Codec.fromSlice_toVec]
  rw [handler, hend, hreq] at hf
  have hincomplete := ((given_handleManifest_incomplete hopen hkind).follows hf fun _ _ => trivial).2
  rw [hincomplete hsuccess ack hack] at hcomplete
  cases hcomplete

/-- If the receiver says that a commit is done, it is, and the hash is the one in the commit. -/
theorem finalized_of_gave (hone : X.cipher.OnePlaintext) (hjson : X.commitAckJson.fromSlice [] = none)
    {log : List (I × ServerAction)} {req : Request} {resp : Response} {aad : Bytes} {commit : Commit}
    (hreq : req.endpoint = .commit)
    (hbody : req.body = X.cipher.seal_ key .commit 0 aad (X.commitJson.toVec commit))
    (hclaims : Claims X req resp) (hgave : Gave X cfg key reqs log req resp) :
    Finalized X cfg reqs log commit.blake3Hex := by
  obtain ⟨i, tr, hend, hsame, hpre, hf⟩ := hgave
  rw [Claims, hreq] at hclaims
  obtain ⟨ack, hack, hok⟩ := hclaims
  have hendpoint : (reqs i).endpoint = .commit := hend.trans hreq
  rw [handler, hendpoint] at hf
  obtain ⟨active, commit', desc, fin, rest, rfl, hopen, hfin⟩ :=
    finalize_of_follows_handleCommit hjson hf hack hok
  -- what it opened is what was sealed, whatever transfer is active
  have hcommit : commit' = commit := by
    rw [openJson, hsame, hbody] at hopen
    obtain ⟨pt, hpt, hdecode⟩ := Option.bind_eq_some_iff.mp hopen
    rw [hone _ _ _ _ _ _ hpt, Codec.fromSlice_toVec, Option.some.injEq] at hdecode
    exact hdecode.symm
  obtain ⟨bytes, hread, hhash⟩ := read_of_follows_finalize hfin
  obtain ⟨later, hlater⟩ := hpre
  refine ⟨i, active, commit', desc, bytes, fin, rest ++ later, hendpoint, ?_, hfin, hread, ?_⟩
  · rw [← hlater, List.append_assoc]
  · rw [hhash, hcommit]

variable (X cfg key reqs) in
/-- What `main` may be told over the network. -/
def Trusted (log : List (I × ServerAction)) : (o : SendOp) → o.Res → Prop
  | .http req, .ok resp => Claims X req resp → Gave X cfg key reqs log req resp
  | _, _ => True

theorem json_eq_ok {T : Type} {c : Codec T} {r : Response} {v : T} (h : json c r = .ok v) :
    c.fromSlice r.body = some v := by
  rw [json] at h
  split at h
  · next hv =>
      cases h
      exact hv
  · cases h

theorem readAck_eq_ok {resp : Except String Response} {ack : ManifestAck}
    (h : readAck X target resp = .ok ack) :
    ∃ r, resp = .ok r ∧ r.isSuccess = true ∧ X.manifestAckJson.fromSlice r.body = some ack := by
  cases resp with
  | error chain => cases h
  | ok r =>
      rw [readAck] at h
      split at h
      · cases h
      split at h
      · cases h
      next hsuccess =>
      cases hjson : json X.manifestAckJson r with
      | error e =>
          rw [hjson] at h
          cases h
      | ok ack' =>
          rw [hjson] at h
          cases h
          exact ⟨r, rfl, Bool.eq_true_of_not_eq_false hsuccess, json_eq_ok hjson⟩

variable (key) in
/-- **A call that returns**, told only what the receiver said, has been finalized. -/
theorem given_send_finalized (hone : X.cipher.OnePlaintext) (hjson : X.commitAckJson.fromSlice [] = none)
    {source : Source} {content : Bytes} (hblob : ∀ text transferId, source ≠ .text text transferId)
    {log : List (I × ServerAction)} :
    Given (fun o r => Local X key content o r ∧ Trusted X cfg key reqs log o r) (fun _ => True)
      (fun _ => Finalized X cfg reqs log (X.blake3 content)) (send X target source) := by
  cases source with
  | text text transferId => exact absurd rfl (hblob text transferId)
  | blob kind hkind name entries totalSize transferId =>
      refine .op trivial fun _ _ => .ofExcept fun _ _ => .op trivial fun body hbody =>
        .op trivial fun resp hresp => .ofExcept fun ack hack => ?_
      split
      · trivial
      · next haccepted =>
        obtain ⟨r, rfl, hsuccess, hparsed⟩ := readAck_eq_ok hack
        split
        · -- it claims to have the file already
          next hcomplete =>
          have hclaims : Claims X ⟨.manifest, target.token, body⟩ r :=
            ⟨hsuccess, ack, hparsed, Bool.eq_true_of_not_eq_false haccepted, hcomplete⟩
          exact absurd (hresp.2 hclaims) (not_gave_complete key rfl hbody.1 hkind hclaims)
        · refine .op trivial fun _ _ => .ofExcept fun _ _ => ?_
          have hfile : Given (fun o r => Local X key content o r ∧ Trusted X cfg key reqs log o r)
              (fun _ => True) (fun h => h = X.blake3 content) (blake3File X) :=
            (given_blake3File : Given _ (Proper X target key (.text "" "") content .main) _ _).mono
              (fun _ _ h => h.1) (fun _ _ => trivial) fun _ h => h
          refine hfile.bind fun hash hhash => .op trivial fun body hbody => .op trivial fun resp hresp =>
            .ofExcept fun r hr => .ofExcept fun ack hack => ?_
          split
          · trivial
          -- the commit was answered with `ok`
          · next hok =>
            obtain rfl : resp = .ok r := by
              cases resp with
              | ok r' =>
                  cases hr
                  rfl
              | error e => cases hr
            have hclaims : Claims X ⟨.commit, target.token, body⟩ r :=
              ⟨ack, json_eq_ok hack, Bool.eq_true_of_not_eq_false hok⟩
            have hsealed : body = X.cipher.seal_ key .commit 0 (asBytes transferId)
                (X.commitJson.toVec ⟨X.blake3 content⟩) := hhash ▸ hbody.1
            exact finalized_of_gave hone hjson rfl hsealed hclaims (hresp.2 hclaims)

/-- **A sender's success is real as long as the edge says that a transfer is over only in the receiver's
words.** -/
theorem successReal_of_allMeet (hone : X.cipher.OnePlaintext) (hjson : X.commitAckJson.fromSlice [] = none)
    {log : List (Act C I)} {ps : (c : C) → (t : Thread) → SendProg t.Out} {qs : I → ServerProg Response}
    (hrun : Mediated X target cfg key calls reqs fs log ps qs)
    (hmeet : Admits (Relays X cfg key reqs) [] log) : SuccessReal X cfg calls reqs log ps := by
  intro c hblob desc hret
  have hfollows := (hrun.calls c).follows .main
  rw [hret] at hfollows
  refine ((given_send_finalized key hone hjson hblob).follows hfollows ?_).2
  -- the receiver has given every answer that claims something
  intro a ha
  have hmem := mem_own.mp ha
  obtain ⟨_, _, -, -, hlocal⟩ := (hrun.calls c).allowed_of_mem hmem
  refine ⟨hlocal, ?_⟩
  -- what it was told then, the receiver has said by now
  obtain ⟨before, later, rfl⟩ := List.append_of_mem (mem_callLog.mp hmem)
  have hat : Relays X cfg key reqs before (.call c (.main, a)) := hmeet.at
  obtain ⟨o, r⟩ := a
  cases o with
  | http req =>
      cases r with
      | error e => trivial
      | ok resp =>
          intro hclaims
          rw [serverLog_append]
          exact (hat hclaims).append _
  | _ => trivial

end calls

/-! ## A file of one byte -/

/-- `serde_json` reads nothing from nothing. -/
def marked {T : Type} (c : Codec T) : Codec T where
  toVec v := 1 :: c.toVec v
  fromSlice b := match b with
    | [] => none
    | _ :: b => c.fromSlice b
  fromSlice_toVec v := c.fromSlice_toVec v

def someWorld : Externals :=
  { Externals.ideal fun _ => "" with commitAckJson := marked (Codec.unary CommitAck) }

def oneByte : Source := .blob .file Kind.file_ne_text "a" [] 1 "t"

def oneCall (_ : Unit) : Source × Bytes := (oneByte, [7])

/-- What a call for it asks of the receiver. -/
def itsRequests : Fin 3 → Request
  | 0 => ⟨.manifest, "token", someWorld.cipher.seal_ [] .manifest 0 []
      (someWorld.manifestJson.toVec (buildManifest oneByte))⟩
  | 1 => ⟨.chunk 0, "token", someWorld.cipher.seal_ [] .data 0 (asBytes "t") [7]⟩
  | 2 => ⟨.commit, "token", someWorld.cipher.seal_ [] .commit 0 (asBytes "t")
      (someWorld.commitJson.toVec ⟨someWorld.blake3 [7]⟩)⟩

section oneByte

/-- What the one call does. -/
def acts (l : List (Thread × SendAction)) : List (Act Unit (Fin 3)) := l.map (.call ())

def servers (l : List (Fin 3 × ServerAction)) : List (Act Unit (Fin 3)) := l.map .server

theorem callLog_acts (l : List (Thread × SendAction)) : callLog () (acts l) = l := by
  simp [callLog, acts, List.filterMap_map]

theorem callLog_servers (l : List (Fin 3 × ServerAction)) : callLog () (servers l) = [] := by
  simp [callLog, servers]

theorem serverLog_acts (l : List (Thread × SendAction)) : serverLog (acts l) = [] := by
  simp [serverLog, acts]

theorem serverLog_servers (l : List (Fin 3 × ServerAction)) : serverLog (servers l) = l := by
  simp [serverLog, servers, List.filterMap_map]

/-! ### When the receiver is not asked -/

/-- **Whatever `main` returns after asking the edge alone**, the receiver has finalized nothing. -/
theorem exists_invented {tr : List SendAction} {desc : String}
    (hpath : Follows (send someWorld lenient.target oneByte) tr (.ret desc))
    (hadm : Admits (fun log x => Scheduled someWorld lenient.target oneByte log x ∧
      Local someWorld [] [7] x.2.op x.2.res) [] (logOf tr 0 [])) :
    ∃ log ps qs, Mediated someWorld lenient.target lenient.cfg [] oneCall itsRequests blank log ps qs ∧
      ps () .main = .ret desc ∧ ¬ SuccessReal someWorld lenient.cfg oneCall itsRequests log ps := by
  obtain ⟨qs, hcall⟩ : ∃ qs, Tunnel.Call someWorld lenient.target [] oneByte [7] (logOf tr 0 []) qs :=
    Tunnel.Call.of_paths hpath (.nil _) hadm
  have hmain : qs .main = .ret desc := by
    have hfollows := hcall.follows .main
    rw [own_main_logOf] at hfollows
    exact hfollows.functional hpath
  refine ⟨acts (logOf tr 0 []), fun _ => qs, fun i => handler someWorld lenient.cfg [] (itsRequests i),
    ⟨fun _ => (callLog_acts _).symm ▸ hcall, ?_, ?_⟩, hmain, ?_⟩
  -- no request has arrived
  · rw [serverLog_acts]
    exact ⟨fun i => .nil _, trivial⟩
  · intro before i a later heq
    have hserver := serverLog_acts (logOf tr 0 [])
    rw [heq, serverLog_append] at hserver
    cases (List.append_eq_nil_iff.mp hserver).2
  -- so nothing was finalized
  · intro hreal
    obtain ⟨i, active, commit, desc, bytes, fin, rest, -, hown, -⟩ := hreal () (by rintro _ _ ⟨⟩) _ hmain
    rw [serverLog_acts] at hown
    cases hown

/-- `main` posts the commit and is told that it is done. -/
def lastAction : SendAction :=
  ⟨.http (itsRequests 2), .ok ⟨200, someWorld.commitAckJson.toVec ⟨true, none⟩⟩⟩

theorem json_commitAck : (ofExcept (json someWorld.commitAckJson
    ⟨200, someWorld.commitAckJson.toVec ⟨true, none⟩⟩)
    : SendProg CommitAck) = .ret ⟨true, none⟩ := by
  rw [json, Codec.fromSlice_toVec]
  rfl

/-- `main` is told that every chunk is there, and that the commit is done. -/
def doneActions : List SendAction :=
  commitActions someWorld lenient.target [] oneByte [7] "t" ++ [lastAction]

theorem follows_completeActions : Follows (send someWorld lenient.target oneByte)
    (ackActions someWorld lenient.target [] oneByte ⟨true, true, []⟩) (.ret "text delivered") := by
  refine .cons (.cons (.cons ?_))
  show Follows (ofExcept (readAck someWorld lenient.target _) >>= _) [] _
  rw [readAck_ok]
  exact .nil _

theorem follows_doneActions :
    Follows (send someWorld lenient.target oneByte) doneActions (.ret "transfer complete") := by
  have hsource : oneByte = .blob .file (by decide) "a" [] 1 "t" := rfl
  have hack := follows_ackActions someWorld lenient.target []
    (List.range (buildManifest oneByte).totalChunks) hsource
  rw [sendBlob, missing_range] at hack
  rw [doneActions, commitActions, List.append_assoc]
  refine hack.append (.cons (.cons (.cons (.cons ?_))))
  show Follows (ofExcept (json someWorld.commitAckJson _) >>= _) [] _
  rw [json_commitAck]
  exact .nil _

theorem admits_doneActions : Admits (fun log x => Scheduled someWorld lenient.target oneByte log x ∧
    Local someWorld [] [7] x.2.op x.2.res) [] (logOf doneActions 0 []) :=
  ⟨⟨trivial, trivial⟩, ⟨trivial, rfl⟩, ⟨trivial, trivial⟩, ⟨fun _ hi => absurd hi List.not_mem_nil, trivial⟩,
    ⟨trivial, rfl⟩, ⟨trivial, rfl⟩, ⟨trivial, trivial⟩, trivial⟩

/-- **The edge can make a sender believe anything**: it says that the manifest completes the transfer, or it
says that the commit is done, and the receiver has heard of neither. -/
theorem not_successReal_invented :
    (∃ log ps qs, Mediated someWorld lenient.target lenient.cfg [] oneCall itsRequests blank log ps qs ∧
      ps () .main = .ret "text delivered" ∧ ¬ SuccessReal someWorld lenient.cfg oneCall itsRequests log ps) ∧
    ∃ log ps qs, Mediated someWorld lenient.target lenient.cfg [] oneCall itsRequests blank log ps qs ∧
      ps () .main = .ret "transfer complete" ∧
      ¬ SuccessReal someWorld lenient.cfg oneCall itsRequests log ps :=
  ⟨exists_invented follows_completeActions
      ⟨⟨trivial, trivial⟩, ⟨trivial, rfl⟩, ⟨trivial, trivial⟩, trivial⟩,
    exists_invented follows_doneActions admits_doneActions⟩

/-! ### When it is, and answers -/

/-- The call up to its first request. -/
def askLog : List (Thread × SendAction) := (offerActions someWorld [] oneByte).map fun a => (.main, a)

/-- The receiver wants the chunk; it is read and sealed. -/
def chunkLog : List (Thread × SendAction) :=
  (.main, ⟨.http (itsRequests 0), .ok ⟨200, someWorld.manifestAckJson.toVec ⟨true, false, []⟩⟩⟩) ::
    (chunkActions someWorld [] 1 "t" 0 [7]).map fun a => (.upload 0, a)

/-- The chunk thread, to its end. -/
def uploadActions : List SendAction :=
  chunkActions someWorld [] 1 "t" 0 [7] ++ [⟨.http (itsRequests 1), .ok (status 200)⟩]

/-- `main` from the end of the upload up to the commit. -/
def hashActions : List SendAction :=
  [⟨.uploads [0], .ok ()⟩, ⟨.readAll, .ok [7]⟩,
    ⟨.seal_ .commit 0 (asBytes "t") (someWorld.commitJson.toVec ⟨someWorld.blake3 [7]⟩), (itsRequests 2).body⟩]

/-- The receiver has the chunk. -/
def hashLog : List (Thread × SendAction) :=
  (.upload 0, ⟨.http (itsRequests 1), .ok (status 200)⟩) :: hashActions.map fun a => (.main, a)

theorem missing_oneByte : Tunnel.missing (buildManifest oneByte) [] = [0] := by decide

theorem follows_uploadActions :
    Follows (uploadOf someWorld lenient.target oneByte 0) uploadActions (.ret ()) :=
  .cons (.cons (.cons (.nil _)))

theorem follows_hashActions : Follows (sendBlob someWorld lenient.target (buildManifest oneByte) [] "t")
    (hashActions ++ [lastAction]) (.ret "transfer complete") := by
  rw [sendBlob, missing_oneByte]
  refine .cons (.cons (.cons (.cons ?_)))
  show Follows (ofExcept (json someWorld.commitAckJson _) >>= _) [] _
  rw [json_commitAck]
  exact .nil _

/-- What `main` does until it waits for the upload. -/
def waitActions : List SendAction := ackActions someWorld lenient.target [] oneByte ⟨true, false, []⟩

theorem follows_waitActions : Follows (send someWorld lenient.target oneByte) waitActions
    (sendBlob someWorld lenient.target (buildManifest oneByte) [] "t") :=
  follows_ackActions someWorld lenient.target [] [] rfl

/-- Then it is the chunk's turn. -/
theorem admits_uploadActions : Admits (fun log x => Scheduled someWorld lenient.target oneByte log x ∧
    Local someWorld [] [7] x.2.op x.2.res) (logOf waitActions 0 [])
      (uploadActions.map fun a => (.upload 0, a)) := by
  have hwaits : Waits someWorld lenient.target oneByte (logOf waitActions 0 []) [0] := by
    have hwait := follows_waitActions
    rw [sendBlob, missing_oneByte] at hwait
    rw [Waits, own_main_logOf]
    exact ⟨_, hwait⟩
  have hsched : ∀ pre a post, uploadActions = pre ++ a :: post → Scheduled someWorld lenient.target oneByte
      (logOf waitActions 0 [] ++ pre.map fun a => (.upload 0, a)) (.upload 0, a) :=
    fun pre a post => scheduled_alone hwaits (List.nil_append [0]).symm (List.nodup_singleton 0)
      (List.forall_mem_nil _) (fun j _ => by rw [own_upload_logOf, ite_self]) (uploadOf_eq_step rfl)
      follows_uploadActions
  refine ⟨⟨?_, by decide, by decide⟩, ⟨?_, rfl⟩, ⟨?_, trivial⟩, trivial⟩
  · simpa using hsched [] _ _ rfl
  · simpa using hsched [_] _ _ rfl
  · simpa using hsched [_, _] _ _ rfl

theorem exists_call : ∃ qs, Tunnel.Call someWorld lenient.target [] oneByte [7]
    (askLog ++ chunkLog ++ hashLog ++ [(.main, lastAction)]) qs ∧ qs .main = .ret "transfer complete" := by
  -- `main` waits
  obtain ⟨qs₀, hcall₀⟩ :
      ∃ qs, Tunnel.Call someWorld lenient.target [] oneByte [7] (logOf waitActions 0 []) qs :=
    Tunnel.Call.of_paths follows_waitActions (.nil _)
      ⟨⟨trivial, trivial⟩, ⟨trivial, rfl⟩, ⟨trivial, trivial⟩, trivial⟩
  have hmain₀ := (own_main_logOf _ 0 [] ▸ hcall₀.follows .main).functional follows_waitActions
  have hupload₀ : qs₀ (.upload 0) = uploadOf someWorld lenient.target oneByte 0 := by
    have hfollows := hcall₀.follows (.upload 0)
    rw [own_upload_logOf, if_pos rfl] at hfollows
    exact hfollows.of_nil.symm
  -- the chunk is uploaded
  have hcall₁ := hcall₀.alone (hupload₀ ▸ follows_uploadActions) admits_uploadActions
  -- and `main` goes on
  have hmain₁ : Follows (Function.update qs₀ (.upload 0) (.ret ()) .main) (hashActions ++ [lastAction])
      (.ret "transfer complete") := by
    rw [Function.update_of_ne (by rintro ⟨⟩), hmain₀]
    exact follows_hashActions
  have hcall₂ := hcall₁.alone hmain₁
    ⟨⟨?_, trivial⟩, ⟨trivial, rfl⟩, ⟨trivial, rfl⟩, ⟨trivial, trivial⟩, trivial⟩
  · exact ⟨_, hcall₂, Function.update_self _ _ _⟩
  · intro j hj
    rw [List.mem_singleton.mp hj, own_append, own_upload_logOf, if_pos rfl, List.nil_append, own_map_self]
    exact follows_uploadActions

/-- What a thread has sealed, and nothing else, opens. -/
theorem sealed_of_decrypt {log : List (Act Unit (Fin 3))} {t : Thread} (d : Domain) (index : Nat)
    {aad pt : Bytes}
    (haad : aad.length ≤ 6) (hmem : .call () (t, (⟨.seal_ d index aad pt,
      someWorld.cipher.seal_ [] d index aad pt⟩ : SendAction)) ∈ log) {nonce aad' pt' : Bytes}
    (h : someWorld.cipher.decrypt [] nonce aad' (someWorld.cipher.seal_ [] d index aad pt) = some pt') :
    Sealed log nonce aad' pt' (someWorld.cipher.seal_ [] d index aad pt) := by
  obtain ⟨htag, rfl⟩ := Cipher.ideal_decrypt_eq h
  obtain ⟨rfl, rfl⟩ := Cipher.tag_inj (Cipher.plain_makeNonce d index haad) htag
  exact ⟨(), t, d, index, hmem, rfl⟩

/-- What comes before an entry that is not in the first part of a log. -/
theorem prefix_of_not_mem {α : Type} {l m before later : List α} {x : α} (h : l ++ m = before ++ x :: later)
    (hx : x ∉ l) : l <+: before := by
  rcases List.append_eq_append_iff.mp h with ⟨c, rfl, -⟩ | ⟨c, rfl, hc⟩
  · exact List.prefix_append _ _
  · cases c with
    | nil => rw [List.append_nil]
    | cons y c =>
        rw [List.cons_append, List.cons.injEq] at hc
        exact absurd (List.mem_append_right _ (hc.1 ▸ List.mem_cons_self)) hx

/-- The whole run: the receiver handles the requests as in `l₀`, `l₁` and `l₂`, each before it is answered. -/
def wholeRun (l₀ l₁ l₂ : List (Fin 3 × ServerAction)) : List (Act Unit (Fin 3)) :=
  acts askLog ++ (servers l₀ ++ (acts chunkLog ++ (servers l₁ ++ (acts hashLog ++ (servers l₂ ++
    acts [(.main, lastAction)])))))

variable {l₀ l₁ l₂ : List (Fin 3 × ServerAction)}

theorem serverLog_wholeRun : serverLog (wholeRun l₀ l₁ l₂) = l₀ ++ (l₁ ++ l₂) := by
  simp [wholeRun, serverLog_append, serverLog_acts, serverLog_servers]

theorem callLog_wholeRun :
    callLog () (wholeRun l₀ l₁ l₂) = askLog ++ chunkLog ++ hashLog ++ [(.main, lastAction)] := by
  simp [wholeRun, callLog_append, callLog_acts, callLog_servers]

theorem server_not_mem_acts {x : Fin 3 × ServerAction} {l : List (Thread × SendAction)} :
    Act.server x ∉ acts l := by
  simp [acts]

/-- A request is handled after what the call has done before. -/
theorem before_of_wholeRun (h₀ : ∀ x ∈ l₀, x.1 = 0) (h₁ : ∀ x ∈ l₁, x.1 = 1)
    {before later : List (Act Unit (Fin 3))} {i : Fin 3} {a : ServerAction}
    (heq : wholeRun l₀ l₁ l₂ = before ++ .server (i, a) :: later) :
    acts askLog <+: before ∧ (i ≠ 0 → acts askLog ++ (servers l₀ ++ acts chunkLog) <+: before) ∧
      (i = 2 → acts askLog ++ (servers l₀ ++ (acts chunkLog ++ (servers l₁ ++ acts hashLog))) <+: before) := by
  -- a handler is alone in its part of the run
  have hservers : ∀ {l : List (Fin 3 × ServerAction)} {n : Fin 3}, (∀ x ∈ l, x.1 = n) → i ≠ n →
      Act.server (i, a) ∉ servers l := by
    intro l n hl hi hmem
    obtain ⟨x, hx, hxa⟩ := List.mem_map.mp hmem
    cases hxa
    exact hi (hl _ hx)
  refine ⟨prefix_of_not_mem heq server_not_mem_acts, fun hi => ?_, fun hi => ?_⟩
  · have hsplit : wholeRun l₀ l₁ l₂ = acts askLog ++ (servers l₀ ++ acts chunkLog) ++
        (servers l₁ ++ (acts hashLog ++ (servers l₂ ++ acts [(.main, lastAction)]))) := by
      simp [wholeRun]
    rw [hsplit] at heq
    refine prefix_of_not_mem heq ?_
    simp only [List.mem_append, server_not_mem_acts, hservers h₀ hi, or_self, not_false_eq_true]
  · have hsplit : wholeRun l₀ l₁ l₂ = acts askLog ++ (servers l₀ ++ (acts chunkLog ++
        (servers l₁ ++ acts hashLog))) ++ (servers l₂ ++ acts [(.main, lastAction)]) := by
      simp [wholeRun]
    rw [hsplit] at heq
    refine prefix_of_not_mem heq ?_
    have hne : i ≠ 0 ∧ i ≠ 1 := by
      rw [hi]
      decide
    simp only [List.mem_append, server_not_mem_acts, hservers h₀ hne.1, hservers h₁ hne.2, or_self,
      not_false_eq_true]

/-- Each body is sealed before the request is handled. -/
theorem unforged_wholeRun (h₀ : ∀ x ∈ l₀, x.1 = 0) (h₁ : ∀ x ∈ l₁, x.1 = 1)
    {before later : List (Act Unit (Fin 3))} {i : Fin 3} {a : ServerAction}
    (heq : wholeRun l₀ l₁ l₂ = before ++ .server (i, a) :: later) {nonce aad pt : Bytes}
    (h : someWorld.cipher.decrypt [] nonce aad (itsRequests i).body = some pt) :
    Sealed before nonce aad pt (itsRequests i).body := by
  obtain ⟨hask, hchunk, hhash⟩ := before_of_wholeRun h₀ h₁ heq
  have hmem : ∀ {x : Thread × SendAction} {l : List (Thread × SendAction)}, x ∈ l →
      Act.call () x ∈ acts l := fun hx => List.mem_map_of_mem hx
  -- each body was sealed in the part before
  match i with
  | 0 =>
      refine sealed_of_decrypt .manifest 0 (Nat.zero_le _) (t := .main) (hask.subset (hmem ?_)) h
      exact List.mem_cons_of_mem _ List.mem_cons_self
  | 1 =>
      refine sealed_of_decrypt .data 0 (by decide) (t := .upload 0) ((hchunk (by decide)).subset ?_) h
      refine List.mem_append_right _ (List.mem_append_right _ (hmem ?_))
      exact List.mem_cons_of_mem _ (List.mem_cons_of_mem _ List.mem_cons_self)
  | 2 =>
      refine sealed_of_decrypt .commit 0 (by decide) (t := .main) ((hhash rfl).subset ?_) h
      refine List.mem_append_right _ (List.mem_append_right _ (List.mem_append_right _
        (List.mem_append_right _ (hmem ?_))))
      exact List.mem_of_getElem? (i := 3) rfl

/-- The edge says nothing of its own. -/
theorem admits_wholeRun (hgave : Gave someWorld lenient.cfg [] itsRequests (l₀ ++ (l₁ ++ l₂)) (itsRequests 2)
      ⟨200, someWorld.commitAckJson.toVec ⟨true, none⟩⟩) :
    Admits (Relays someWorld lenient.cfg [] itsRequests) [] (wholeRun l₀ l₁ l₂) := by
  have hservers : ∀ past l, Admits (Relays someWorld lenient.cfg [] itsRequests) past (servers l) := by
    intro past l
    refine admits_of_forall fun x hx past => ?_
    obtain ⟨y, -, rfl⟩ := List.mem_map.mp hx
    trivial
  refine admits_append.mpr ⟨⟨trivial, trivial, trivial⟩, ?_⟩
  refine admits_append.mpr ⟨hservers _ _, admits_append.mpr ⟨⟨?_, trivial, trivial, trivial⟩, ?_⟩⟩
  · -- the manifest is taken, and the transfer not over
    rintro ⟨-, ack, hack, -, hcomplete⟩
    rw [Codec.fromSlice_toVec] at hack
    cases hack
    cases hcomplete
  refine admits_append.mpr ⟨hservers _ _, admits_append.mpr ⟨⟨trivial, trivial, trivial, trivial, trivial⟩, ?_⟩⟩
  refine admits_append.mpr ⟨hservers _ _, ?_, trivial⟩
  intro _
  simpa only [serverLog_append, serverLog_acts, serverLog_servers, List.nil_append, List.append_nil,
    List.append_assoc] using hgave

/-- A run in which the edge passes everything on, and the file is received. -/
theorem successReal_of_allMeet_oneByte : ∃ log ps qs,
    Mediated someWorld lenient.target lenient.cfg [] oneCall itsRequests blank log ps qs ∧
    Admits (Relays someWorld lenient.cfg [] itsRequests) [] log ∧ ps () .main = .ret "transfer complete" ∧
    SuccessReal someWorld lenient.cfg oneCall itsRequests log ps := by
  -- the receiver handles the manifest, the chunk, and then the commit
  obtain ⟨l₀, l₁, pre, t, qs, disk, store, h, hans, hmine₀, hmine₁, -⟩ :=
    (resting_start someWorld lenient.cfg [] itsRequests blank).oneChunk lenient [7] 0 1 2
      (m := buildManifest oneByte) (by decide) (by decide) (by decide) rfl rfl rfl rfl rfl rfl rfl
      (by decide) (by decide) blank_wf (blank_clear _) rfl
  have hlog : l₀ ++ l₁ ++ pre ++ [(2, ⟨.unlock t, ()⟩)] = l₀ ++ (l₁ ++ (pre ++ [(2, ⟨.unlock t, ()⟩)])) := by
    simp
  rw [hlog] at h
  have hgave : Gave someWorld lenient.cfg [] itsRequests (l₀ ++ (l₁ ++ (pre ++ [(2, ⟨.unlock t, ()⟩)])))
      (itsRequests 2) ⟨200, someWorld.commitAckJson.toVec ⟨true, none⟩⟩ :=
    ⟨2, _, rfl, rfl, List.prefix_rfl, hans.ok ▸ h.run.follows 2⟩
  -- the call, with what the receiver has said
  obtain ⟨ps, hcall, hmain⟩ := exists_call
  have hrun : Mediated someWorld lenient.target lenient.cfg [] oneCall itsRequests blank
      (wholeRun l₀ l₁ (pre ++ [(2, ⟨.unlock t, ()⟩)])) (fun _ => ps) qs := by
    refine ⟨fun _ => callLog_wholeRun.symm ▸ hcall, ?_,
      fun before i a later heq _ _ _ => unforged_wholeRun hmine₀ hmine₁ heq⟩
    rw [serverLog_wholeRun]
    exact h.run
  have honce : someWorld.cipher.OnePlaintext := fun _ _ _ _ _ _ h => (Cipher.ideal_decrypt_eq h).2
  exact ⟨_, fun _ => ps, qs, hrun, admits_wholeRun hgave, hmain,
    successReal_of_allMeet honce rfl hrun (admits_wholeRun hgave)⟩

end oneByte

end Edge
end B2p
