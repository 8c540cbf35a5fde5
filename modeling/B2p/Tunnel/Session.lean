import B2p.Tunnel.Server
import B2p.Tunnel.Spec
import B2p.Staging

/-!
# A whole transfer through the tunnel

One call of `send` against a running server, nothing in between interfering: every request is answered
by the server's handler. The chunks may arrive in any order `try_for_each_concurrent` allows.

* `serve_manifest`, `serve_chunk`, `serve_commit` — what the handlers do in such a transfer.
* `Transfer` — its runs.
* `send_order` — `main` makes its offer first, and only then waits for uploads.
-/

namespace B2p

open Interaction Prog Fs

namespace Tunnel

open Server

/-- A sender and a receiver that share a code, and how the receiver treats offers. -/
structure Link where
  target : Target
  key : Key
  cfg : ServerCfg
  answer : Option Bool

/-- The server's answer to a request. -/
abbrev Link.serve (X : Externals) (link : Link) (req : Request) (app : App) : Response × App :=
  App.serve X link.cfg link.key link.target.token link.answer req app

/-! ## The requests -/

section requests

variable (X : Externals) (link : Link)

/-- The offer of `m`. -/
def offerRequest (m : Manifest) : Request :=
  ⟨.manifest, link.target.token, X.cipher.seal_ link.key .manifest 0 [] (X.manifestJson.toVec m)⟩

/-- Chunk `i` of a content. -/
def chunkRequest (m : Manifest) (content : Bytes) (i : Nat) : Request :=
  ⟨.chunk i, link.target.token, X.cipher.seal_ link.key .data i (asBytes m.transferId) (blockOf m content i)⟩

/-- The commit. -/
def commitRequest (content : Bytes) (transferId : String) : Request :=
  ⟨.commit, link.target.token,
    X.cipher.seal_ link.key .commit 0 (asBytes transferId) (X.commitJson.toVec ⟨X.blake3 content⟩)⟩

/-- The offer and the commit are no longer than the router takes. -/
structure Admissible (m : Manifest) (content : Bytes) : Prop where
  offer : ¬ TooLarge (offerRequest X link m)
  commit : ¬ TooLarge (commitRequest X link content m.transferId)

section

variable {X link} {endpoint : Endpoint} {token : String} {key : Key} {d : Domain} {i : Nat} {aad b : Bytes}

/-- A body is as long as what is sealed, and the tag. -/
theorem not_tooLarge_sealed (h : b.length + 16 ≤ BODY_LIMIT) :
    ¬ TooLarge ⟨endpoint, token, X.cipher.seal_ key d i aad b⟩ := by
  intro hlarge
  have hlong : BODY_LIMIT < b.length + 16 := X.cipher.length_seal_ key d i aad b ▸ hlarge.2
  exact absurd hlong (Nat.not_lt.mpr h)

/-- A chunk is never too large. -/
theorem not_tooLarge_chunk (h : b.length ≤ CHUNK_SIZE) :
    ¬ TooLarge ⟨endpoint, token, X.cipher.seal_ key d i aad b⟩ :=
  not_tooLarge_sealed (Nat.add_le_add h (by decide))

end

theorem length_blockOf_le {m : Manifest} {content : Bytes} (hsize : content.length = m.totalSize)
    (hchunk : m.chunkSize = CHUNK_SIZE) (i : Nat) : (blockOf m content i).length ≤ CHUNK_SIZE := by
  rw [length_blockOf hsize, hchunk]
  exact Nat.min_le_left _ _

end requests

/-! ## The handlers -/

section handlers

variable (X : Externals) {link : Link} {answer : Option Bool} {app : App}

theorem eval_onDisk {α : Type} (p : FsProg α) (app : App) :
    (onDisk p).eval (App.handle X answer) app
      = ((p.eval X.handle app.disk).1, { app with disk := (p.eval X.handle app.disk).2 }) := by
  induction p generalizing app with
  | ret a => rfl
  | fail e => rfl
  | step o k ih => exact ih _ { app with disk := (X.handle o app.disk).2 }

/-- A request with the right token, and of a length the router takes, reaches its handler. -/
theorem serve_eq (req : Request) (htoken : req.token = link.target.token) (hfits : ¬ TooLarge req)
    {r : Response} {app' : App}
    (heval : (handler X link.cfg link.key req).eval (App.handle X link.answer) app = (.ok r, app')) :
    link.serve X req app = (r, app') := by
  rw [Link.serve, App.serve, htoken, if_neg (not_not.mpr rfl), if_neg hfits, heval]

/-- A longer one does not. -/
theorem serve_tooLarge (req : Request) (htoken : req.token = link.target.token) (hlarge : TooLarge req) :
    link.serve X req app = (payloadTooLarge, app) := by
  rw [Link.serve, App.serve, htoken, if_neg (not_not.mpr rfl), if_pos hlarge]

/-- The user, or the flags, let every transfer in. -/
def Link.Accepting (link : Link) : Prop :=
  if link.cfg.autoAccept then link.cfg.overwrite = true else link.answer = some true

theorem eval_decide_ (h : link.Accepting) (m : Manifest) (destExists : Bool) (app : App) :
    (decide_ link.cfg m destExists).eval (App.handle X link.answer) app
      = (.ok (some true), app) := by
  rw [Link.Accepting] at h
  rw [decide_]
  split at h
  · next hauto =>
      rw [if_pos hauto, h]
      simp
  · next hauto =>
      rw [if_neg hauto, h]
      rfl

variable (app) in
/-- An offer is accepted: the store is opened and the transfer becomes the active one. -/
theorem eval_manifest (hacc : link.Accepting) {m : Manifest} (hv : m.version = PROTOCOL_VERSION)
    (hkind : m.kind ≠ .text) {store : Store} {fs' : Fs} (hopen : (Store.openOrCreate X
      (Stream.safeName m.name) m.transferId m.totalSize m.chunkSize).eval X.handle app.disk
        = (.ok store, fs')) :
    ∃ app', (handler X link.cfg link.key ⟨.manifest, link.target.token,
        X.cipher.seal_ link.key .manifest 0 [] (X.manifestJson.toVec m)⟩).eval (App.handle X link.answer) app
        = (.ok ⟨200, X.manifestAckJson.toVec ⟨true, false, store.haves⟩⟩, app') ∧
      app'.transfer = some ⟨m, store⟩ ∧ app'.disk = fs' := by
  refine ⟨{ app with
      disk := fs'
      transfer := some ⟨m, store⟩
      events := app.events ++ [.accepted (Stream.safeName m.name) m.totalSize] }, ?_, rfl, rfl⟩
  show (handleManifest X link.cfg link.key _).eval _ _ = _
  rw [handleManifest, openJson, Cipher.open_seal_, Option.bind_some, Codec.fromSlice_toVec]
  dsimp only
  rw [if_neg (not_not.mpr hv), step_bind, eval_step]
  have hexists : ∀ p, (App.handle X link.answer (.fs (.pathExists p)) app).2 = app := fun p => rfl
  rw [hexists, ret_bind, eval_bind_ok _ (eval_decide_ X hacc m _ app)]
  dsimp only
  have hattempt : (onDisk (Store.openOrCreate X (safeName m.name) m.transferId m.totalSize
      m.chunkSize)).attempt.eval (App.handle X link.answer) app
        = (.ok (.ok store), { app with disk := fs' }) := by
    rw [eval_attempt, eval_onDisk, safeName, hopen]
  rw [acceptManifest, if_neg hkind, eval_bind_ok _ hattempt]
  rfl

theorem serve_manifest (hacc : link.Accepting) {m : Manifest} (hv : m.version = PROTOCOL_VERSION)
    (hkind : m.kind ≠ .text) {store : Store} {fs' : Fs} (hopen : (Store.openOrCreate X
      (Stream.safeName m.name) m.transferId m.totalSize m.chunkSize).eval X.handle app.disk
        = (.ok store, fs')) (hfits : ¬ TooLarge (offerRequest X link m)) :
    ∃ app', link.serve X ⟨.manifest, link.target.token,
        X.cipher.seal_ link.key .manifest 0 [] (X.manifestJson.toVec m)⟩ app
        = (⟨200, X.manifestAckJson.toVec ⟨true, false, store.haves⟩⟩, app') ∧
      app'.transfer = some ⟨m, store⟩ ∧ app'.disk = fs' := by
  obtain ⟨app', heval, hrest⟩ := eval_manifest X app hacc hv hkind hopen
  exact ⟨app', serve_eq X _ rfl hfits heval, hrest⟩

variable (link app) in
/-- A chunk of the active transfer is written. -/
theorem eval_chunk {active : ActiveTransfer} (hactive : app.transfer = some active) {i : Nat}
    {b : Bytes} {store : Store} {fs' : Fs} (hwrite : (active.store.writeChunk X i b).eval X.handle
      app.disk = (.ok (.ok (), store), fs')) :
    ∃ app', (handler X link.cfg link.key ⟨.chunk i, link.target.token,
        X.cipher.seal_ link.key .data i (asBytes active.manifest.transferId) b⟩).eval
        (App.handle X link.answer) app = (.ok (status 200), app') ∧
      app'.transfer = some { active with store := store } ∧ app'.disk = fs' := by
  refine ⟨{ app with
      disk := fs'
      transfer := some { active with store := store }
      events := app.events ++ [.progress b.length] }, ?_, rfl, rfl⟩
  have hdisk : (onDisk (active.store.writeChunk X i b)).eval (App.handle X link.answer) app
      = (.ok (.ok (), store), { app with disk := fs' }) := by
    rw [eval_onDisk, hwrite]
  have hlock : App.handle X link.answer .lock app = (some active, app) := by rw [← hactive]; rfl
  show (handleChunk X link.key i _).eval _ _ = _
  rw [handleChunk, step_bind, eval_step_eq _ hlock]
  simp only [ret_bind, Cipher.open_seal_]
  rw [eval_bind_ok _ hdisk]
  rfl

variable (link) in
theorem serve_chunk {active : ActiveTransfer} (hactive : app.transfer = some active) {i : Nat}
    {b : Bytes} {store : Store} {fs' : Fs} (hwrite : (active.store.writeChunk X i b).eval X.handle
      app.disk = (.ok (.ok (), store), fs')) (hlen : b.length ≤ CHUNK_SIZE) :
    ∃ app', link.serve X ⟨.chunk i, link.target.token,
        X.cipher.seal_ link.key .data i (asBytes active.manifest.transferId) b⟩ app = (status 200, app') ∧
      app'.transfer = some { active with store := store } ∧ app'.disk = fs' := by
  obtain ⟨app', heval, hrest⟩ := eval_chunk X link app hactive hwrite
  exact ⟨app', serve_eq X _ rfl (not_tooLarge_chunk hlen) heval, hrest⟩

variable (link app) in
/-- The commit of the active transfer is answered as `finalize` decides, and the slot is empty. -/
theorem eval_commit {active : ActiveTransfer} (hactive : app.transfer = some active)
    (commit : Commit) {res : Except Anyhow String} {fs' : Fs}
    (hfin : (Server.finalize X link.cfg active commit).eval X.handle app.disk = (res, fs')) :
    ∃ app', (handler X link.cfg link.key ⟨.commit, link.target.token, X.cipher.seal_ link.key .commit 0
        (asBytes active.manifest.transferId) (X.commitJson.toVec commit)⟩).eval (App.handle X link.answer) app
        = (.ok ⟨200, X.commitAckJson.toVec (commitReply res)⟩, app') ∧
      app'.transfer = none ∧ app'.disk = fs' := by
  have hattempt :
      (onDisk (Server.finalize X link.cfg active commit)).attempt.eval (App.handle X link.answer) app
      = (.ok res, { app with disk := fs' }) := by
    rw [eval_attempt, eval_onDisk, hfin]
  have hlock : App.handle X link.answer .lock app = (some active, app) := by rw [← hactive]; rfl
  show ∃ app', (handleCommit X link.cfg link.key _).eval _ _ = _ ∧ _
  rw [handleCommit, step_bind, eval_step_eq _ hlock]
  simp only [ret_bind, openJson, Cipher.open_seal_, Option.bind_some, Codec.fromSlice_toVec]
  rw [eval_bind_ok _ hattempt]
  cases res with
  | ok desc => exact ⟨_, rfl, rfl, rfl⟩
  | error e => exact ⟨_, rfl, rfl, rfl⟩

variable (link) in
theorem serve_commit {active : ActiveTransfer} (hactive : app.transfer = some active)
    (commit : Commit) {res : Except Anyhow String} {fs' : Fs}
    (hfin : (Server.finalize X link.cfg active commit).eval X.handle app.disk = (res, fs'))
    (hfits : ¬ TooLarge ⟨.commit, link.target.token, X.cipher.seal_ link.key .commit 0
        (asBytes active.manifest.transferId) (X.commitJson.toVec commit)⟩) :
    ∃ app', link.serve X ⟨.commit, link.target.token, X.cipher.seal_ link.key .commit 0
        (asBytes active.manifest.transferId) (X.commitJson.toVec commit)⟩ app
        = (⟨200, X.commitAckJson.toVec (commitReply res)⟩, app') ∧
      app'.transfer = none ∧ app'.disk = fs' := by
  obtain ⟨app', heval, hrest⟩ := eval_commit X link app hactive commit hfin
  exact ⟨app', serve_eq X _ rfl hfits heval, hrest⟩

/-- Without an active transfer a chunk and a commit are refused, and nothing changes. -/
theorem serve_none (hnone : app.transfer = none) (req : Request)
    (htoken : req.token = link.target.token)
    (hreq : (∃ i, req.endpoint = .chunk i) ∨ req.endpoint = .commit) :
    ∃ r app', link.serve X req app = (r, app') ∧ app'.transfer = none ∧ app'.disk = app.disk ∧
      (¬ TooLarge req → r = status 409) := by
  by_cases hlarge : TooLarge req
  · exact ⟨_, app, serve_tooLarge X req htoken hlarge, hnone, rfl, fun h => absurd hlarge h⟩
  have hlock : App.handle X link.answer .lock app = (none, app) := by rw [← hnone]; rfl
  refine ⟨_, { app with transfer := none }, serve_eq X _ htoken hlarge ?_, rfl, rfl, fun _ => rfl⟩
  rcases hreq with ⟨i, hi⟩ | hc
  · rw [handler, hi]
    dsimp only
    rw [handleChunk, step_bind, eval_step_eq _ hlock]
    rfl
  · rw [handler, hc]
    dsimp only
    rw [handleCommit, step_bind, eval_step_eq _ hlock]
    rfl

end handlers

/-! ## The runs -/

variable (X : Externals) (link : Link)

/-- The server after the requests of a log. -/
def appAfter (app : App) (log : List (Thread × SendAction)) : App :=
  log.foldl (fun app x => match x.2 with
    | ⟨.http req, _⟩ => (link.serve X req app).2
    | _ => app) app

/-- What the sender's machine answers, and the server. -/
def Answers (content : Bytes) (app : App) : (o : SendOp) → o.Res → Prop
  | .buildClient, r => r = .ok ()
  | .seal_ d i aad pt, r => r = X.cipher.seal_ link.key d i aad pt
  | .readAt off len, r => r = if off + len ≤ content.length then .ok (slice off len content)
      else .error (.other "failed to fill whole buffer")
  | .readAll, r => r = .ok content
  | .http req, r => r = .ok (link.serve X req app).1
  | .uploads _, _ => True

/-- One call of `send` against the server, up to some point. -/
abbrev Transfer (source : Source) (content : Bytes) (app : App) (log : List (Thread × SendAction))
    (qs : (t : Thread) → SendProg t.Out) : Prop :=
  Run (threads X link.target source) (fun log x => Scheduled X link.target source log x ∧
    Answers X link content (appAfter X link app log) x.2.op x.2.res) log qs

variable {X link} {source : Source} {content : Bytes} {app : App} {log : List (Thread × SendAction)}
  {qs : (t : Thread) → SendProg t.Out}

theorem appAfter_append (log log' : List (Thread × SendAction)) :
    appAfter X link app (log ++ log') = appAfter X link (appAfter X link app log) log' :=
  List.foldl_append ..

theorem Answers.local {o : SendOp} {r : o.Res} (h : Answers X link content app o r) :
    Local X link.key content o r := by
  cases o with
  | buildClient => cases r <;> trivial
  | seal_ d i aad pt => exact h
  | readAt off len =>
      cases r with
      | error e => trivial
      | ok b =>
          have hr : Except.ok b = if off + len ≤ content.length then _ else _ := h
          split at hr
          · next hlen => exact ⟨hlen, Except.ok.inj hr⟩
          · cases hr
  | readAll =>
      cases r with
      | error e => trivial
      | ok b => exact Except.ok.inj h
  | http req => cases r <;> trivial
  | uploads chunks => cases r <;> trivial

/-- A transfer is a call. -/
theorem Transfer.call (h : Transfer X link source content app log qs) :
    Call X link.target link.key source content log qs :=
  ⟨h.follows, h.admits.mono fun _ _ hR => ⟨hR.1, hR.2.local⟩⟩

/-- A request. -/
def IsHttp (a : SendAction) : Prop := ∃ req, a.op = .http req

theorem appAfter_of_noHttp (hno : ∀ x ∈ log, ¬ IsHttp x.2) : appAfter X link app log = app := by
  induction log with
  | nil => rfl
  | cons x log ih =>
      have hrest := ih fun y hy => hno y (List.mem_cons_of_mem _ hy)
      obtain ⟨t, ⟨o, r⟩⟩ := x
      cases o with
      | http req => exact absurd ⟨req, rfl⟩ (hno _ List.mem_cons_self)
      | _ => exact hrest

/-! ## The order of the requests -/

/-- What `main` does after its first request contains no other offer. -/
def NotOffer : SendOp → Prop
  | .http req => req.endpoint = .commit
  | _ => True

theorem only_sendBlob (m : Manifest) (haves : List Nat) (tid : String) :
    Only NotOffer (sendBlob X link.target m haves tid) := by
  refine .op trivial fun r => .ofExcept fun _ => .bind ?_ fun _ => .op trivial fun _ =>
    .op rfl fun r => .ofExcept fun _ => .ofExcept fun ack => ?_
  · exact .op trivial fun r => .ofExcept fun _ => trivial
  · split <;> trivial

/-- A request of `main` is its offer, before which it made none, or its commit; and before it waits
for uploads it has made its offer. -/
theorem send_order {tr : List SendAction} {o : SendOp} {k : o.Res → SendProg String}
    (h : Follows (send X link.target source) tr (.step o k)) :
    (∀ req, o = .http req → (req.endpoint = .manifest ∧ ∀ a ∈ tr, ¬ IsHttp a) ∨
      req.endpoint = .commit) ∧
    (∀ chunks, o = .uploads chunks → ∃ a ∈ tr, IsHttp a) := by
  rcases Follows.step_inv (E := sendEffects) (o := .buildClient) h with ⟨rfl, heq⟩ | ⟨client, tr, rfl, h₁⟩
  · cases heq
    exact ⟨nofun, nofun⟩
  cases client with
  | error e => cases (Follows.fail_inv (e := e) h₁)
  | ok u =>
  rcases Follows.step_inv (E := sendEffects) (o := .seal_ _ _ _ _) h₁ with ⟨rfl, heq⟩ | ⟨body, tr, rfl, h₂⟩
  · cases heq
    exact ⟨nofun, nofun⟩
  rcases Follows.step_inv (E := sendEffects) (o := .http _) h₂ with ⟨rfl, heq⟩ | ⟨resp, tr, rfl, h₃⟩
  · cases heq
    refine ⟨?_, nofun⟩
    rintro req ⟨⟩
    refine .inl ⟨rfl, ?_⟩
    rintro a ha ⟨req, hreq⟩
    simp only [List.mem_cons, List.not_mem_nil, or_false] at ha
    rcases ha with rfl | rfl
    · cases hreq
    · cases hreq
  -- the offer is made
  have hop : NotOffer o := by
    refine Only.of_follows (P := NotOffer) ?_ h₃
    show Only (E := sendEffects) NotOffer (Prog.ofExcept _ >>= _)
    refine .ofExcept fun ack => ?_
    split
    · trivial
    · split
      · trivial
      · split
        · exact only_sendBlob _ _ _
        · trivial
  refine ⟨?_, ?_⟩
  · rintro req rfl
    exact .inr hop
  · rintro chunks rfl
    exact ⟨_, List.mem_cons_of_mem _ (List.mem_cons_of_mem _ List.mem_cons_self), _, rfl⟩

/-- Once `main` has not made its offer, nobody has made any request. -/
theorem Transfer.noHttp (h : Transfer X link source content app log qs)
    (hmain : ∀ a ∈ own .main log, ¬ IsHttp a) : ∀ x ∈ log, ¬ IsHttp x.2 := by
  rintro ⟨t, a⟩ hx ha
  cases t with
  | main => exact hmain a (mem_own.mpr hx) ha
  | upload i =>
      obtain ⟨before, later, heq, ⟨chunks, ⟨k, hk⟩, -⟩, -⟩ := h.allowed_of_mem hx
      obtain ⟨b, hb, hhttp⟩ := (send_order hk).2 chunks rfl
      refine hmain b ?_ hhttp
      rw [heq, own_append]
      exact List.mem_append_left _ hb

/-! ## The end of a file -/

/-- A complete file with the right content is put in place, if that is free. -/
theorem eval_finalize_file (cfg : ServerCfg) {m : Manifest} {store : Store} {fs : Fs}
    (hst : Staged X m (PartOf m content) store fs) (hsize : content.length = m.totalSize)
    (hkind : m.kind = .file) (hall : ∀ i < m.totalChunks, i ∈ store.state.haves)
    (hdest : fs.dirs (Stream.safeName m.name) = false) :
    ∃ desc fs', (Server.finalize X cfg ⟨m, store⟩ ⟨X.blake3 content⟩).eval X.handle fs = (.ok desc, fs') ∧
      Store.Gone store.dir fs' ∧ fs'.content (.out (Stream.safeName m.name)) = some content ∧
      (∀ n, n ≠ Stream.safeName m.name → fs'.content (.out n) = fs.content (.out n)) ∧
      ∀ d, d ≠ store.dir → fs'.dirs d = fs.dirs d := by
  obtain ⟨fs', hfin, hfile⟩ := Store.eval_finalizeFile X hst.live (hst.data_eq hsize hall) cfg.outDir hdest
  refine ⟨"saved " ++ joinPath cfg.outDir (Stream.safeName m.name), fs', ?_, hfile⟩
  rw [Server.finalize, hst.isComplete hall, if_neg (by simp),
    eval_bind_ok _ (Store.eval_fileHash X (hst.data_eq hsize hall)), if_neg (not_not.mpr rfl)]
  dsimp only
  rw [hkind]
  exact eval_bind_ok _ hfin

end Tunnel
end B2p
