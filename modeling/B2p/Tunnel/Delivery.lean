import B2p.Tunnel.Recovery

/-!
# A call of `send` over a network that loses requests

One call for one file, after any number of others (`Earlier`). A request may be lost on its way, or its
response may be, and an edge may answer with a page of its own; chunks of earlier calls may arrive late. The
uploads run four at a time, in any order `try_for_each_concurrent` allows.

* `Underway`, `Underway.Step` — the runs.
* `Forgiven` — nothing has been lost that `send` does not ask for again.
* `Inv` — what holds in every state of a run; `Inv.step` is the step lemma.
* `call_delivers` — the runs are bounded; as long as what was lost is forgiven they can go on to the end, and
  then the file is in place.
-/

namespace B2p

open Interaction Prog Fs

namespace Tunnel

open Server
open B2p.Stream (fileSource)

/-! ## The runs -/

/-- A call in progress. -/
structure Underway where
  log : List (Thread × SendAction)
  threads : (t : Thread) → SendProg t.Out
  /-- The receiver. -/
  app : App

section runs

variable (X : Externals) (link : Link) (source : Source) (content : Bytes)

def Underway.start (app : App) : Underway := ⟨[], Tunnel.threads X link.target source, app⟩

/-- What the network answers in the receiver's place: an error, or a page that is neither a success nor the
reply to a commit. -/
def Lost : Except String Response → Prop
  | .error _ => True
  | .ok r => r.isSuccess = false ∧ X.commitAckJson.fromSlice r.body = none

/-- One operation of a thread, or a chunk of some call that arrives late, or again. -/
inductive Underway.Step : Underway → Underway → Prop
  | acts {c : Underway} {t : Thread} {o : SendOp} {k : o.Res → SendProg t.Out} {r : o.Res}
      (hnext : c.threads t = .step o k) (hs : Scheduled X link.target source c.log (t, ⟨o, r⟩))
      (ha : Answers X link content c.app o r) :
      Step c ⟨c.log ++ [(t, ⟨o, r⟩)], Function.update c.threads t (k r), appAfter X link c.app [(t, ⟨o, r⟩)]⟩
  | lost {c : Underway} {t : Thread} {req : Request} {k : Except String Response → SendProg t.Out}
      {r : Except String Response} (hnext : c.threads t = .step (.http req) k)
      (hs : Scheduled X link.target source c.log (t, ⟨.http req, r⟩)) (hr : Lost X r) (arrives : Bool) :
      Step c ⟨c.log ++ [(t, ⟨.http req, r⟩)], Function.update c.threads t (k r),
        if arrives then (link.serve X req c.app).2 else c.app⟩
  | late {c : Underway} {log : List (Thread × SendAction)} {qs : (t : Thread) → SendProg t.Out} {t : Thread}
      {i : Nat} {req : Request} {r : Except String Response}
      (hcall : Call X link.target link.key source content log qs) (hmem : (t, ⟨.http req, r⟩) ∈ log)
      (hreq : req.endpoint = .chunk i) : Step c ⟨c.log, c.threads, (link.serve X req c.app).2⟩

/-- A call to the receiver `app`, up to some point. -/
abbrev Reaches (app : App) (c : Underway) : Prop :=
  Relation.ReflTransGen (Underway.Step X link source content) (.start X link source app) c

end runs

/-- A request that did not succeed. -/
def failed : SendAction → Bool
  | ⟨.http _, .ok r⟩ => !r.isSuccess
  | ⟨.http _, .error _⟩ => true
  | _ => false

/-- A request refused for its token. -/
def refused : SendAction → Bool
  | ⟨.http _, .ok r⟩ => decide (r.status = 401)
  | _ => false

/-- Neither the offer nor the commit has failed, no chunk as often as it is tried, and none was refused. -/
def Forgiven (log : List (Thread × SendAction)) : Prop :=
  (∀ a ∈ own .main log, failed a = false) ∧
    ∀ i, (own (.upload i) log).countP failed < CHUNK_ATTEMPTS ∧ ∀ a ∈ own (.upload i) log, refused a = false

theorem Forgiven.of_append {log log' : List (Thread × SendAction)} (h : Forgiven (log ++ log')) :
    Forgiven log := by
  refine ⟨fun a ha => h.1 a ?_, fun i => ⟨?_, fun a ha => (h.2 i).2 a ?_⟩⟩
  · rw [own_append]
    exact List.mem_append_left _ ha
  · have hcount := (h.2 i).1
    rw [own_append, List.countP_append] at hcount
    omega
  · rw [own_append]
    exact List.mem_append_left _ ha

variable {X : Externals} {link : Link} {m : Manifest} {source : Source} {content : Bytes} {app : App}

/-! ## The receiver's answers -/

variable (m) in
/-- The active transfer is of `m`, and the receiver has these chunks. -/
def ActiveWith (has : Nat → Prop) (app : App) : Prop :=
  ∃ store, app.transfer = some ⟨m, store⟩ ∧ ∀ i, has i → i ∈ store.state.haves

theorem ActiveWith.mono {has has' : Nat → Prop} (h : ActiveWith m has app) (hle : ∀ i, has' i → has i) :
    ActiveWith m has' app := by
  obtain ⟨store, htr, hall⟩ := h
  exact ⟨store, htr, fun i hi => hall i (hle i hi)⟩

variable (link) in
/-- A chunk is taken, and what was there stays there. -/
theorem ActiveWith.chunk {has : Nat → Prop} (h : ActiveWith m has app) (hfits : Fits X m content app)
    (hof : OfFile m content) {i : Nat} (hi : i < m.totalChunks) :
    (link.serve X (chunkRequest X link m content i) app).1 = status 200 ∧
      ActiveWith m (fun j => has j ∨ j = i) (link.serve X (chunkRequest X link m content i) app).2 := by
  obtain ⟨store, htr, hall⟩ := h
  obtain ⟨-, hst⟩ := hfits.held _ htr
  obtain ⟨fs', hwrite, -⟩ := hst.writeChunk hi (length_blockOf hof.size i) rfl
  obtain ⟨app', heq, htr', -⟩ := serve_chunk X link htr hwrite (length_blockOf_le hof.size hof.chunkSize i)
  rw [chunkRequest, heq]
  refine ⟨rfl, store.record i, htr', ?_⟩
  rintro j (hj | rfl)
  · exact SortedSet.mem_insert.mpr (.inr (hall j hj))
  · exact SortedSet.mem_insert.mpr (.inl rfl)

/-- An offer is answered with what is staged, and that is what the receiver has. -/
theorem serve_offer (hfits : Fits X m content app) (hof : OfFile m content) (hacc : link.Accepting)
    (hadm : Admissible X link m content) :
    (link.serve X (offerRequest X link m) app).1
        = ⟨200, X.manifestAckJson.toVec ⟨true, false, (startState X m app.disk).haves.toList⟩⟩ ∧
      ActiveWith m (· ∈ (startState X m app.disk).haves) (link.serve X (offerRequest X link m) app).2 := by
  obtain ⟨app', heq, -, store, htr, hstate⟩ := held_offer hacc hof.version hof.ne_text hfits.ready.wf
    hfits.ready.clear.makes (hfits.ready.holds_start hof.chunkSize_pos) hadm.offer
  rw [offerRequest, heq]
  exact ⟨rfl, store, htr, fun i hi => hstate ▸ hi⟩

variable (m content) in
/-- The file is in place, and nothing is staged. -/
def Placed (app : App) : Prop :=
  app.disk.content (.out (Stream.safeName m.name)) = some content ∧
    Store.Gone (stagingDir (Stream.safeName m.name)) app.disk

variable (link) in
/-- The commit of a transfer that has all chunks. -/
theorem ActiveWith.commit {has : Nat → Prop} (h : ActiveWith m has app) (hfits : Fits X m content app)
    (hof : OfFile m content) (hadm : Admissible X link m content) (hall : ∀ i < m.totalChunks, has i) :
    (link.serve X (commitRequest X link content m.transferId) app).1
        = ⟨200, X.commitAckJson.toVec ⟨true, none⟩⟩ ∧
      (link.serve X (commitRequest X link content m.transferId) app).2.transfer = none ∧
      Placed m content (link.serve X (commitRequest X link content m.transferId) app).2 := by
  obtain ⟨store, htr, hhas⟩ := h
  obtain ⟨-, hst⟩ := hfits.held _ htr
  obtain ⟨desc, fs', hfin, hgone, hdest, -⟩ := eval_finalize_file link.cfg hst hof.size hof.kind
    (fun i hi => hhas i (hall i hi)) hfits.ready.clear.dest
  obtain ⟨app', heq, hnone, rfl⟩ := serve_commit X link htr ⟨X.blake3 content⟩ hfin hadm.commit
  rw [commitRequest, heq]
  exact ⟨rfl, hnone, hdest, hst.dir ▸ hgone⟩

/-- A chunk takes nothing away from what an offer would find. -/
theorem startState_chunk (hfits : Fits X m content app) (hof : OfFile m content) {i : Nat}
    (hi : i < m.totalChunks) : ∀ j ∈ (startState X m app.disk).haves,
      j ∈ (startState X m (link.serve X (chunkRequest X link m content i) app).2.disk).haves := by
  intro j hj
  cases htr : app.transfer with
  | none =>
      obtain ⟨r, app', heq, -, hdisk, -⟩ := serve_none X htr (chunkRequest X link m content i) rfl
        (.inl ⟨i, rfl⟩)
      rw [heq, hdisk]
      exact hj
  | some active =>
      obtain ⟨rfl, hst⟩ := hfits.held active htr
      obtain ⟨fs', hwrite, hst', -⟩ := hst.writeChunk hi (length_blockOf hof.size i) rfl
      obtain ⟨app', heq, -, rfl⟩ := serve_chunk X link htr hwrite
        (length_blockOf_le hof.size hof.chunkSize i)
      rw [chunkRequest, heq, hst'.resumes.startState_eq]
      rw [hst.resumes.startState_eq] at hj
      exact SortedSet.mem_insert.mpr (.inr hj)

/-! ## One upload -/

variable (X link) in
/-- `upload_with_retry` once a request is answered, with `left` attempts left. -/
def afterTry (i : Nat) (body : Bytes) (left : Nat) : Except String Response → SendProg Unit
  | .ok r =>
      if r.isSuccess then .ret ()
      else if r.status = 401 then .fail (.msg "auth rejected (HTTP 401) mid-transfer")
      else if left = 0 then
        .fail (.msg (s!"chunk {i}: HTTP " ++ X.statusText r.status ++ s!" after {CHUNK_ATTEMPTS} attempts"))
      else uploadWithRetry X link.target i body left
  | .error e =>
      if left = 0 then .fail (.context s!"chunk {i} failed after {CHUNK_ATTEMPTS} attempts" (.msg e))
      else uploadWithRetry X link.target i body left

theorem uploadWithRetry_succ (i : Nat) (body : Bytes) (left : Nat) :
    uploadWithRetry X link.target i body (left + 1)
      = .step (.http ⟨.chunk i, link.target.token, body⟩) (afterTry X link i body left) := by
  have hnext : ∀ k k' : Except String Response → SendProg Unit, (∀ r, k r = k' r) → ∀ req,
      (.step (.http req) k : SendProg Unit) = .step (.http req) k' := by
    intro k k' h req
    rw [funext h]
  refine hnext _ _ (fun r => ?_) _
  cases r <;> rfl

variable (X link source content) in
/-- What the thread of chunk `i` has done, and what it does next. -/
inductive UploadAt (i : Nat) : List SendAction → SendProg Unit → Prop
  | fresh : UploadAt i [] (uploadOf X link.target source i)
  | read {tr : List SendAction} (hlen : tr.length = 1) (hfail : tr.countP failed = 0) :
      UploadAt i tr (.step (.seal_ .data i (asBytes (buildManifest source).transferId)
        (blockOf (buildManifest source) content i)) fun ct => uploadWithRetry X link.target i ct CHUNK_ATTEMPTS)
  | tried {tr : List SendAction} {n : Nat} (hlen : tr.length = 2 + n) (hfail : tr.countP failed = n)
      (hn : n < CHUNK_ATTEMPTS) : UploadAt i tr (uploadWithRetry X link.target i
        (chunkRequest X link (buildManifest source) content i).body (CHUNK_ATTEMPTS - n))
  | through {tr : List SendAction} (hne : tr ≠ []) (hlen : tr.length ≤ 7) : UploadAt i tr (.ret ())
  | broken {tr : List SendAction} {e : Anyhow} (hne : tr ≠ []) (hlen : tr.length ≤ 7)
      (hnot : CHUNK_ATTEMPTS ≤ tr.countP failed ∨ ∃ a ∈ tr, refused a = true) : UploadAt i tr (.fail e)

section upload

variable {i : Nat} {tr : List SendAction} {q : SendProg Unit}

theorem UploadAt.length_le (h : UploadAt X link source content i tr q) : tr.length ≤ 7 := by
  cases h with
  | fresh => exact Nat.zero_le _
  | read hlen => omega
  | @tried _ n hlen _ hn =>
      have hfive : CHUNK_ATTEMPTS = 5 := rfl
      omega
  | through _ hlen => exact hlen
  | broken _ hlen => exact hlen

theorem UploadAt.eq_uploadOf (h : UploadAt X link source content i [] q) :
    q = uploadOf X link.target source i := by
  cases h with
  | fresh => rfl
  | read hlen => cases hlen
  | tried hlen => simp at hlen; omega
  | through hne => exact absurd rfl hne
  | broken hne => exact absurd rfl hne

/-- What `read_chunk` reads is the chunk. -/
theorem chunkAt_eq (hof : OfFile m content) (hi : i < m.totalChunks) :
    chunkAt m.totalSize content i = some (blockOf m content i) := by
  have hoff := (lt_divCeil_iff hof.chunkSize_pos).mp hi
  rw [hof.chunkSize, ← hof.size] at hoff
  obtain ⟨b, hb⟩ : ∃ b, chunkAt m.totalSize content i = some b := by
    refine ⟨_, if_pos ?_⟩
    rw [← hof.size]
    omega
  rw [hb, blockOf_of_chunkAt hof.size hof.chunkSize hb]

variable {name transferId : String} {entries : List Entry}
  (hsource : source = fileSource name entries content transferId)

include hsource

theorem ofFile_of_source : OfFile (buildManifest source) content := by
  subst hsource
  exact ofFile_fileSource name entries content transferId

/-- The thread reads, and seals. -/
theorem UploadAt.quiet {o : SendOp} {k : o.Res → SendProg Unit} {r : o.Res}
    (h : UploadAt X link source content i tr (.step o k)) (hno : ∀ req, o ≠ .http req)
    (hi : i < (buildManifest source).totalChunks) (ha : Answers X link content app o r) :
    UploadAt X link source content i (tr ++ [⟨o, r⟩]) (k r) ∧ k r ≠ .ret () ∧ failed ⟨o, r⟩ = false := by
  have hof := ofFile_of_source hsource
  generalize hq : (.step o k : SendProg Unit) = q at h
  cases h with
  -- the chunk is read, …
  | fresh =>
      have hread := chunkAt_eq hof hi
      subst hsource
      cases hq
      have hanswer : Answers X link content app (.readAt _ _) (.ok _) := answers_readAt hread
      obtain rfl := Eq.trans ha hanswer.symm
      exact ⟨.read rfl rfl, by rintro ⟨⟩, rfl⟩
  -- … and sealed; the five attempts are still ahead
  | read hlen hfail =>
      cases hq
      obtain rfl := ha
      refine ⟨.tried (n := 0) ?_ ?_ (by decide), ?_, rfl⟩
      · rw [List.length_append, hlen]
        rfl
      · rw [List.countP_append, hfail]
        rfl
      · show uploadWithRetry X link.target i _ (4 + 1) ≠ _
        rw [uploadWithRetry_succ]
        rintro ⟨⟩
  | @tried _ n _ _ hn =>
      obtain ⟨left, hleft⟩ : ∃ left, CHUNK_ATTEMPTS - n = left + 1 := ⟨CHUNK_ATTEMPTS - n - 1, by omega⟩
      rw [hleft, uploadWithRetry_succ] at hq
      cases hq
      exact absurd rfl (hno _)
  | through => cases hq
  | broken => cases hq

omit hsource in
variable (X link) in
/-- After an attempt that failed there is another one, unless it was the last. -/
theorem UploadAt.again {n left : Nat} (hlen : tr.length = 2 + n) (hfail : tr.countP failed = n)
    (hleft : CHUNK_ATTEMPTS - n = left + 1) {a : SendAction} (ha : failed a = true) (e : Anyhow) :
    UploadAt X link source content i (tr ++ [a]) (if left = 0 then .fail e else uploadWithRetry X
        link.target i (chunkRequest X link (buildManifest source) content i).body left) ∧
      (if left = 0 then .fail e else uploadWithRetry X link.target i
        (chunkRequest X link (buildManifest source) content i).body left) ≠ .ret () := by
  have hfive : CHUNK_ATTEMPTS = 5 := rfl
  have hlen' : (tr ++ [a]).length = 2 + (n + 1) := by
    simp only [List.length_append, hlen, List.length_singleton]
    omega
  have hfail' : (tr ++ [a]).countP failed = n + 1 := by
    simp [List.countP_append, hfail, ha]
  split
  -- that was the last attempt
  · refine ⟨.broken (by simp) (by omega) (.inl (by omega)), ?_⟩
    rintro ⟨⟩
  · next hpos =>
      obtain ⟨less, rfl⟩ : ∃ less, left = less + 1 := ⟨left - 1, by omega⟩
      constructor
      · have hnext : less + 1 = CHUNK_ATTEMPTS - (n + 1) := by omega
        rw [hnext]
        exact .tried hlen' hfail' (by omega)
      · rw [uploadWithRetry_succ]
        rintro ⟨⟩

/-- The thread asks for its chunk to be taken, and goes on by the answer, whatever it is. -/
theorem UploadAt.request {req : Request} {k : Except String Response → SendProg Unit}
    (h : UploadAt X link source content i tr (.step (.http req) k)) :
    req = chunkRequest X link (buildManifest source) content i ∧
      ∀ r, UploadAt X link source content i (tr ++ [⟨.http req, r⟩]) (k r) ∧
        (k r = .ret () ↔ failed ⟨.http req, r⟩ = false) := by
  generalize hq : (.step (.http req) k : SendProg Unit) = q at h
  cases h with
  | fresh =>
      subst hsource
      cases hq
  | read => cases hq
  | @tried _ n hlen hfail hn =>
      have hfive : CHUNK_ATTEMPTS = 5 := rfl
      obtain ⟨left, hleft⟩ : ∃ left, CHUNK_ATTEMPTS - n = left + 1 := ⟨CHUNK_ATTEMPTS - n - 1, by omega⟩
      rw [hleft, uploadWithRetry_succ] at hq
      cases hq
      refine ⟨rfl, fun r => ?_⟩
      have hlen' : ∀ a : SendAction, (tr ++ [a]).length ≤ 7 := by
        intro a
        simp only [List.length_append, hlen, List.length_singleton]
        omega
      -- an error, a success, a refused token, or another status
      cases r with
      | error e =>
          obtain ⟨hat, hne⟩ := UploadAt.again X link hlen hfail hleft (a := ⟨.http _, .error e⟩) rfl
            (.context s!"chunk {i} failed after {CHUNK_ATTEMPTS} attempts" (.msg e))
          exact ⟨hat, fun h => absurd h hne, by rintro ⟨⟩⟩
      | ok r =>
          rw [afterTry]
          cases hsuccess : r.isSuccess with
          | true =>
              rw [if_pos rfl]
              refine ⟨.through (by simp) (hlen' _), fun _ => ?_, fun _ => rfl⟩
              rw [failed, hsuccess]
              rfl
          | false =>
              have hbad : ∀ req, failed ⟨.http req, .ok r⟩ = true := by
                intro req
                rw [failed, hsuccess]
                rfl
              rw [if_neg (by decide), hbad]
              split
              · next h401 =>
                  have hrefused : ∀ req, refused ⟨.http req, .ok r⟩ = true := fun req => decide_eq_true h401
                  have hlast := fun a : SendAction => List.mem_append_right tr (List.mem_singleton_self a)
                  refine ⟨.broken (by simp) (hlen' _) (.inr ⟨_, hlast _, hrefused _⟩), ?_, ?_⟩ <;> rintro ⟨⟩
              · obtain ⟨hat, hne⟩ := UploadAt.again X link hlen hfail hleft (hbad _) (.msg
                  (s!"chunk {i}: HTTP " ++ X.statusText r.status ++ s!" after {CHUNK_ATTEMPTS} attempts"))
                exact ⟨hat, fun h => absurd h hne, by rintro ⟨⟩⟩
  | through => cases hq
  | broken => cases hq

/-- A thread that has failed was not forgiven. -/
theorem UploadAt.not_forgiven {e : Anyhow} (h : UploadAt X link source content i tr (.fail e)) :
    CHUNK_ATTEMPTS ≤ tr.countP failed ∨ ∃ a ∈ tr, refused a = true := by
  generalize hq : (.fail e : SendProg Unit) = q at h
  cases h with
  | fresh =>
      subst hsource
      cases hq
  | read => cases hq
  | @tried _ n _ _ hn =>
      obtain ⟨left, hleft⟩ : ∃ left, CHUNK_ATTEMPTS - n = left + 1 := ⟨CHUNK_ATTEMPTS - n - 1, by omega⟩
      rw [hleft, uploadWithRetry_succ] at hq
      cases hq
  | through => cases hq
  | broken _ _ hnot => exact hnot

end upload

/-! ## The main thread -/

variable (X link source content) in
/-- Everything `main` does in a call in which nothing goes wrong, if the receiver has the chunks `haves`. -/
def script (haves : List Nat) : List SendAction :=
  ackActions X link.target link.key source ⟨true, false, haves⟩ ++
    (hashActions X link content (missing (buildManifest source) haves) (buildManifest source).transferId ++
      [commitAction X link content (buildManifest source).transferId ⟨true, none⟩])

theorem length_script (haves : List Nat) : (script X link source content haves).length = 7 := rfl

/-- The two actions before the offer do not depend on what the receiver has. -/
theorem script_of_short {haves haves' : List Nat} {tr : List SendAction}
    (h : tr <+: script X link source content haves) (hlen : tr.length < 3) :
    tr <+: script X link source content haves' := by
  have hopen : ∀ haves, offerActions X link.key source <+: script X link source content haves :=
    fun haves => ⟨_, rfl⟩
  refine (List.prefix_of_prefix_length_le h (hopen haves) ?_).trans (hopen haves')
  exact Nat.le_of_lt_succ hlen

variable (X link source content) in
/-- Where `main` may be: what it has done, and what comes next. -/
inductive ScriptAt (haves : List Nat) (tr : List SendAction) (a : SendAction) : Prop
  | quiet (hquiet : a ∈ offerActions X link.key source ∧ tr.length < 2 ∨
      a ∈ (hashActions X link content (missing (buildManifest source) haves)
        (buildManifest source).transferId).tail ∧ 4 ≤ tr.length ∧ tr.length < 6)
  | offer (htr : tr = offerActions X link.key source) (ha : a = ⟨.http (offerRequest X link
      (buildManifest source)), .ok ⟨200, X.manifestAckJson.toVec ⟨true, false, haves⟩⟩⟩)
  | uploads (htr : tr = ackActions X link.target link.key source ⟨true, false, haves⟩)
      (ha : a = ⟨.uploads (missing (buildManifest source) haves), .ok ()⟩)
  | commit (htr : tr = ackActions X link.target link.key source ⟨true, false, haves⟩ ++
      hashActions X link content (missing (buildManifest source) haves) (buildManifest source).transferId)
      (ha : a = commitAction X link content (buildManifest source).transferId ⟨true, none⟩)

theorem scriptAt_of_eq {haves : List Nat} {tr rest : List SendAction} {a : SendAction}
    (h : script X link source content haves = tr ++ a :: rest) : ScriptAt X link source content haves tr a := by
  simp only [script, ackActions, offerActions, hashActions, commitAction, List.cons_append,
    List.nil_append] at h
  rcases tr with _ | ⟨_, _ | ⟨_, _ | ⟨_, _ | ⟨_, _ | ⟨_, _ | ⟨_, _ | ⟨_, tr⟩⟩⟩⟩⟩⟩⟩ <;>
    simp only [List.nil_append, List.cons_append, List.cons.injEq] at h
  · obtain ⟨rfl, -⟩ := h
    exact .quiet (.inl ⟨List.mem_cons_self, by simp⟩)
  · obtain ⟨rfl, rfl, -⟩ := h
    exact .quiet (.inl ⟨List.mem_cons_of_mem _ List.mem_cons_self, by simp⟩)
  · obtain ⟨rfl, rfl, rfl, -⟩ := h
    exact .offer rfl rfl
  · obtain ⟨rfl, rfl, rfl, rfl, -⟩ := h
    exact .uploads rfl rfl
  · obtain ⟨rfl, rfl, rfl, rfl, rfl, -⟩ := h
    exact .quiet (.inr ⟨List.mem_cons_self, by simp⟩)
  · obtain ⟨rfl, rfl, rfl, rfl, rfl, rfl, -⟩ := h
    exact .quiet (.inr ⟨List.mem_cons_of_mem _ List.mem_cons_self, by simp⟩)
  · obtain ⟨rfl, rfl, rfl, rfl, rfl, rfl, rfl, -⟩ := h
    exact .commit rfl rfl
  · simp at h

/-- What is not a request and no wait can be answered in one way only, and the receiver does not notice. -/
theorem answer_eq {o : SendOp} {r r' : o.Res} (hhttp : ∀ req, o ≠ .http req)
    (hwait : ∀ chunks, o ≠ .uploads chunks) (h : Answers X link content app o r)
    (h' : Answers X link content app o r') : r = r' := by
  cases o with
  | http req => exact absurd rfl (hhttp req)
  | uploads chunks => exact absurd rfl (hwait chunks)
  | _ => exact Eq.trans h (Eq.symm h')

theorem appAfter_quiet {t : Thread} {o : SendOp} {r : o.Res} (hhttp : ∀ req, o ≠ .http req) :
    appAfter X link app [(t, ⟨o, r⟩)] = app := by
  cases o with
  | http req => exact absurd rfl (hhttp req)
  | _ => rfl

section main

variable {haves : List Nat} {tr rest : List SendAction} {name transferId : String} {entries : List Entry}
  (hsource : source = fileSource name entries content transferId)

/-- A quiet action of the script. -/
theorem quiet_of_script {o : SendOp} {r : o.Res}
    (h : (⟨o, r⟩ : SendAction) ∈ offerActions X link.key source ∨
      (⟨o, r⟩ : SendAction) ∈ (hashActions X link content (missing (buildManifest source) haves)
        (buildManifest source).transferId).tail) :
    (∀ req, o ≠ .http req) ∧ (∀ chunks, o ≠ .uploads chunks) ∧
      ∀ app, Answers X link content app o r := by
  simp only [offerActions, hashActions, List.tail_cons, List.mem_cons, List.not_mem_nil, or_false] at h
  rcases h with (h | h) | (h | h) <;> cases h <;> exact ⟨by simp, by simp, fun _ => rfl⟩

include hsource

variable (X link) in
theorem follows_script (haves : List Nat) :
    Follows (send X link.target source) (script X link source content haves) (.ret "transfer complete") := by
  refine (follows_ackActions X link.target link.key haves hsource).append ?_
  subst hsource
  refine .cons (.cons (.cons (.cons ?_)))
  show Follows (ofExcept (json X.commitAckJson ⟨200, _⟩) >>= _) [] _
  rw [json, Codec.fromSlice_toVec]
  exact .nil _

omit hsource in
variable (link source) in
/-- A call whose offer is lost. -/
theorem follows_lostOffer {r : Except String Response} (hr : Lost X r) : ∃ e,
    Follows (send X link.target source) (offerActions X link.key source ++
      [⟨.http (offerRequest X link (buildManifest source)), r⟩]) (.fail e) := by
  obtain ⟨e, he⟩ : ∃ e, readAck X link.target r = .error e := by
    cases r with
    | error chain => exact ⟨_, rfl⟩
    | ok resp =>
        rw [readAck]
        split
        · exact ⟨_, rfl⟩
        · rw [if_pos hr.1]
          exact ⟨_, rfl⟩
  refine ⟨e, .cons (.cons (.cons ?_))⟩
  show Follows (ofExcept (readAck X link.target r) >>= _) [] _
  rw [he]
  exact .nil _

variable (X link) in
/-- A call one of whose uploads has failed. -/
theorem follows_failedUpload (haves : List Nat) (e : Anyhow) : ∃ e',
    Follows (send X link.target source) (ackActions X link.target link.key source ⟨true, false, haves⟩ ++
      [⟨.uploads (missing (buildManifest source) haves), .error e⟩]) (.fail e') :=
  ⟨_, (follows_ackActions X link.target link.key haves hsource).append (.cons (.nil _))⟩

variable (X link) in
/-- A call whose commit is lost. -/
theorem follows_lostCommit (haves : List Nat) {r : Except String Response} (hr : Lost X r) : ∃ e,
    Follows (send X link.target source) (ackActions X link.target link.key source ⟨true, false, haves⟩ ++
      hashActions X link content (missing (buildManifest source) haves) (buildManifest source).transferId ++
      [⟨.http (commitRequest X link content (buildManifest source).transferId), r⟩]) (.fail e) := by
  have hack := follows_ackActions X link.target link.key haves hsource
  rw [List.append_assoc]
  subst hsource
  cases r with
  | error chain => exact ⟨_, hack.append (.cons (.cons (.cons (.cons (.nil _)))))⟩
  | ok resp =>
      refine ⟨.msg "error decoding response body", hack.append (.cons (.cons (.cons (.cons ?_))))⟩
      show Follows (ofExcept (json X.commitAckJson resp) >>= _) [] _
      rw [json, hr.2]
      exact .nil _

end main

theorem mem_missing {haves : SortedSet Nat} {i : Nat} :
    i ∈ missing m haves.toList ↔ i < m.totalChunks ∧ i ∉ haves := by
  rw [missing, List.mem_filter, List.mem_range, decide_eq_true_iff, SortedSet.mem_def]

/-! ## Every state of a run -/

variable (X link source content) in
/-- `main` has met no failure: how far it is, and what the receiver and the uploads have done by then. -/
structure MainAt (haves : SortedSet Nat) (c : Underway) : Prop where
  script : own .main c.log <+: script X link source content haves.toList
  opening : (own .main c.log).length < 3 → haves = (startState X (buildManifest source) c.app.disk).haves ∧
    ∀ i, own (.upload i) c.log = []
  active : 3 ≤ (own .main c.log).length → (own .main c.log).length < 7 →
    ActiveWith (buildManifest source) (fun i => i ∈ haves ∨ c.threads (.upload i) = .ret ()) c.app
  begun : ∀ i, own (.upload i) c.log ≠ [] → i ∈ missing (buildManifest source) haves.toList
  closing : 4 ≤ (own .main c.log).length → ∀ i ∈ missing (buildManifest source) haves.toList,
    c.threads (.upload i) = .ret ()
  ended : (own .main c.log).length = 7 → c.app.transfer = none ∧ Placed (buildManifest source) content c.app

variable (X link source content) in
/-- What holds in every state of a call to the receiver `app₀`. -/
structure Inv (app₀ : App) (c : Underway) : Prop where
  call : Call X link.target link.key source content c.log c.threads
  past : Earlier X source content link c.app
  uploads : ∀ i, UploadAt X link source content i (own (.upload i) c.log) (c.threads (.upload i))
  begun : ∀ i, own (.upload i) c.log ≠ [] → i < (buildManifest source).totalChunks ∧
    i ∉ (startState X (buildManifest source) app₀.disk).haves
  main : (∃ haves, MainAt X link source content haves c ∧
      ∀ i ∈ (startState X (buildManifest source) app₀.disk).haves, i ∈ haves) ∨
    ((∃ e, c.threads .main = .fail e) ∧ (own .main c.log).length ≤ 7 ∧ ¬ Forgiven c.log)

section invariant

variable {app₀ : App} {c : Underway} {haves : SortedSet Nat} {name transferId : String} {entries : List Entry}
  (hsource : source = fileSource name entries content transferId)

/-- The receiver after an operation of the call, if that was a request and reached it. -/
theorem Earlier.next {app' : App} (h : Earlier X source content link app) {log : List (Thread × SendAction)}
    {qs : (t : Thread) → SendProg t.Out} (hcall : Call X link.target link.key source content log qs)
    {t : Thread} {o : SendOp} {r : o.Res} (hmem : (t, ⟨o, r⟩) ∈ log)
    (happ : app' = app ∨ ∃ req, o = .http req ∧ app' = (link.serve X req app).2) :
    Earlier X source content link app' := by
  rcases happ with rfl | ⟨req, rfl, rfl⟩
  · exact h
  · exact .arrived h hcall hmem

include hsource

theorem Inv.fits (h : Inv X link source content app₀ c) : Fits X (buildManifest source) content c.app :=
  h.past.fits (hsource ▸ ofFile_fileSource name entries content transferId)

omit hsource in
theorem Inv.start (hpast : Earlier X source content link app) :
    Inv X link source content app (.start X link source app) := by
  refine ⟨⟨fun t => .nil _, trivial⟩, hpast, fun i => .fresh, fun i hi => absurd rfl hi, .inl ⟨_, ⟨?_, ?_, ?_,
    fun i hi => absurd rfl hi, ?_, ?_⟩, fun i hi => hi⟩⟩
  · exact List.nil_prefix
  · exact fun _ => ⟨rfl, fun i => rfl⟩
  · exact fun hlen => absurd (show 3 ≤ 0 from hlen) (by decide)
  · exact fun hlen => absurd (show 4 ≤ 0 from hlen) (by decide)
  · exact fun hlen => absurd (show 0 = 7 from hlen) (by decide)

/-- What is left of the script is what `main` is going to do, if nothing goes wrong. -/
theorem MainAt.rest (h : MainAt X link source content haves c)
    (hcall : Call X link.target link.key source content c.log c.threads) : ∃ rest,
      own .main c.log ++ rest = Tunnel.script X link source content haves.toList ∧
      Follows (c.threads .main) rest (.ret "transfer complete") := by
  obtain ⟨rest, hrest⟩ := h.script
  have hpath := follows_script X link hsource haves.toList
  rw [← hrest] at hpath
  obtain ⟨mid, hmid, hgo⟩ := hpath.split
  rw [hmid.functional (hcall.follows .main)] at hgo
  exact ⟨rest, hrest, hgo⟩

/-- The next operation of `main` is the script's. -/
theorem MainAt.next (h : MainAt X link source content haves c)
    (hcall : Call X link.target link.key source content c.log c.threads) {o : SendOp}
    {k : o.Res → SendProg String} (hnext : c.threads .main = .step o k) :
    ∃ r rest, Tunnel.script X link source content haves.toList = own .main c.log ++ ⟨o, r⟩ :: rest := by
  obtain ⟨rest, hrest, hgo⟩ := h.rest hsource hcall
  rw [hnext] at hgo
  cases hgo with
  | cons _ => exact ⟨_, _, hrest.symm⟩

/-- `main` waits for the chunks the receiver did not have. -/
theorem MainAt.waits (h : MainAt X link source content haves c)
    (hcall : Call X link.target link.key source content c.log c.threads) {chunks : List Nat}
    (hw : Waits X link.target source c.log chunks) :
    (own .main c.log).length = 3 ∧ chunks = missing (buildManifest source) haves.toList := by
  obtain ⟨k, hk⟩ := hw
  obtain ⟨r, rest, heq⟩ := h.next hsource hcall ((hcall.follows .main).functional hk)
  cases scriptAt_of_eq heq with
  | quiet hquiet =>
      have hno := quiet_of_script (hquiet.imp And.left And.left)
      exact absurd rfl (hno.2.1 chunks)
  | offer _ ha => cases ha
  | uploads htr ha =>
      cases ha
      exact ⟨by rw [htr]; rfl, rfl⟩
  | commit _ ha => cases ha

omit hsource in
/-- Once the uploads are over, the receiver has every chunk. -/
theorem MainAt.complete (h : MainAt X link source content haves c) (hlen : 4 ≤ (own .main c.log).length) :
    ∀ i < (buildManifest source).totalChunks, i ∈ haves ∨ c.threads (.upload i) = .ret () := by
  intro i hi
  by_cases hmem : i ∈ haves
  · exact .inl hmem
  · exact .inr (h.closing hlen i (mem_missing.mpr ⟨hi, hmem⟩))

omit hsource in
/-- Once `main` has failed, nothing goes on. -/
theorem Inv.not_waits (h : Inv X link source content app₀ c) {e : Anyhow} (he : c.threads .main = .fail e)
    (chunks : List Nat) : ¬ Waits X link.target source c.log chunks := by
  rintro ⟨k, hk⟩
  have hfail := (h.call.follows .main).functional hk
  rw [he] at hfail
  cases hfail

omit hsource in
/-- While `main` has something to do, it has met no failure. -/
theorem Inv.mainAt (h : Inv X link source content app₀ c) {o : SendOp} {k : o.Res → SendProg String}
    (hnext : c.threads .main = .step o k) : ∃ haves, MainAt X link source content haves c ∧
      ∀ i ∈ (startState X (buildManifest source) app₀.disk).haves, i ∈ haves := by
  rcases h.main with hat | ⟨⟨e, he⟩, -⟩
  · exact hat
  · rw [he] at hnext
    cases hnext

omit hsource in
/-- Where `main` gets by one more action. -/
theorem Inv.main_gets (h : Inv X link source content app₀ c) {o : SendOp} {k : o.Res → SendProg String}
    {r : o.Res} {tr : List SendAction} {q : SendProg String} (hnext : c.threads .main = .step o k)
    (htr : own .main c.log = tr) (hpath : Follows (send X link.target source) (tr ++ [⟨o, r⟩]) q) :
    k r = q := by
  have hgo : Follows (c.threads .main) [(⟨o, r⟩ : SendAction)] (k r) := by
    rw [hnext]
    exact .cons (.nil _)
  subst htr
  exact ((h.call.follows .main).append hgo).functional hpath

/-- While what was lost is forgiven, no upload has failed. -/
theorem Inv.unbroken (h : Inv X link source content app₀ c) (hforgiven : Forgiven c.log) (i : Nat)
    (e : Anyhow) : c.threads (.upload i) ≠ .fail e := by
  intro he
  have hbroken := h.uploads i
  rw [he] at hbroken
  obtain ⟨hcount, hno⟩ := hforgiven.2 i
  rcases hbroken.not_forgiven hsource with hmany | ⟨a, ha, href⟩
  · omega
  · simp [hno a ha] at href

omit hsource in
/-- While a chunk thread does something, `main` stays where it is. -/
theorem MainAt.upload (h : MainAt X link source content haves c) (hlen : (own .main c.log).length = 3) {i : Nat}
    (hi : i ∈ missing (buildManifest source) haves.toList) (a : SendAction) {q : SendProg Unit} {app' : App}
    (hactive : ActiveWith (buildManifest source)
      (fun j => (j ∈ haves ∨ c.threads (.upload j) = .ret ()) ∨ (j = i ∧ q = .ret ())) app') :
    MainAt X link source content haves ⟨c.log ++ [(.upload i, a)],
      Function.update c.threads (.upload i) q, app'⟩ := by
  have hmain : own .main (c.log ++ [(.upload i, a)]) = own .main c.log := own_snoc_of_ne (by rintro ⟨⟩) _ _
  -- `main` waits, so what it knows before and after the uploads is not asked
  refine ⟨?_, ?_, fun _ _ => ?_, ?_, ?_, ?_⟩ <;> simp only [hmain]
  · exact h.script
  · intro hshort
    omega
  · refine hactive.mono ?_
    rintro j (hj | hj)
    · exact .inl (.inl hj)
    · by_cases hji : j = i
      · subst hji
        rw [Function.update_self] at hj
        exact .inr ⟨rfl, hj⟩
      · rw [Function.update_of_ne (by simpa using hji)] at hj
        exact .inl (.inr hj)
  · intro j hne
    by_cases hj : j = i
    · exact hj ▸ hi
    · rw [own_snoc_of_ne (by simpa using Ne.symm hj)] at hne
      exact h.begun j hne
  · intro hlong
    omega
  · intro hlong
    omega

/-- A chunk thread does something. -/
theorem Inv.upload (h : Inv X link source content app₀ c) {i : Nat} {o : SendOp} {k : o.Res → SendProg Unit}
    {r : o.Res} {app' : App} (hnext : c.threads (.upload i) = .step o k)
    (hs : Scheduled X link.target source c.log (.upload i, ⟨o, r⟩)) (hlocal : Local X link.key content o r)
    (hat : UploadAt X link source content i (own (.upload i) c.log ++ [⟨o, r⟩]) (k r))
    (happ : app' = c.app ∨ ∃ req, o = .http req ∧ app' = (link.serve X req c.app).2)
    (hactive : ∀ has, i < (buildManifest source).totalChunks → ActiveWith (buildManifest source) has c.app →
      ActiveWith (buildManifest source) (fun j => has j ∨ (j = i ∧ k r = .ret ())) app') :
    Inv X link source content app₀ ⟨c.log ++ [(.upload i, ⟨o, r⟩)], Function.update c.threads (.upload i) (k r),
      app'⟩ := by
  have hcall := h.call.extend hnext (r := r) ⟨hs, hlocal⟩
  obtain ⟨chunks, hw, hi, -⟩ := hs
  rcases h.main with ⟨haves, hat', hstart⟩ | ⟨⟨e, he⟩, -⟩
  swap
  -- a call that has failed waits for no upload
  · exact absurd hw (h.not_waits he chunks)
  obtain ⟨hlen, rfl⟩ := hat'.waits hsource h.call hw
  obtain ⟨hlt, hnew⟩ := mem_missing.mp hi
  refine ⟨hcall, h.past.next hcall (List.mem_append_right _ (List.mem_singleton_self _)) happ, ?_, ?_,
    .inl ⟨haves, hat'.upload hlen hi _ (hactive _ hlt (hat'.active hlen.ge (by omega))), hstart⟩⟩
  -- the other uploads are where they were
  all_goals
    intro j
    by_cases hj : j = i
  · subst hj
    simpa only [own_snoc_self, Function.update_self] using hat
  · simpa only [own_snoc_of_ne (show Thread.upload i ≠ .upload j by simpa using Ne.symm hj),
      Function.update_of_ne (show Thread.upload j ≠ .upload i by simpa using hj)] using h.uploads j
  · subst hj
    exact fun _ => ⟨hlt, fun hmem => hnew (hstart j hmem)⟩
  · simpa only [own_snoc_of_ne (show Thread.upload i ≠ .upload j by simpa using Ne.symm hj)] using h.begun j

omit hsource in
/-- `main` does something. -/
theorem Inv.of_main (h : Inv X link source content app₀ c) {o : SendOp} {k : o.Res → SendProg String}
    {r : o.Res} {app' : App} (hnext : c.threads .main = .step o k)
    (hs : Scheduled X link.target source c.log (.main, ⟨o, r⟩)) (hlocal : Local X link.key content o r)
    (happ : app' = c.app ∨ ∃ req, o = .http req ∧ app' = (link.serve X req c.app).2)
    (hmain : (∃ haves, MainAt X link source content haves ⟨c.log ++ [(.main, ⟨o, r⟩)],
        Function.update c.threads .main (k r), app'⟩ ∧
        ∀ i ∈ (startState X (buildManifest source) app₀.disk).haves, i ∈ haves) ∨
      ((∃ e, k r = .fail e) ∧ (own .main c.log).length < 7 ∧ ¬ Forgiven (c.log ++ [(.main, ⟨o, r⟩)]))) :
    Inv X link source content app₀ ⟨c.log ++ [(.main, ⟨o, r⟩)],
      Function.update c.threads .main (k r), app'⟩ := by
  have hcall := h.call.extend hnext (r := r) ⟨hs, hlocal⟩
  have hown : ∀ j, own (.upload j) (c.log ++ [(.main, (⟨o, r⟩ : SendAction))]) = own (.upload j) c.log :=
    fun j => own_snoc_of_ne (by rintro ⟨⟩) _ _
  -- the uploads are not concerned
  refine ⟨hcall, h.past.next hcall (List.mem_append_right _ (List.mem_singleton_self _)) happ, ?_, ?_, ?_⟩
  · intro j
    dsimp only
    rw [hown j, Function.update_of_ne (by rintro ⟨⟩)]
    exact h.uploads j
  · intro j hne
    exact h.begun j (hown j ▸ hne)
  · refine hmain.imp id ?_
    rintro ⟨⟨e, he⟩, hlen, hnot⟩
    refine ⟨⟨e, ?_⟩, ?_, hnot⟩
    · dsimp only
      rw [Function.update_self, he]
    · dsimp only
      rw [own_snoc_self, List.length_append]
      exact hlen

omit hsource in
/-- `main` does the next action of its script. -/
theorem Inv.onward (h : Inv X link source content app₀ c) (hat : MainAt X link source content haves c)
    (hstart : ∀ i ∈ (startState X (buildManifest source) app₀.disk).haves, i ∈ haves) {o : SendOp}
    {k : o.Res → SendProg String} {r : o.Res} {app' : App} {rest : List SendAction}
    (heq : Tunnel.script X link source content haves.toList = own .main c.log ++ ⟨o, r⟩ :: rest)
    (hnext : c.threads .main = .step o k) (hs : Scheduled X link.target source c.log (.main, ⟨o, r⟩))
    (hlocal : Local X link.key content o r)
    (happ : app' = c.app ∨ ∃ req, o = .http req ∧ app' = (link.serve X req c.app).2)
    (hopening : (own .main c.log).length < 2 → app' = c.app)
    (hactive : 2 ≤ (own .main c.log).length → (own .main c.log).length < 6 →
      ActiveWith (buildManifest source) (fun i => i ∈ haves ∨ c.threads (.upload i) = .ret ()) app')
    (hclosing : 3 ≤ (own .main c.log).length → ∀ i ∈ missing (buildManifest source) haves.toList,
      c.threads (.upload i) = .ret ())
    (hended : (own .main c.log).length = 6 →
      app'.transfer = none ∧ Placed (buildManifest source) content app') :
    Inv X link source content app₀ ⟨c.log ++ [(.main, ⟨o, r⟩)],
      Function.update c.threads .main (k r), app'⟩ := by
  have hlen : (own .main (c.log ++ [(.main, (⟨o, r⟩ : SendAction))])).length
      = (own .main c.log).length + 1 := by
    simp [own_snoc_self]
  have hupload : ∀ i, own (.upload i) (c.log ++ [(.main, (⟨o, r⟩ : SendAction))]) = own (.upload i) c.log :=
    fun i => own_snoc_of_ne (by rintro ⟨⟩) _ _
  have hothers : ∀ i, Function.update c.threads .main (k r) (.upload i) = c.threads (.upload i) :=
    fun i => Function.update_of_ne (by rintro ⟨⟩) _ _
  -- `main` is one action further in its script
  refine h.of_main hnext hs hlocal happ (.inl ⟨haves, ⟨?_, ?_, ?_, ?_, ?_, ?_⟩, hstart⟩) <;>
    simp only [hlen, hupload, hothers]
  · rw [own_snoc_self, heq]
    exact ⟨rest, by simp⟩
  · intro hshort
    rw [hopening (by omega)]
    exact hat.opening (by omega)
  · intro h3 h7
    exact hactive (by omega) (by omega)
  · exact hat.begun
  · intro h4
    exact hclosing (by omega)
  · intro h7
    exact hended (by omega)

/-- An upload has failed, and `main` is told. -/
theorem Inv.main_told (h : Inv X link source content app₀ c)
    (htr : own .main c.log = ackActions X link.target link.key source ⟨true, false, haves.toList⟩)
    {k : Except Anyhow Unit → SendProg String} {e : Anyhow}
    (hnext : c.threads .main = .step (.uploads (missing (buildManifest source) haves.toList)) k)
    (hs : Scheduled X link.target source c.log
      (.main, ⟨.uploads (missing (buildManifest source) haves.toList), .error e⟩)) :
    Inv X link source content app₀ ⟨c.log ++ [(.main, ⟨.uploads (missing (buildManifest source) haves.toList),
      .error e⟩)], Function.update c.threads .main (k (.error e)), c.app⟩ := by
  obtain ⟨i, hi, hfail⟩ := hs
  obtain ⟨e', hpath⟩ := follows_failedUpload X link hsource haves.toList e
  have hthree : (own .main c.log).length = 3 := by rw [htr]; rfl
  refine h.of_main hnext ⟨i, hi, hfail⟩ trivial (.inl rfl)
    (.inr ⟨⟨e', h.main_gets hnext htr hpath⟩, by omega, fun hforgiven => ?_⟩)
  exact h.unbroken hsource hforgiven.of_append i e ((h.call.follows (.upload i)).functional hfail)

/-- An operation of `main` that is answered by its machine or by the receiver. -/
theorem Inv.main_acts (h : Inv X link source content app₀ c) (hacc : link.Accepting)
    (hadm : Admissible X link (buildManifest source) content) {o : SendOp} {k : o.Res → SendProg String}
    {r : o.Res} (hnext : c.threads .main = .step o k)
    (hs : Scheduled X link.target source c.log (.main, ⟨o, r⟩)) (ha : Answers X link content c.app o r) :
    Inv X link source content app₀ ⟨c.log ++ [(.main, ⟨o, r⟩)], Function.update c.threads .main (k r),
      appAfter X link c.app [(.main, ⟨o, r⟩)]⟩ := by
  have hof := ofFile_of_source hsource
  obtain ⟨haves, hat, hstart⟩ := h.mainAt hnext
  obtain ⟨r', rest, heq⟩ := hat.next hsource h.call hnext
  cases scriptAt_of_eq heq with
  | quiet hquiet =>
      obtain ⟨hhttp, hwait, hans⟩ := quiet_of_script (hquiet.imp And.left And.left)
      have hpos : (own .main c.log).length < 2 ∨ 4 ≤ (own .main c.log).length ∧ (own .main c.log).length < 6 :=
        hquiet.imp And.right And.right
      obtain rfl := answer_eq hhttp hwait ha (hans c.app)
      rw [appAfter_quiet hhttp]
      refine h.onward hat hstart heq hnext hs ha.local (.inl rfl) (fun _ => rfl) ?_ ?_ ?_
      · intro h2 h6
        exact hat.active (by omega) (by omega)
      · intro h3
        exact hat.closing (by omega)
      · intro h6
        omega
  -- the offer is accepted, with the chunks that are staged
  | offer htr hoffer =>
      cases hoffer
      have htwo : (own .main c.log).length = 2 := by rw [htr]; rfl
      obtain ⟨hhaves, hnone⟩ := hat.opening (by omega)
      obtain ⟨hans, hactive⟩ := serve_offer (h.fits hsource) hof hacc hadm
      obtain rfl : r = .ok ⟨200, X.manifestAckJson.toVec ⟨true, false, haves.toList⟩⟩ := by
        rw [show r = _ from ha, hans, hhaves]
      refine h.onward hat hstart heq hnext hs ha.local (.inr ⟨_, rfl, rfl⟩) ?_ ?_ ?_ ?_
      · intro h2
        omega
      · intro _ _
        refine hactive.mono ?_
        rintro i (hi | hi)
        · exact hhaves ▸ hi
        · -- no upload has begun
          obtain ⟨o, k, hstep⟩ : ∃ o k, uploadOf X link.target source i = .step o k :=
            uploadOf_eq_step hsource i
          have hat' := h.uploads i
          rw [hnone i] at hat'
          rw [hat'.eq_uploadOf, hstep] at hi
          cases hi
      · intro h3
        omega
      · intro h6
        omega
  -- the uploads have ended, or one has failed
  | uploads htr huploads =>
      cases huploads
      have hthree : (own .main c.log).length = 3 := by rw [htr]; rfl
      cases r with
      | error e => exact h.main_told hsource htr hnext hs
      | ok u =>
          refine h.onward hat hstart heq hnext hs ha.local (.inl rfl) (fun _ => rfl) ?_ ?_ ?_
          · intro _ _
            exact hat.active (by omega) (by omega)
          · intro _ i hi
            exact (h.call.follows (.upload i)).functional (hs i hi)
          · intro h6
            omega
  -- everything is staged, so the commit goes through
  | commit htr hcommit =>
      cases hcommit
      have hsix : (own .main c.log).length = 6 := by rw [htr]; rfl
      obtain ⟨hans, hnone, hplaced⟩ := (hat.active (by omega) (by omega)).commit link (h.fits hsource) hof
        hadm (hat.complete (by omega))
      obtain rfl : r = .ok ⟨200, X.commitAckJson.toVec ⟨true, none⟩⟩ := by
        rw [show r = _ from ha, hans]
      refine h.onward hat hstart heq hnext hs ha.local (.inr ⟨_, rfl, rfl⟩) ?_ ?_ ?_ ?_
      · intro h2
        omega
      · intro _ h6
        omega
      · intro _
        exact hat.closing (by omega)
      · exact fun _ => ⟨hnone, hplaced⟩

omit hsource in
theorem failed_of_lost {r : Except String Response} (hr : Lost X r) (req : Request) :
    failed ⟨.http req, r⟩ = true := by
  cases r with
  | error e => rfl
  | ok r =>
      rw [failed, hr.1]
      rfl

/-- A request of `main` that is lost ends the call. -/
theorem Inv.main_lost (h : Inv X link source content app₀ c) {req : Request}
    {k : Except String Response → SendProg String} {r : Except String Response} {app' : App}
    (hnext : c.threads .main = .step (.http req) k)
    (hs : Scheduled X link.target source c.log (.main, ⟨.http req, r⟩)) (hr : Lost X r)
    (happ : app' = c.app ∨ app' = (link.serve X req c.app).2) :
    Inv X link source content app₀ ⟨c.log ++ [(.main, ⟨.http req, r⟩)], Function.update c.threads .main (k r),
      app'⟩ := by
  obtain ⟨haves, hat, hstart⟩ := h.mainAt hnext
  obtain ⟨r', rest, heq⟩ := hat.next hsource h.call hnext
  have hlen : (own .main c.log).length < 7 := by
    have hwhole := congrArg List.length heq
    rw [length_script, List.length_append, List.length_cons] at hwhole
    omega
  -- a lost offer or commit ends the call
  have hends : ∃ e, k r = .fail e := by
    cases scriptAt_of_eq heq with
    | quiet hquiet => exact absurd rfl ((quiet_of_script (hquiet.imp And.left And.left)).1 req)
    | offer htr hoffer =>
        cases hoffer
        obtain ⟨e, hpath⟩ := follows_lostOffer link source hr
        exact ⟨e, h.main_gets hnext htr hpath⟩
    | uploads _ huploads => cases huploads
    | commit htr hcommit =>
        cases hcommit
        obtain ⟨e, hpath⟩ := follows_lostCommit X link hsource haves.toList hr
        exact ⟨e, h.main_gets hnext htr hpath⟩
  refine h.of_main hnext hs (by cases r <;> trivial) (happ.imp id fun h => ⟨req, rfl, h⟩)
    (.inr ⟨hends, hlen, fun hforgiven => ?_⟩)
  -- and is not forgiven
  have hbad := hforgiven.1 ⟨.http req, r⟩ (by rw [own_snoc_self]; simp)
  rw [failed_of_lost hr req] at hbad
  cases hbad

/-- An operation of a chunk thread that is answered by its machine or by the receiver. -/
theorem Inv.upload_acts (h : Inv X link source content app₀ c) {i : Nat} {o : SendOp}
    {k : o.Res → SendProg Unit} {r : o.Res} (hnext : c.threads (.upload i) = .step o k)
    (hs : Scheduled X link.target source c.log (.upload i, ⟨o, r⟩)) (ha : Answers X link content c.app o r) :
    Inv X link source content app₀ ⟨c.log ++ [(.upload i, ⟨o, r⟩)], Function.update c.threads (.upload i) (k r),
      appAfter X link c.app [(.upload i, ⟨o, r⟩)]⟩ := by
  have hof := ofFile_of_source hsource
  have hat := h.uploads i
  rw [hnext] at hat
  have hi : i < (buildManifest source).totalChunks := by
    obtain ⟨chunks, hw, hi, -⟩ := hs
    rcases h.main with ⟨haves, hat, -⟩ | ⟨⟨e, he⟩, -⟩
    · obtain ⟨-, rfl⟩ := hat.waits hsource h.call hw
      exact (mem_missing.mp hi).1
    · exact absurd hw (h.not_waits he chunks)
  -- an attempt, or what comes before the first
  by_cases hhttp : ∃ req, o = .http req
  · obtain ⟨req, rfl⟩ := hhttp
    obtain ⟨rfl, hgoes⟩ := hat.request hsource
    refine h.upload hsource hnext hs ha.local (hgoes r).1 (.inr ⟨_, rfl, rfl⟩) ?_
    intro has _ hactive
    exact ((hactive.chunk link (h.fits hsource) hof hi).2).mono fun j hj => hj.imp id And.left
  · have hno : ∀ req, o ≠ .http req := fun req hreq => hhttp ⟨req, hreq⟩
    obtain ⟨hat', hne, -⟩ := hat.quiet hsource hno hi ha
    rw [appAfter_quiet hno]
    refine h.upload hsource hnext hs ha.local hat' (.inl rfl) ?_
    intro has _ hactive
    exact hactive.mono fun j hj => hj.resolve_right fun hret => hne hret.2

/-- A chunk that is lost. -/
theorem Inv.upload_lost (h : Inv X link source content app₀ c) {i : Nat} {req : Request}
    {k : Except String Response → SendProg Unit} {r : Except String Response} {app' : App}
    (hnext : c.threads (.upload i) = .step (.http req) k)
    (hs : Scheduled X link.target source c.log (.upload i, ⟨.http req, r⟩)) (hr : Lost X r)
    (happ : app' = c.app ∨ app' = (link.serve X req c.app).2) :
    Inv X link source content app₀ ⟨c.log ++ [(.upload i, ⟨.http req, r⟩)],
      Function.update c.threads (.upload i) (k r), app'⟩ := by
  have hof := ofFile_of_source hsource
  have hat := h.uploads i
  rw [hnext] at hat
  obtain ⟨rfl, hgoes⟩ := hat.request hsource
  obtain ⟨hat', hret⟩ := hgoes r
  have hne : k r ≠ .ret () := by
    intro hret'
    have hbad := hret.mp hret'
    rw [failed_of_lost hr] at hbad
    cases hbad
  refine h.upload hsource hnext hs (by cases r <;> trivial) hat' (happ.imp id fun h => ⟨_, rfl, h⟩) ?_
  intro has hi hactive
  -- whether the chunk arrived or not, no less is staged
  rcases happ with rfl | rfl
  · exact hactive.mono fun j hj => hj.resolve_right fun hj => hne hj.2
  · exact ((hactive.chunk link (h.fits hsource) hof hi).2).mono fun j hj => hj.imp id And.left

/-- A chunk of some call that arrives late. -/
theorem Inv.late (h : Inv X link source content app₀ c) {log : List (Thread × SendAction)}
    {qs : (t : Thread) → SendProg t.Out} {t : Thread} {i : Nat} {req : Request} {r : Except String Response}
    (hcall : Call X link.target link.key source content log qs) (hmem : (t, ⟨.http req, r⟩) ∈ log)
    (hreq : req.endpoint = .chunk i) :
    Inv X link source content app₀ ⟨c.log, c.threads, (link.serve X req c.app).2⟩ := by
  have hof := ofFile_of_source hsource
  refine ⟨h.call, .arrived h.past hcall hmem, h.uploads, h.begun, ?_⟩
  rcases h.main with ⟨haves, hat, hstart⟩ | hfailed
  swap
  · exact .inr hfailed
  -- only chunks come late
  cases hcall.honest hof hmem with
  | offer => cases hreq
  | commit => cases hreq
  | @chunk j hj =>
      left
      by_cases hshort : (own .main c.log).length < 3
      · -- what an offer would find has grown
        obtain ⟨rfl, hnone⟩ := hat.opening hshort
        refine ⟨_, ⟨script_of_short hat.script hshort, fun _ => ⟨rfl, hnone⟩, ?_,
          fun i hne => absurd (hnone i) hne, ?_, ?_⟩, fun i hi =>
          startState_chunk (h.fits hsource) hof hj i (hstart i hi)⟩ <;> dsimp only <;> intro hlen <;> omega
      -- the transfer is on, or over
      · refine ⟨haves, ⟨hat.script, fun hlen => absurd hlen hshort, ?_, hat.begun, hat.closing, ?_⟩, hstart⟩
        · intro h3 h7
          exact ((hat.active h3 h7).chunk link (h.fits hsource) hof hj).2.mono fun i hi => .inl hi
        · intro h7
          obtain ⟨hnone, hplaced⟩ := hat.ended h7
          obtain ⟨r, app', heq, hnone', hdisk, -⟩ := serve_none X hnone
            (chunkRequest X link (buildManifest source) content j) rfl (.inl ⟨j, rfl⟩)
          dsimp only
          rw [heq]
          refine ⟨hnone', ?_⟩
          rw [Placed, hdisk]
          exact hplaced

/-- **The step lemma.** -/
theorem Inv.step (h : Inv X link source content app₀ c) (hacc : link.Accepting)
    (hadm : Admissible X link (buildManifest source) content) {c' : Underway}
    (hstep : Underway.Step X link source content c c') : Inv X link source content app₀ c' := by
  cases hstep with
  | @acts t o k r hnext hs ha =>
      cases t with
      | main => exact h.main_acts hsource hacc hadm hnext hs ha
      | upload i => exact h.upload_acts hsource hnext hs ha
  | @lost t req k r hnext hs hr arrives =>
      have happ : (if arrives then (link.serve X req c.app).2 else c.app) = c.app ∨
          (if arrives then (link.serve X req c.app).2 else c.app) = (link.serve X req c.app).2 := by
        cases arrives
        · exact .inl rfl
        · exact .inr rfl
      cases t with
      | main => exact h.main_lost hsource hnext hs hr happ
      | upload i => exact h.upload_lost hsource hnext hs hr happ
  | late hcall hmem hreq => exact h.late hsource hcall hmem hreq

theorem Inv.of_reaches (hacc : link.Accepting)
    (hadm : Admissible X link (buildManifest source) content) (hpast : Earlier X source content link app)
    (hreach : Reaches X link source content app c) : Inv X link source content app c := by
  induction hreach with
  | refl => exact .start hpast
  | tail _ hstep ih => exact ih.step hsource hacc hadm hstep

/-! ## The end -/

omit hsource in
theorem Forgiven.snoc {log : List (Thread × SendAction)} (h : Forgiven log) {a : SendAction} (t : Thread)
    (hfail : failed a = false) (href : refused a = false) : Forgiven (log ++ [(t, a)]) := by
  have hown : ∀ t', own t' (log ++ [(t, a)]) = own t' log ∨ own t' (log ++ [(t, a)]) = own t' log ++ [a] := by
    intro t'
    by_cases ht : t = t'
    · subst ht
      exact .inr (own_snoc_self _ _ _)
    · exact .inl (own_snoc_of_ne ht _ _)
  -- neither `main` nor any upload has one failure more
  refine ⟨fun b hb => ?_, fun i => ⟨?_, fun b hb => ?_⟩⟩
  · rcases hown .main with heq | heq <;> rw [heq] at hb
    · exact h.1 b hb
    · rcases List.mem_append.mp hb with hb | hb
      · exact h.1 b hb
      · exact List.mem_singleton.mp hb ▸ hfail
  · rcases hown (.upload i) with heq | heq <;> rw [heq]
    · exact (h.2 i).1
    · rw [List.countP_append, List.countP_cons_of_neg (by rw [hfail]; decide)]
      exact (h.2 i).1
  · rcases hown (.upload i) with heq | heq <;> rw [heq] at hb
    · exact (h.2 i).2 b hb
    · rcases List.mem_append.mp hb with hb | hb
      · exact (h.2 i).2 b hb
      · exact List.mem_singleton.mp hb ▸ href

omit hsource in
theorem exists_answer (X : Externals) (link : Link) (content : Bytes) (app : App) (o : SendOp) :
    ∃ r, Answers X link content app o r := by
  cases o with
  | uploads chunks => exact ⟨.ok (), trivial⟩
  | _ => exact ⟨_, rfl⟩

omit hsource in
/-- An answer that can be given, after which the run is as forgiven as it was. -/
theorem Forgiven.goes {t : Thread} {o : SendOp} {k : o.Res → SendProg t.Out} {r : o.Res}
    (h : Forgiven c.log) (hnext : c.threads t = .step o k)
    (hs : Scheduled X link.target source c.log (t, ⟨o, r⟩)) (ha : Answers X link content c.app o r)
    (hfail : failed ⟨o, r⟩ = false) (href : refused ⟨o, r⟩ = false) :
    ∃ c', Underway.Step X link source content c c' ∧ c'.log.length = c.log.length + 1 ∧ Forgiven c'.log := by
  refine ⟨_, .acts hnext hs ha, ?_, h.snoc t hfail href⟩
  rw [List.length_append]
  rfl

omit hsource in
theorem unfailed_of_quiet {o : SendOp} (hhttp : ∀ req, o ≠ .http req) (r : o.Res) :
    failed ⟨o, r⟩ = false ∧ refused ⟨o, r⟩ = false := by
  cases o with
  | http req => exact absurd rfl (hhttp req)
  | _ => exact ⟨rfl, rfl⟩

omit hsource in
/-- The first element with a property. -/
theorem exists_leftmost {α : Type} {l : List α} (hnodup : l.Nodup) {p : α → Bool} (h : ∃ x ∈ l, p x = true) :
    ∃ x ∈ l, p x = true ∧ ∀ before later, l = before ++ x :: later → ∀ y ∈ before, p y = false := by
  obtain ⟨x, hfind⟩ := Option.isSome_iff_exists.mp (List.find?_isSome.mpr h)
  obtain ⟨hx, before, later, rfl, hbefore⟩ := List.find?_eq_some_iff_append.mp hfind
  refine ⟨x, by simp, hx, fun before' later' heq y hy => ?_⟩
  have hnot : x ∉ before ∧ x ∉ later := by simpa using (List.nodup_middle.mp hnodup).notMem
  obtain ⟨rfl, -⟩ := (List.append_cons_inj_of_notMem hnot.1 hnot.2).mp heq
  simpa using hbefore y hy

/-- While `main` waits, some upload can go on, unless all have ended. -/
theorem Inv.upload_goes (h : Inv X link source content app₀ c) (hforgiven : Forgiven c.log)
    (hat : MainAt X link source content haves c)
    (hw : Waits X link.target source c.log (missing (buildManifest source) haves.toList))
    (hleft : ¬ ∀ i ∈ missing (buildManifest source) haves.toList, c.threads (.upload i) = .ret ()) :
    ∃ i o k, c.threads (.upload i) = .step o k ∧ i ∈ missing (buildManifest source) haves.toList ∧
      ∀ a, Scheduled X link.target source c.log (.upload i, a) := by
  have hunbroken := h.unbroken hsource hforgiven
  -- no upload has failed, so none holds the others up
  have hnofail : ∀ j ∈ missing (buildManifest source) haves.toList, ∀ e,
      ¬ Follows (uploadOf X link.target source j) (own (.upload j) c.log) (.fail e) :=
    fun j _ e hfail => hunbroken j e ((h.call.follows (.upload j)).functional hfail)
  have hmoves : ∀ i, c.threads (.upload i) ≠ .ret () → ∃ o k, c.threads (.upload i) = .step o k := by
    intro i hne
    cases hq : c.threads (.upload i) with
    | ret u => exact absurd hq hne
    | fail e => exact absurd hq (hunbroken i e)
    | step o k => exact ⟨o, k, rfl⟩
  by_cases hrunning : ∃ i ∈ missing (buildManifest source) haves.toList,
      own (.upload i) c.log ≠ [] ∧ c.threads (.upload i) ≠ .ret ()
  · -- one that has begun
    obtain ⟨i, hi, hbegun, hne⟩ := hrunning
    obtain ⟨o, k, hstep⟩ := hmoves i hne
    exact ⟨i, o, k, hstep, hi, fun a => ⟨_, hw, hi, hnofail, fun hnil => absurd hnil hbegun⟩⟩
  · -- none is running: the first that has not begun
    push Not at hrunning hleft
    obtain ⟨j, hj, hjne⟩ := hleft
    have hjnil : own (.upload j) c.log = [] := by
      by_contra hne
      exact hjne (hrunning j hj hne)
    obtain ⟨i, hi, hempty, hfirst⟩ := exists_leftmost (l := missing (buildManifest source) haves.toList)
      (List.nodup_range.filter _) (p := fun i => (own (.upload i) c.log).isEmpty) ⟨j, hj, by rw [hjnil]; rfl⟩
    have hnil : own (.upload i) c.log = [] := List.isEmpty_iff.mp hempty
    have hfresh := h.uploads i
    rw [hnil] at hfresh
    obtain ⟨o, k, hstep⟩ : ∃ o k, uploadOf X link.target source i = .step o k := uploadOf_eq_step hsource i
    refine ⟨i, o, k, hfresh.eq_uploadOf.trans hstep, hi, fun a => ⟨_, hw, hi, hnofail, fun _ => ⟨?_, ?_⟩⟩⟩
    · -- those before it have all begun
      intro before later heq j hj hjnil
      have hbegun := hfirst before later heq j hj
      simp [hjnil] at hbegun
    · intro running _ hrun
      cases running with
      | nil => decide
      | cons j running =>
          obtain ⟨hbegun, o, k, hk⟩ := hrun j List.mem_cons_self
          have hret := hrunning j (hat.begun j hbegun) hbegun
          rw [(h.call.follows (.upload j)).functional hk] at hret
          cases hret

/-- The wait ends, or an upload goes on. -/
theorem Inv.uploads_go (h : Inv X link source content app₀ c) (hforgiven : Forgiven c.log)
    (hat : MainAt X link source content haves c) (hthree : (own .main c.log).length = 3)
    {k : Except Anyhow Unit → SendProg String}
    (hq : c.threads .main = .step (.uploads (missing (buildManifest source) haves.toList)) k) :
    ∃ c', Underway.Step X link source content c c' ∧ c'.log.length = c.log.length + 1 ∧ Forgiven c'.log := by
  have hof := ofFile_of_source hsource
  by_cases hall : ∀ i ∈ missing (buildManifest source) haves.toList, c.threads (.upload i) = .ret ()
  -- `main` hears that all are done
  · have hs : Scheduled X link.target source c.log (.main, ⟨.uploads (missing (buildManifest source)
        haves.toList), (.ok () : Except Anyhow Unit)⟩) := fun i hi => hall i hi ▸ h.call.follows (.upload i)
    exact hforgiven.goes hq hs trivial rfl rfl
  -- one of them goes on
  · have hw : Waits X link.target source c.log (missing (buildManifest source) haves.toList) :=
      ⟨k, hq ▸ h.call.follows .main⟩
    obtain ⟨i, o, k, hstep, hi, hs⟩ := h.upload_goes hsource hforgiven hat hw hall
    have hlt := (mem_missing.mp hi).1
    have hup := h.uploads i
    rw [hstep] at hup
    obtain ⟨r, ha⟩ := exists_answer X link content c.app o
    by_cases hhttp : ∃ req, o = .http req
    · obtain ⟨req, rfl⟩ := hhttp
      obtain ⟨rfl, -⟩ := hup.request hsource
      obtain ⟨hans, -⟩ := (hat.active (by omega) (by omega)).chunk link (h.fits hsource) hof hlt
      obtain rfl : r = .ok (status 200) := by rw [show r = _ from ha, hans]
      exact hforgiven.goes hstep (hs _) ha rfl rfl
    · obtain ⟨hfail, href⟩ := unfailed_of_quiet (fun req hreq => hhttp ⟨req, hreq⟩) r
      exact hforgiven.goes hstep (hs _) ha hfail href

/-- **As long as what was lost is forgiven, the call can go on until it has delivered.** -/
theorem Inv.goes_on (h : Inv X link source content app₀ c) (hacc : link.Accepting)
    (hadm : Admissible X link (buildManifest source) content) (hforgiven : Forgiven c.log) :
    (∃ desc, c.threads .main = .ret desc) ∨
      ∃ c', Underway.Step X link source content c c' ∧ c'.log.length = c.log.length + 1 ∧ Forgiven c'.log := by
  have hof := ofFile_of_source hsource
  rcases h.main with ⟨haves, hat, -⟩ | ⟨-, -, hnot⟩
  swap
  · exact absurd hforgiven hnot
  cases hq : c.threads .main with
  | ret desc => exact .inl ⟨desc, rfl⟩
  | fail e =>
      -- the script does not fail
      obtain ⟨rest, -, hgo⟩ := hat.rest hsource h.call
      rw [hq] at hgo
      cases hgo
  | step o k =>
      right
      obtain ⟨r', rest, heq⟩ := hat.next hsource h.call hq
      obtain ⟨r, ha⟩ := exists_answer X link content c.app o
      cases scriptAt_of_eq heq with
      -- whatever comes next, the answer it gets is no failure
      | quiet hquiet =>
          obtain ⟨hhttp, hwait, -⟩ := quiet_of_script (hquiet.imp And.left And.left)
          obtain ⟨hfail, href⟩ := unfailed_of_quiet hhttp r
          refine hforgiven.goes hq ?_ ha hfail href
          cases o with
          | uploads chunks => exact absurd rfl (hwait chunks)
          | _ => trivial
      | offer htr hoffer =>
          cases hoffer
          obtain ⟨hans, -⟩ := serve_offer (h.fits hsource) hof hacc hadm
          obtain rfl : r = .ok ⟨200, _⟩ := by rw [show r = _ from ha, hans]
          exact hforgiven.goes hq trivial ha rfl rfl
      | uploads htr huploads =>
          cases huploads
          exact h.uploads_go hsource hforgiven hat (by rw [htr]; rfl) hq
      | commit htr hcommit =>
          cases hcommit
          have hsix : (own .main c.log).length = 6 := by rw [htr]; rfl
          obtain ⟨hans, -⟩ := (hat.active (by omega) (by omega)).commit link (h.fits hsource) hof
            hadm (hat.complete (by omega))
          obtain rfl : r = .ok ⟨200, _⟩ := by rw [show r = _ from ha, hans]
          exact hforgiven.goes hq trivial ha rfl rfl

omit hsource in
theorem Inv.length_le (h : Inv X link source content app₀ c) :
    c.log.length ≤ 7 * ((buildManifest source).totalChunks + 1) := by
  have hown : ∀ t, (own t c.log).length ≤ 7 := by
    intro t
    cases t with
    | main =>
        rcases h.main with ⟨haves, hat, -⟩ | ⟨-, hlen, -⟩
        · have hle := hat.script.length_le
          rwa [length_script] at hle
        · exact hlen
    | upload i => exact (h.uploads i).length_le
  have hlen := length_le_of_own (.main :: (List.range (buildManifest source).totalChunks).map .upload)
    (fun x hx => ?_) hown
  · rw [List.length_cons, List.length_map, List.length_range] at hlen
    omega
  · obtain ⟨t, a⟩ := x
    cases t with
    | main => exact List.mem_cons_self
    | upload i =>
        refine List.mem_cons_of_mem _ (List.mem_map_of_mem (List.mem_range.mpr ?_))
        exact (h.begun i (List.ne_nil_of_mem (mem_own.mpr hx))).1

/-- `main` returns only at the end of its script. -/
theorem Inv.returned (h : Inv X link source content app₀ c) {desc : String}
    (hret : c.threads .main = .ret desc) :
    desc = "transfer complete" ∧ Placed (buildManifest source) content c.app := by
  rcases h.main with ⟨haves, hat, -⟩ | ⟨⟨e, he⟩, -⟩
  · obtain ⟨rest, hrest, hgo⟩ := hat.rest hsource h.call
    rw [hret] at hgo
    cases hgo
    rw [List.append_nil] at hrest
    exact ⟨rfl, (hat.ended (by rw [hrest, length_script])).2⟩
  · rw [hret] at he
    cases he

/-- From every state in which what was lost is forgiven there is a way to the end. -/
theorem Inv.exists_end (h : Inv X link source content app₀ c) (hacc : link.Accepting)
    (hadm : Admissible X link (buildManifest source) content) (hforgiven : Forgiven c.log) :
      ∃ c', Relation.ReflTransGen (Underway.Step X link source content) c c' ∧
      ∃ desc, c'.threads .main = .ret desc := by
  obtain ⟨n, hn⟩ : ∃ n, 7 * ((buildManifest source).totalChunks + 1) ≤ c.log.length + n :=
    ⟨_, Nat.le_add_left _ _⟩
  induction n generalizing c with
  | zero =>
      rcases h.goes_on hsource hacc hadm hforgiven with hret | ⟨c', hstep, hlen, -⟩
      · exact ⟨c, .refl, hret⟩
      · have hbound := (h.step hsource hacc hadm hstep).length_le
        omega
  | succ n ih =>
      rcases h.goes_on hsource hacc hadm hforgiven with hret | ⟨c', hstep, hlen, hforgiven'⟩
      · exact ⟨c, .refl, hret⟩
      · obtain ⟨c'', hrest, hret⟩ := ih (h.step hsource hacc hadm hstep) hforgiven' (by omega)
        exact ⟨c'', .head hstep hrest, hret⟩

end invariant

/-- **A call of `send` delivers** a file whose offer and commit the router takes, over a network that loses
requests, and after any number of calls that did not. It performs at most a fixed number of operations; it
uploads nothing that is staged; whenever it is cut off, the next call starts from a receiver this theorem is
about; if it returns, the file is in place; and while what was lost is forgiven it has returned or can go on. -/
theorem call_delivers (X : Externals) (link : Link) (hacc : link.Accepting) (name transferId : String)
    (entries : List Entry) (content : Bytes)
    (hadm : Admissible X link (buildManifest (fileSource name entries content transferId)) content) {app : App}
    (hpast : Earlier X (fileSource name entries content transferId) content link app) {c : Underway}
    (hreach : Reaches X link (fileSource name entries content transferId) content app c) :
    c.log.length ≤ 7 * ((buildManifest (fileSource name entries content transferId)).totalChunks + 1) ∧
    Earlier X (fileSource name entries content transferId) content link c.app ∧
    (∀ i a, (.upload i, a) ∈ c.log →
      i ∉ (startState X (buildManifest (fileSource name entries content transferId)) app.disk).haves) ∧
    (∀ desc, c.threads .main = .ret desc → desc = "transfer complete" ∧
      Placed (buildManifest (fileSource name entries content transferId)) content c.app) ∧
    (Forgiven c.log → (∃ desc, c.threads .main = .ret desc) ∨
      ∃ c', Underway.Step X link (fileSource name entries content transferId) content c c' ∧
        c'.log.length = c.log.length + 1 ∧ Forgiven c'.log) := by
  have h := Inv.of_reaches rfl hacc hadm hpast hreach
  refine ⟨h.length_le, h.past, ?_, fun desc hret => h.returned rfl hret, h.goes_on rfl hacc hadm⟩
  intro i a hmem
  exact (h.begun i (List.ne_nil_of_mem (mem_own.mpr hmem))).2

/-! ### A call in which something goes wrong -/

section oneByte

theorem Underway.Step.log_prefix {c c' : Underway} (h : Underway.Step X link source content c c') :
    c.log <+: c'.log := by
  cases h with
  | acts => exact List.prefix_append _ _
  | lost => exact List.prefix_append _ _
  | late => exact List.prefix_rfl

theorem log_prefix_of_steps {c c' : Underway}
    (h : Relation.ReflTransGen (Underway.Step X link source content) c c') : c.log <+: c'.log := by
  induction h with
  | refl => exact List.prefix_rfl
  | tail _ hstep ih => exact ih.trans hstep.log_prefix

variable (X link source content) in
/-- A call whose offer was lost, or arrived and its response was. -/
theorem exists_call_lostOffer : ∃ log qs r, Call X link.target link.key source content log qs ∧
    (.main, ⟨.http (offerRequest X link (buildManifest source)), r⟩) ∈ log := by
  obtain ⟨e, hpath⟩ := follows_lostOffer link source (X := X) (r := .error "timed out") trivial
  have hcall : ∃ qs, Call X link.target link.key source content _ qs := Call.of_paths (i := 0) hpath (.nil _)
    ⟨⟨trivial, trivial⟩, ⟨trivial, rfl⟩, ⟨trivial, trivial⟩, trivial⟩
  obtain ⟨qs, hcall⟩ := hcall
  exact ⟨_, qs, _, hcall, List.mem_of_getElem? (i := 2) rfl⟩

/-- A thread goes on alone, and all it asks for is answered. -/
theorem Underway.alone {c : Underway} {t : Thread} {tr : List SendAction} {q : SendProg t.Out}
    (hpath : Follows (c.threads t) tr q) (hacts : ∀ pre a post, tr = pre ++ a :: post →
      Scheduled X link.target source (c.log ++ pre.map fun a => (t, a)) (t, a) ∧
      Answers X link content (appAfter X link c.app (pre.map fun a => (t, a))) a.op a.res) :
    Relation.ReflTransGen (Underway.Step X link source content) c ⟨c.log ++ tr.map fun a => (t, a),
      Function.update c.threads t q, appAfter X link c.app (tr.map fun a => (t, a))⟩ := by
  induction tr generalizing c with
  | nil =>
      obtain rfl := hpath.of_nil
      rw [Function.update_eq_self, List.map_nil, List.append_nil]
      exact .refl
  | cons a tr ih =>
      obtain ⟨o, r⟩ := a
      obtain ⟨k, hnext, hrest⟩ : ∃ k, c.threads t = .step o k ∧ Follows (k r) tr q := by
        generalize c.threads t = p at hpath
        cases hpath with
        | cons hrest => exact ⟨_, rfl, hrest⟩
      obtain ⟨hs, ha⟩ := hacts [] ⟨o, r⟩ tr rfl
      rw [List.map_nil, List.append_nil] at hs
      -- the rest of the path, from where the first action leads
      have hlater := ih (c := ⟨c.log ++ [(t, ⟨o, r⟩)], Function.update c.threads t (k r),
        appAfter X link c.app [(t, ⟨o, r⟩)]⟩) ((Function.update_self t (k r) c.threads).symm ▸ hrest)
        fun pre a post heq => by
          have hsome := hacts (⟨o, r⟩ :: pre) a post (congrArg _ heq)
          rwa [List.map_cons, List.append_cons] at hsome
      simp only [List.append_assoc, Function.update_idem] at hlater
      exact .head (.acts hnext hs ha) hlater

/-- What `main` does before it waits. -/
theorem reaches_offered {name transferId : String} {entries : List Entry}
    (hsource : source = fileSource name entries content transferId) {haves : List Nat}
    (hans : (link.serve X (offerRequest X link (buildManifest source)) app).1
      = ⟨200, X.manifestAckJson.toVec ⟨true, false, haves⟩⟩) :
    Reaches X link source content app ⟨logOf (ackActions X link.target link.key source ⟨true, false, haves⟩)
      0 [], Function.update (threads X link.target source) .main (sendBlob X link.target (buildManifest source)
        haves transferId), (link.serve X (offerRequest X link (buildManifest source)) app).2⟩ := by
  rw [logOf, List.map_nil, List.append_nil]
  refine Underway.alone (c := .start X link source app) (t := .main)
    (follows_ackActions X link.target link.key haves hsource) ?_
  intro pre a post heq
  simp only [ackActions, offerActions, List.cons_append, List.nil_append] at heq
  rcases pre with _ | ⟨_, _ | ⟨_, _ | ⟨_, pre⟩⟩⟩ <;> simp only [List.nil_append, List.cons_append,
    List.cons.injEq] at heq
  · obtain ⟨rfl, -⟩ := heq
    exact ⟨trivial, rfl⟩
  · obtain ⟨rfl, rfl, -⟩ := heq
    exact ⟨trivial, rfl⟩
  · obtain ⟨rfl, rfl, rfl, -⟩ := heq
    exact ⟨trivial, congrArg Except.ok hans.symm⟩
  · simp at heq

variable (X link m content) in
/-- What a chunk thread does until its first request is answered. -/
def tryActions (i : Nat) (r : Except String Response) : List SendAction :=
  chunkActions X link.key content.length m.transferId i (blockOf m content i) ++
    [⟨.http (chunkRequest X link m content i), r⟩]

/-- The first attempt at the only chunk that `main` waits for is lost. -/
theorem Underway.lost_try {name transferId : String} {entries : List Entry}
    (hsource : source = fileSource name entries content transferId) {c : Underway} {i : Nat}
    (hreach : Reaches X link source content app c)
    (hw : Waits X link.target source c.log [i]) (hfresh : ∀ j, own (.upload j) c.log = [])
    (hthread : c.threads (.upload i) = uploadOf X link.target source i)
    (hi : i < (buildManifest source).totalChunks) {r : Except String Response} (hr : Lost X r) :
    ∃ qs, Reaches X link source content app ⟨c.log ++ (tryActions X link (buildManifest source) content i r).map
      fun a => (.upload i, a), qs, c.app⟩ := by
  have hread := chunkAt_eq (ofFile_of_source hsource) hi
  -- it reads and seals
  have hquiet : Follows (uploadOf X link.target source i) (chunkActions X link.key content.length
      (buildManifest source).transferId i (blockOf (buildManifest source) content i)) (uploadWithRetry X
        link.target i (chunkRequest X link (buildManifest source) content i).body (4 + 1)) := by
    subst hsource
    exact .cons (.cons (.nil _))
  -- and asks, in vain
  have hask : Follows (uploadWithRetry X link.target i (chunkRequest X link (buildManifest source) content
      i).body (4 + 1)) [⟨.http (chunkRequest X link (buildManifest source) content i), r⟩] (afterTry X link i
        (chunkRequest X link (buildManifest source) content i).body 4 r) := by
    rw [uploadWithRetry_succ]
    exact .cons (.nil _)
  have hsched : ∀ pre a post, tryActions X link (buildManifest source) content i r = pre ++ a :: post →
      Scheduled X link.target source (c.log ++ pre.map fun a => (.upload i, a)) (.upload i, a) :=
    fun pre a post => scheduled_alone hw (List.nil_append [i]).symm (List.nodup_singleton i)
      (List.forall_mem_nil _)
      (fun j _ => hfresh j) (uploadOf_eq_step hsource) (hquiet.append hask)
  rw [← hthread] at hquiet
  have hreads : Relation.ReflTransGen (Step X link source content) c _ :=
    Underway.alone hquiet fun pre a post heq => by
      refine ⟨hsched pre a (post ++ [_]) (by rw [tryActions, heq, List.append_assoc, List.cons_append]), ?_⟩
      rcases pre with _ | ⟨_, _ | ⟨_, pre⟩⟩ <;> simp only [chunkActions, List.nil_append, List.cons_append,
        List.cons.injEq] at heq
      · obtain ⟨rfl, -⟩ := heq
        subst hsource
        exact answers_readAt hread
      · obtain ⟨rfl, rfl, -⟩ := heq
        rfl
      · simp at heq
  have hnext := (Function.update_self (.upload i) _ c.threads).trans (@uploadWithRetry_succ X link
    i (chunkRequest X link (buildManifest source) content i).body 4)
  have hstep := hreads.tail (.lost hnext (hsched _ _ [] rfl) hr false)
  simp only [tryActions, List.map_append, ← List.append_assoc]
  exact ⟨_, hreach.trans hstep⟩

/-- What is forgiven of a chunk whose first attempt was lost. -/
theorem forgiven_lost_try {haves : List Nat} {i : Nat} :
    Forgiven (logOf (ackActions X link.target link.key source
    ⟨true, false, haves⟩) i (tryActions X link m content i (.error "timed out"))) := by
  constructor
  · rw [own_main_logOf]
    simp [ackActions, offerActions, failed, Response.isSuccess]
  · intro j
    rw [own_upload_logOf]
    split
    · simp [tryActions, chunkActions, failed, refused, CHUNK_ATTEMPTS]
    · simp [CHUNK_ATTEMPTS]

/-- What an earlier call has left that made its offer, at a receiver that was started again since. -/
theorem exists_left : ∃ app, Earlier oneByteWorld (fileSource "a" [] [7] "t") [7] lenient app ∧
    app.disk.dirs (stagingDir "a") = true ∧
    (startState oneByteWorld (buildManifest (fileSource "a" [] [7] "t")) app.disk).haves = .empty := by
  have hof : OfFile (buildManifest (fileSource "a" [] [7] "t")) [7] := ofFile_fileSource "a" [] [7] "t"
  obtain ⟨log, qs, r, hcall, hoffered⟩ := exists_call_lostOffer oneByteWorld lenient
    (fileSource "a" [] [7] "t") [7]
  have hblank : Earlier oneByteWorld (fileSource "a" [] [7] "t") [7] lenient (freshApp Fs.blank) :=
    .start lenient Fs.blank_wf (Fs.blank_clear _) rfl
  obtain ⟨app, heq, hheld, store, htr, hstate⟩ :=
    held_offer (show lenient.Accepting from rfl) hof.version hof.ne_text
    Fs.blank_wf (Fs.blank_clear _).makes ((hblank.fits hof).ready.holds_start hof.chunkSize_pos)
      admissible_oneByte.offer
  have hserved : (lenient.serve oneByteWorld (offerRequest oneByteWorld lenient (buildManifest
      (fileSource "a" [] [7] "t"))) (freshApp Fs.blank)).2 = app := congrArg Prod.snd heq
  obtain ⟨-, hst⟩ := hheld _ htr
  refine ⟨freshApp app.disk, .restarted (hserved ▸ hblank.arrived hcall hoffered) lenient, ?_, ?_⟩
  · have hdir := hst.live.dir
    rwa [hst.dir, show Stream.safeName (buildManifest (fileSource "a" [] [7] "t")).name = "a" from
      Stream.safeName_a] at hdir
  · exact (congrArg State.haves hst.resumes.startState_eq).trans (congrArg State.haves hstate)

/-- A file of one byte, to a receiver at which an earlier call has left a staging directory. The first attempt
at the chunk is lost, but comes in the end. -/
theorem call_delivers_oneByte : ∃ app c, Earlier oneByteWorld (fileSource "a" [] [7] "t") [7] lenient app ∧
    app.disk.dirs (stagingDir "a") = true ∧
    Reaches oneByteWorld lenient (fileSource "a" [] [7] "t") [7] app c ∧
    (.upload 0, ⟨.http (chunkRequest oneByteWorld lenient (buildManifest (fileSource "a" [] [7] "t")) [7] 0),
      .error "timed out"⟩) ∈ c.log ∧
    c.threads .main = .ret "transfer complete" ∧
    Placed (buildManifest (fileSource "a" [] [7] "t")) [7] c.app := by
  obtain ⟨app, hpast, hdir, hnone⟩ := exists_left
  have hacc : lenient.Accepting := rfl
  have hof : OfFile (buildManifest (fileSource "a" [] [7] "t")) [7] := ofFile_fileSource "a" [] [7] "t"
  have hadm := admissible_oneByte
  -- `main` waits for the chunk
  obtain ⟨hans, -⟩ := serve_offer (hpast.fits hof) hof hacc hadm
  rw [hnone] at hans
  have hwaiting : Reaches oneByteWorld lenient (fileSource "a" [] [7] "t") [7] app _ := reaches_offered rfl hans
  have hw : Waits oneByteWorld lenient.target (fileSource "a" [] [7] "t") (logOf (ackActions oneByteWorld
      lenient.target lenient.key (fileSource "a" [] [7] "t") ⟨true, false, []⟩) 0 []) [0] := by
    rw [Waits, own_main_logOf]
    exact ⟨_, follows_ackActions oneByteWorld lenient.target lenient.key [] rfl⟩
  -- the first attempt at it is lost, and comes late
  obtain ⟨qs, hattempt⟩ := Underway.lost_try rfl hwaiting hw
    (fun j => (own_upload_logOf _ 0 [] j).trans (ite_self _)) rfl (by decide) (r := .error "timed out") trivial
  have hinv := Inv.of_reaches rfl hacc hadm hpast hattempt
  have hmem := List.mem_append_right (logOf (ackActions oneByteWorld lenient.target lenient.key
    (fileSource "a" [] [7] "t") ⟨true, false, []⟩) 0 [])
    (List.mem_map_of_mem (f := fun a => (Thread.upload 0, a))
      (List.mem_append_right (chunkActions oneByteWorld lenient.key 1 "t" 0 [7]) (List.mem_singleton_self
        (⟨.http (chunkRequest oneByteWorld lenient (buildManifest (fileSource "a" [] [7] "t")) [7] 0),
          .error "timed out"⟩ : SendAction))))
  have hlate := hattempt.tail (.late hinv.call hmem rfl)
  -- and the call goes on to its end
  obtain ⟨c, hrest, desc, hret⟩ := (Inv.of_reaches rfl hacc hadm hpast hlate).exists_end rfl hacc hadm
    (forgiven_lost_try (i := 0))
  obtain ⟨-, -, -, hsound, -⟩ := call_delivers oneByteWorld lenient hacc "a" "t" [] [7] hadm hpast
    (hlate.trans hrest)
  obtain ⟨rfl, hplaced⟩ := hsound desc hret
  exact ⟨app, c, hpast, hdir, hlate.trans hrest, (log_prefix_of_steps hrest).subset hmem, hret, hplaced⟩

end oneByte

end Tunnel
end B2p
