import B2p.Store.Crash
import B2p.Tunnel.Retry

/-!
# What earlier calls leave at the receiver

Calls of `send` for one file, any number of them, cut off anywhere. What they asked for reached the
receiver late, twice, out of order, or not at all, and the receiver itself may have been killed while it
stored something and started again, with another code.

* `Earlier` — the receivers there are after that.
* `Fits` — what is staged at such a receiver is part of the file; `Earlier.fits`.
-/

namespace B2p

open Interaction Prog Fs

/-! ## A store that is killed -/

namespace Stream

variable {X : Externals} {m : Manifest} {content : Bytes} {fs : Fs} {store : Store}

variable (X m content) in
/-- A disk a transfer may start from: what is staged fits, and nothing is in the way of the file. -/
structure Prepared (fs : Fs) : Prop extends Ready X m content fs where
  clear : fs.Clear (safeName m.name)

theorem Ready.of_holds {st : State} {data : Bytes} (hwf : fs.Wf)
    (hp : Store.persisted X fs (safeName m.name) = some st)
    (hfor : st.transferId = m.transferId ∧ st.totalSize = m.totalSize ∧ st.chunkSize = m.chunkSize)
    (hd : fs.content (.staged (stagingDir (safeName m.name)) .data) = some data)
    (hb : Store.Holds (PartOf m content) data st) : Ready X m content fs := by
  refine ⟨hwf, ?_, ?_⟩
  · intro st' hst'
    rw [hp, Option.some.injEq] at hst'
    exact hst' ▸ hfor
  · intro st' hst' _
    rw [hp, Option.some.injEq] at hst'
    exact ⟨data, hd, hst' ▸ hb⟩

theorem Ready.holds_start (h : Ready X m content fs) (hc : 0 < m.chunkSize) :
    Store.Holds (PartOf m content) (startData X m fs) (startState X m fs) :=
  Store.holds_open hc fun st hst _ hne => h.backed st hst hne

/-- Opening the store again for the same transfer truncates nothing, so it may be killed anywhere. -/
theorem Prepared.killed_open (h : Prepared X m content fs) (hc : 0 < m.chunkSize) (n : Nat) :
    Prepared X m content ((Store.openOrCreate X (safeName m.name) m.transferId m.totalSize
      m.chunkSize).evalN X.handle n fs).2 := by
  obtain ⟨fs', he, hwf, hsame, hst, hda, hda', hend⟩ := stopped_openOrCreate X (safeName m.name) h.wf
    h.clear.makes m.transferId m.totalSize m.chunkSize n
  rw [he]
  refine ⟨?_, h.clear.outside hsame⟩
  -- before its sixth operation `state.json` is as it was
  by_cases hn : n < 6
  · have hp : Store.persisted X fs' (safeName m.name) = Store.persisted X fs (safeName m.name) :=
      Store.persisted_congr (hst hn)
    refine ⟨hwf, fun st hst' => h.forThis st (hp ▸ hst'), ?_⟩
    intro st hst' hne
    rw [hp] at hst'
    obtain ⟨data, hd, hb⟩ := h.backed st hst' hne
    by_cases hn3 : n < 3
    · exact ⟨data, (hda hn3).trans hd, hb⟩
    · -- the data file is open, and was not truncated
      have hfor := h.forThis st hst'
      have hon : Store.stateOn X fs (safeName m.name) m.transferId m.totalSize m.chunkSize = st := by
        rw [Store.stateOn_eq, hst']
        exact if_pos hfor
      have hdon : Store.dataOn X fs (safeName m.name) m.transferId m.totalSize m.chunkSize = data := by
        rw [Store.dataOn, hon, hne, hd]
        rfl
      rw [hdon, setLen_of_length (hb.length.trans hfor.2.1), or_self] at hda'
      exact ⟨data, hda' (by omega), hb⟩
  -- afterwards it is the state the call starts from
  · obtain ⟨hst', hd⟩ := hend (by omega)
    refine Ready.of_holds hwf ?_ (Store.stateOn_geometry X _ fs _ _ _) hd (h.holds_start hc)
    rw [Store.persisted, hst', Option.bind_some, Codec.fromSlice_toVec]

/-- `write_chunk` writes the bytes before it lists the chunk. -/
theorem Prepared.killed_write (h : Staged X m (PartOf m content) store fs) (hclear : fs.Clear (safeName m.name))
    (hsize : content.length = m.totalSize) {i : Nat} (hi : i < m.totalChunks) (n : Nat) :
    Prepared X m content ((store.writeChunk X i (blockOf m content i)).evalN X.handle n fs).2 := by
  cases n with
  | zero => exact ⟨.of_staged h, hclear⟩
  | succ n =>
      obtain ⟨-, -, -, hacc, -⟩ := h.writeChunk hi (length_blockOf hsize i) rfl
      obtain ⟨data, hd, hb⟩ := h.holds
      obtain ⟨fs', he, hwf, hsame, hd', hst⟩ := stopped_writeChunk h.live hd hacc n
      rw [he]
      refine ⟨?_, hclear.outside (h.dir ▸ hsame)⟩
      have hdata : fs'.content (.staged (stagingDir (safeName m.name)) .data)
          = some (overwrite 0 (i * store.state.chunkSize) (blockOf m content i) data) := by
        rw [← h.dir]
        exact hd'
      have hp : Store.persisted X fs' (safeName m.name)
          = (fs'.content store.statePath).bind X.stateJson.fromSlice := by
        rw [Store.persisted, Store.statePath, h.dir]
      have hfor : store.state.transferId = m.transferId ∧ store.state.totalSize = m.totalSize ∧
          store.state.chunkSize = m.chunkSize := ⟨h.transferId, h.totalSize, h.chunkSize⟩
      -- killed before or after the new `state.json` is in its place
      rcases hst with hst | hst
      · refine Ready.of_holds hwf ?_ hfor hdata (hb.write hacc (fun _ _ _ hw => hw) rfl)
        rw [hp, hst, h.live.persisted, Option.bind_some, Codec.fromSlice_toVec]
      · have hrecorded : Store.persisted X fs' (safeName m.name) = some (store.record i).state := by
          rw [hp, hst, Option.bind_some, Codec.fromSlice_toVec]
        exact Ready.of_holds hwf hrecorded hfor hdata (hb.record hacc (fun _ _ _ hw => hw) rfl)

end Stream

namespace Tunnel

open Server
open B2p.Stream (Prepared fileSource)

variable {X : Externals} {link : Link} {m : Manifest} {source : Source} {content : Bytes} {app : App}

/-! ## The requests of a call -/

/-- The manifest of a file with this content, as `build_manifest` makes it. -/
structure OfFile (m : Manifest) (content : Bytes) : Prop where
  version : m.version = PROTOCOL_VERSION
  kind : m.kind = .file
  chunkSize : m.chunkSize = CHUNK_SIZE
  size : content.length = m.totalSize

theorem ofFile_fileSource (name : String) (entries : List Entry) (content : Bytes) (transferId : String) :
    OfFile (buildManifest (fileSource name entries content transferId)) content := ⟨rfl, rfl, rfl, rfl⟩

theorem OfFile.chunkSize_pos (h : OfFile m content) : 0 < m.chunkSize := by
  rw [h.chunkSize]
  decide

theorem OfFile.ne_text (h : OfFile m content) : m.kind ≠ .text := by
  rw [h.kind]
  exact Kind.file_ne_text

variable (X link m content) in
/-- What a call for this file asks for. -/
inductive Honest : Request → Prop
  | offer : Honest (offerRequest X link m)
  | chunk {i : Nat} (hi : i < m.totalChunks) : Honest (chunkRequest X link m content i)
  | commit : Honest (commitRequest X link content m.transferId)

/-- **A call for a file asks for nothing else**, whatever it is answered. -/
theorem Call.honest {log : List (Thread × SendAction)} {qs : (t : Thread) → SendProg t.Out}
    (h : Call X link.target link.key source content log qs) (hof : OfFile (buildManifest source) content)
    {t : Thread} {req : Request} {r : Except String Response} (hmem : (t, ⟨.http req, r⟩) ∈ log) :
    Honest X link (buildManifest source) content req := by
  have hproper := h.proper hmem
  cases t with
  | main =>
      rcases hproper with rfl | rfl
      · exact .offer
      · exact .commit
  | upload i =>
      obtain ⟨b, ⟨hi, -, hb⟩, rfl⟩ := hproper
      obtain rfl := blockOf_of_chunkAt hof.size hof.chunkSize hb
      exact .chunk hi

/-! ## What the receiver makes of them -/

variable (X m content) in
/-- What is staged, and what the active transfer has staged, is part of the file. -/
structure Fits (app : App) : Prop where
  held : Held X m (PartOf m content) app
  ready : Prepared X m content app.disk

theorem Fits.of_none (htr : app.transfer = none) (h : Prepared X m content app.disk) : Fits X m content app :=
  ⟨.of_none htr, h⟩

theorem Fits.of_staged {store : Store} (htr : app.transfer = some ⟨m, store⟩)
    (h : Staged X m (PartOf m content) store app.disk) (hclear : app.disk.Clear (Stream.safeName m.name)) :
    Fits X m content app := by
  refine ⟨?_, .of_staged h, hclear⟩
  intro active hactive
  rw [htr, Option.some.injEq] at hactive
  subst hactive
  exact ⟨rfl, h⟩

/-- The user decides, and nothing changes meanwhile. -/
theorem eval_decide (cfg : ServerCfg) (answer : Option Bool) (destExists : Bool) (app : App) :
    ∃ d, (decide_ cfg m destExists).eval (App.handle X answer) app = (.ok d, app) := by
  rw [decide_]
  split
  · exact ⟨_, rfl⟩
  · exact ⟨_, rfl⟩

variable (X m) in
/-- `handle_manifest` once the user has decided. -/
def afterDecision : Option Bool → ServerProg Response
  | none => .ret (status 503)
  | some false => .ret (declined X)
  | some true => acceptManifest X m (Server.safeName m.name)

theorem handler_offer (hof : OfFile m content) : handler X link.cfg link.key (offerRequest X link m)
    = .step (.fs (.pathExists (.out (Server.safeName m.name)))) fun destExists =>
        decide_ link.cfg m destExists >>= afterDecision X m := by
  show handleManifest X link.cfg link.key (X.cipher.seal_ link.key .manifest 0 [] (X.manifestJson.toVec m)) = _
  rw [handleManifest, openJson, Cipher.open_seal_, Option.bind_some, Codec.fromSlice_toVec]
  dsimp only
  rw [if_neg (not_not.mpr hof.version), step_bind]
  refine congrArg _ (funext fun destExists => ?_)
  refine congrArg (decide_ link.cfg m destExists >>= ·) (funext fun d => ?_)
  rcases d with _ | _ | _ <;> rfl

theorem handler_chunk (i : Nat) : handler X link.cfg link.key (chunkRequest X link m content i)
    = handleChunk X link.key i (X.cipher.seal_ link.key .data i (asBytes m.transferId) (blockOf m content i)) :=
  rfl

/-- **An offer**, whether it is accepted or not. -/
theorem Fits.offer (h : Fits X m content app) (hof : OfFile m content) :
    Fits X m content (link.serve X (offerRequest X link m) app).2 := by
  by_cases hlarge : TooLarge (offerRequest X link m)
  · rw [serve_tooLarge X _ rfl hlarge]
    exact h
  -- whatever was there and whatever the user says: refused, declined or taken
  obtain ⟨d, hd⟩ := eval_decide (X := X) (m := m) link.cfg link.answer
    (App.handle X link.answer (.fs (.pathExists (.out (Server.safeName m.name)))) app).1 app
  have heval : (handler X link.cfg link.key (offerRequest X link m)).eval (App.handle X link.answer) app
      = (afterDecision X m d).eval (App.handle X link.answer) app := by
    rw [handler_offer hof, eval_step]
    exact eval_bind_ok _ hd
  rcases d with _ | _ | _
  · rw [serve_eq X (offerRequest X link m) rfl hlarge heval]
    exact h
  · rw [serve_eq X (offerRequest X link m) rfl hlarge heval]
    exact h
  · obtain ⟨store, fs', hopen, hst, -, hsame⟩ := Staged.open h.ready.wf h.ready.clear.makes
      (h.ready.holds_start hof.chunkSize_pos)
    have hattempt : (onDisk (Store.openOrCreate X (Server.safeName m.name) m.transferId m.totalSize
        m.chunkSize)).attempt.eval (App.handle X link.answer) app
          = (.ok (.ok store), { app with disk := fs' }) := by
      rw [eval_attempt, eval_onDisk, Server.safeName, hopen]
    rw [afterDecision, acceptManifest, if_neg hof.ne_text, eval_bind_ok _ hattempt] at heval
    rw [serve_eq X (offerRequest X link m) rfl hlarge heval]
    exact .of_staged rfl hst (h.ready.clear.outside hsame)

/-- **A chunk**, whenever it comes. -/
theorem Fits.chunk (h : Fits X m content app) (hof : OfFile m content) {i : Nat} (hi : i < m.totalChunks) :
    Fits X m content (link.serve X (chunkRequest X link m content i) app).2 := by
  cases htr : app.transfer with
  | none =>
      obtain ⟨r, app', heq, hnone, hdisk, -⟩ := serve_none X htr (chunkRequest X link m content i) rfl
        (.inl ⟨i, rfl⟩)
      rw [heq]
      exact .of_none hnone (hdisk ▸ h.ready)
  | some active =>
      obtain ⟨rfl, hst⟩ := h.held active htr
      obtain ⟨fs', hwrite, hst', -, hsame⟩ := hst.writeChunk hi (length_blockOf hof.size i) rfl
      obtain ⟨app', heq, htr', rfl⟩ := serve_chunk X link htr hwrite
        (length_blockOf_le hof.size hof.chunkSize i)
      rw [chunkRequest, heq]
      exact .of_staged htr' hst' (h.ready.clear.outside hsame)

/-- **A commit**, whenever it comes. -/
theorem Fits.commit (h : Fits X m content app) (hof : OfFile m content) :
    Fits X m content (link.serve X (commitRequest X link content m.transferId) app).2 := by
  by_cases hlarge : TooLarge (commitRequest X link content m.transferId)
  · rw [serve_tooLarge X _ rfl hlarge]
    exact h
  cases htr : app.transfer with
  | none =>
      obtain ⟨r, app', heq, hnone, hdisk, -⟩ := serve_none X htr
        (commitRequest X link content m.transferId) rfl (.inr rfl)
      rw [heq]
      exact .of_none hnone (hdisk ▸ h.ready)
  | some active =>
      obtain ⟨rfl, hst⟩ := h.held active htr
      cases hcomplete : active.store.isComplete with
      -- complete: the file is placed, and nothing is staged any more
      | true =>
          obtain ⟨desc, fs', hfin, hgone, -, houts, hdirs⟩ := eval_finalize_file link.cfg hst hof.size
            hof.kind (hst.all_of_isComplete hcomplete) h.ready.clear.dest
          obtain ⟨app', heq, hnone, rfl⟩ := serve_commit X link htr ⟨X.blake3 content⟩ hfin hlarge
          rw [commitRequest, heq]
          rw [hst.dir] at hgone hdirs
          exact .of_none hnone ⟨.of_none hgone.wf (hgone.files _), h.ready.clear.placed houts hdirs⟩
      -- not complete: an error, and the staging stays
      | false =>
          obtain ⟨e, hfin⟩ : ∃ e, (Server.finalize X link.cfg active ⟨X.blake3 content⟩).eval X.handle app.disk
              = (.error e, app.disk) := by
            rw [Server.finalize, if_pos hcomplete]
            exact ⟨_, rfl⟩
          obtain ⟨app', heq, hnone, hdisk⟩ := serve_commit X link htr ⟨X.blake3 content⟩ hfin hlarge
          rw [commitRequest, heq]
          exact .of_none hnone (hdisk ▸ h.ready)

theorem Fits.serve (h : Fits X m content app) (hof : OfFile m content) {req : Request}
    (hreq : Honest X link m content req) : Fits X m content (link.serve X req app).2 := by
  cases hreq with
  | offer => exact h.offer hof
  | chunk hi => exact h.chunk hof hi
  | commit => exact h.commit hof

/-! ## A receiver that is killed

Only the store's own calls touch the disk, so a handler killed anywhere is a store's call killed somewhere. -/

def OffDisk : ServerOp → Prop
  | .fs _ => False
  | _ => True

theorem disk_evalN_of_offDisk {α : Type} {p : ServerProg α} (hp : Only OffDisk p) {answer : Option Bool}
    (n : Nat) (app : App) : (p.evalN (App.handle X answer) n app).2.disk = app.disk := by
  refine hp.evalN (I := fun s : App => s.disk = app.disk) ?_ n rfl
  intro o s ho hs
  cases o with
  | fs o => exact ho.elim
  | _ => exact hs

theorem disk_evalN_onDisk {α : Type} (p : FsProg α) {answer : Option Bool} (n : Nat) (app : App) :
    ((onDisk p).evalN (App.handle X answer) n app).2.disk = (p.evalN X.handle n app.disk).2 := by
  induction p generalizing n app with
  | ret a => cases n <;> rfl
  | fail e => cases n <;> rfl
  | step o k ih =>
      cases n with
      | zero => rfl
      | succ n => exact ih _ n { app with disk := (X.handle o app.disk).2 }

theorem only_decide (cfg : ServerCfg) (destExists : Bool) : Only OffDisk (decide_ cfg m destExists) := by
  rw [decide_]
  split
  · trivial
  · exact ⟨trivial, fun _ => trivial⟩

/-- Killed while it accepts an offer: the store is being opened, or is open. -/
theorem Fits.killed_accept (h : Fits X m content app) (hof : OfFile m content) (answer : Option Bool)
    (n : Nat) : Prepared X m content ((acceptManifest X m (Server.safeName m.name)).evalN
      (App.handle X answer) n app).2.disk := by
  rw [acceptManifest, if_neg hof.ne_text]
  obtain ⟨store, fs', hopen, hst, -, hsame⟩ := Staged.open h.ready.wf h.ready.clear.makes
    (h.ready.holds_start hof.chunkSize_pos)
  rcases evalN_bind (App.handle X answer) n (onDisk (Store.openOrCreate X (Server.safeName m.name)
    m.transferId m.totalSize m.chunkSize)).attempt _ app with heq | ⟨res, n', -, heq⟩
  · rw [heq, evalN_attempt, disk_evalN_onDisk]
    exact h.ready.killed_open hof.chunkSize_pos n
  · rw [heq, disk_evalN_of_offDisk, eval_attempt, eval_onDisk, Server.safeName, hopen]
    · exact ⟨.of_staged hst, h.ready.clear.outside hsame⟩
    · cases res with
      | ok store => exact ⟨trivial, fun _ => ⟨trivial, fun _ => ⟨trivial, fun _ => trivial⟩⟩⟩
      | error e => exact ⟨trivial, fun _ => trivial⟩

/-- Killed while it handles an offer. -/
theorem Fits.killed_offer (h : Fits X m content app) (hof : OfFile m content) (n : Nat) :
    Prepared X m content ((handler X link.cfg link.key (offerRequest X link m)).evalN
      (App.handle X link.answer) n app).2.disk := by
  rw [handler_offer hof]
  cases n with
  | zero => exact h.ready
  | succ n =>
      rw [evalN_step]
      obtain ⟨destExists, hexists⟩ : ∃ b, (App.handle X link.answer
          (.fs (.pathExists (.out (Server.safeName m.name)))) app).1 = b := ⟨_, rfl⟩
      rw [hexists]
      show Prepared X m content ((decide_ link.cfg m destExists >>= afterDecision X m).evalN
        (App.handle X link.answer) n app).2.disk
      obtain ⟨d, hd⟩ := eval_decide (X := X) (m := m) link.cfg link.answer destExists app
      rcases evalN_bind (App.handle X link.answer) n (decide_ link.cfg m destExists) (afterDecision X m) app
        with heq | ⟨d', n', hd', heq⟩
      · rw [heq, disk_evalN_of_offDisk (only_decide link.cfg destExists)]
        exact h.ready
      · rw [hd, Except.ok.injEq] at hd'
        subst hd'
        rw [heq, hd]
        -- only an offer that is taken goes on to the disk
        rcases d with _ | _ | _
        · rw [afterDecision, evalN_ret]
          exact h.ready
        · rw [afterDecision, evalN_ret]
          exact h.ready
        · exact h.killed_accept hof link.answer n'

/-- Killed while it handles a chunk. -/
theorem Fits.killed_chunk (h : Fits X m content app) (hof : OfFile m content) {i : Nat} (hi : i < m.totalChunks)
    (n : Nat) : Prepared X m content ((handler X link.cfg link.key (chunkRequest X link m content i)).evalN
      (App.handle X link.answer) n app).2.disk := by
  rw [handler_chunk, handleChunk, step_bind]
  cases n with
  | zero => exact h.ready
  | succ n =>
      cases htr : app.transfer with
      | none =>
          have hlock : App.handle X link.answer .lock app = (none, app) := by rw [← htr]; rfl
          rw [evalN_step_eq _ hlock, disk_evalN_of_offDisk]
          · exact h.ready
          · exact ⟨trivial, fun _ => trivial⟩
      | some active =>
          obtain ⟨rfl, hst⟩ := h.held active htr
          have hlock : App.handle X link.answer .lock app = (some active, app) := by rw [← htr]; rfl
          obtain ⟨fs', hwrite, hst', -, hsame⟩ := hst.writeChunk hi (length_blockOf hof.size i) rfl
          rw [evalN_step_eq _ hlock]
          simp only [ret_bind, Cipher.open_seal_]
          rcases evalN_bind (App.handle X link.answer) n (onDisk (active.store.writeChunk X i
            (blockOf active.manifest content i))) _ app with heq | ⟨res, n', -, heq⟩
          · rw [heq, disk_evalN_onDisk]
            exact Prepared.killed_write hst h.ready.clear hof.size hi n
          · rw [heq, disk_evalN_of_offDisk, eval_onDisk, hwrite]
            · exact ⟨.of_staged hst', h.ready.clear.outside hsame⟩
            · obtain ⟨e | u, store⟩ := res
              · exact ⟨trivial, fun _ => trivial⟩
              · exact ⟨trivial, fun _ => ⟨trivial, fun _ => trivial⟩⟩

/-! ## Any number of earlier calls -/

variable (X source content) in
/-- The receivers there are after some calls for one file, which began in an output directory without a state
for its name, and with nothing in the file's way. A request that some call made may reach the receiver at any
time, any number of times; the receiver may be started again with another code, and be killed while it handles
an offer or a chunk. -/
inductive Earlier : Link → App → Prop
  | start (link : Link) {fs : Fs} (hwf : fs.Wf)
      (hclear : fs.Clear (Stream.safeName (buildManifest source).name)) (hnone : fs.content (.staged (stagingDir
      (Stream.safeName (buildManifest source).name)) .stateJson) = none) : Earlier link (freshApp fs)
  | arrived {link : Link} {app : App} {log : List (Thread × SendAction)} {qs : (t : Thread) → SendProg t.Out}
      {t : Thread} {req : Request} {r : Except String Response} (h : Earlier link app)
      (hcall : Call X link.target link.key source content log qs) (hmem : (t, ⟨.http req, r⟩) ∈ log) :
      Earlier link (link.serve X req app).2
  | restarted {link : Link} {app : App} (h : Earlier link app) (link' : Link) :
      Earlier link' (freshApp app.disk)
  | killed {link : Link} {app : App} {log : List (Thread × SendAction)} {qs : (t : Thread) → SendProg t.Out}
      {t : Thread} {req : Request} {r : Except String Response} (h : Earlier link app)
      (hcall : Call X link.target link.key source content log qs) (hmem : (t, ⟨.http req, r⟩) ∈ log)
      (hreq : req.endpoint ≠ .commit) (n : Nat) (link' : Link) :
      Earlier link' (freshApp ((handler X link.cfg link.key req).evalN (App.handle X link.answer) n app).2.disk)

/-- **What all these calls have left is part of the file.** -/
theorem Earlier.fits (h : Earlier X source content link app) (hof : OfFile (buildManifest source) content) :
    Fits X (buildManifest source) content app := by
  induction h with
  | start link hwf hclear hnone => exact .of_none rfl ⟨.of_none hwf hnone, hclear⟩
  | arrived _ hcall hmem ih => exact ih.serve hof (hcall.honest hof hmem)
  | restarted _ link' ih => exact .of_none rfl ih.ready
  | killed _ hcall hmem hreq n link' ih =>
      refine .of_none rfl ?_
      cases hcall.honest hof hmem with
      | offer => exact ih.killed_offer hof n
      | chunk hi => exact ih.killed_chunk hof hi n
      | commit => exact absurd rfl hreq

end Tunnel
end B2p
