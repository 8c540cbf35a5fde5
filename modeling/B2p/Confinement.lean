import B2p.Stream.Outcome
import B2p.Tunnel.Requests
import B2p.Lib.Text

/-!
# Where a received file may go

The name in a manifest is the sender's. It is turned into one name in the output directory three times: by
`safe_name` of the stream and of the tunnel, and once more in `accept_decision`, with another fallback.
All that is done to disk for a file stays at this name and in its staging directory, and with `--yes`
but without `--overwrite` nothing is there when the file is accepted.

* `Normal`, `normal_safeName` — what is made of any name.
* `Tidy` — the calls that stay where they belong.
* `Stream.Confined`, `Server.Confined` — in every run of either receiver, whatever is answered, every
  call for a file is one of these.
* `acceptDecision`, `Server.Unclobbered` — the two decisions.
-/

namespace B2p

open Interaction Prog

/-! ## Names -/

namespace Stream

/-- `Path::file_name`. -/
def fileName (name : String) : Option String :=
  match (components name).getLast? with
  | some last => if last = ".." then none else some last
  | none => none

theorem safeName_eq (name : String) : safeName name = (fileName name).getD "b2p-download" := by
  rw [safeName, fileName]
  cases (components name).getLast? with
  | none => rfl
  | some last =>
      dsimp only
      split
      · rfl
      · rfl

end Stream

/-- One normal component of a path. -/
structure Normal (n : String) : Prop where
  ne_empty : n ≠ ""
  ne_dot : n ≠ "."
  ne_dotdot : n ≠ ".."
  slash : '/' ∉ n.toList

theorem normal_of_fileName {name n : String} (h : Stream.fileName name = some n) : Normal n := by
  unfold Stream.fileName at h
  split at h
  · next last hlast =>
      split at h
      · cases h
      · next hdots =>
          cases h
          have hmem := List.mem_of_getLast? hlast
          rw [Stream.components, List.mem_filter, decide_eq_true_eq] at hmem
          obtain ⟨hsplit, hempty, hdot⟩ := hmem
          exact ⟨hempty, hdot, hdots, Text.not_mem_of_mem_splitOn (c := '/') hsplit⟩
  · cases h

/-- **Every name becomes one normal component.** -/
theorem normal_safeName (name : String) : Normal (Stream.safeName name) := by
  rw [Stream.safeName_eq]
  cases h : Stream.fileName name with
  | none => exact ⟨by decide, by decide, by decide, by decide⟩
  | some n => exact normal_of_fileName h

/-! ## Calls -/

/-- The names of the files of a staging directory. -/
def StagedFile.name : StagedFile → String
  | .data => "data"
  | .stateJson => "state.json"
  | .stateJsonTmp => "state.json.tmp"

/-- The components of a path, from the output directory on. -/
def Path.parts : Path → List String
  | .out name => [name]
  | .staged dir file => [dir, file.name]

/-- The paths a call creates, truncates, renames onto or deletes. `main` has made the output directory
before any transfer, so `create_dir_all` makes the one directory. -/
def FsOp.affects : FsOp → List (List String)
  | .createDirAll dir => [[dir]]
  | .openRw p _ => [p.parts]
  | .writeFile p _ => [p.parts]
  | .rename p q => [p.parts, q.parts]
  | .removeFile p => [p.parts]
  | .removeDir dir => [[dir]]
  | _ => []

/-- The open file a call changes. -/
def FsOp.changes : FsOp → Option Handle
  | .setLen h _ => some h
  | .writeAt h _ _ => some h
  | _ => none

/-- The path is `n`, the staging directory of `n`, or in the latter. -/
def Below (n : String) (parts : List String) : Prop := parts = [n] ∨ [stagingDir n] <+: parts

/-- The call stays with `n`. `H` are the files that have been opened as the data file of `n`. -/
structure Tidy (n : String) (H : Handle → Prop) (o : FsOp) : Prop where
  paths : ∀ parts ∈ o.affects, Below n parts
  file : ∀ h, o.changes = some h → H h
  /-- What an archive is unpacked to is not known from the call. -/
  packed : ∀ p, o ≠ .unpackTar p
  /-- The destination of a rename out of the staging directory is `n` itself. -/
  dest : ∀ p q, o = .rename p (.out q) → q = n

/-- A data file of `n` that is opened is one of `H`. -/
def Noted (n : String) (H : Handle → Prop) : (o : FsOp) → o.Res → Prop
  | .openRw p _, r => p = .staged (stagingDir n) .data → ∀ h, r = .ok h → H h
  | _, _ => True

/-- The store is one of `n`. -/
structure Housed (n : String) (H : Handle → Prop) (s : Store) : Prop where
  dir : s.dir = stagingDir n
  file : H s.file

section programs

variable {X : Externals} {n : String} {H : Handle → Prop} {s : Store} {o : FsOp}

theorem below_dir : Below n [stagingDir n] := .inr (List.prefix_refl _)

theorem below_staged (f : StagedFile) : Below n (Path.parts (.staged (stagingDir n) f)) :=
  .inr ⟨[f.name], rfl⟩

theorem tidy_dir (h : o.affects = [[stagingDir n]]) (hchanges : o.changes = none)
    (hpacked : ∀ p, o ≠ .unpackTar p) (hdest : ∀ p q, o ≠ .rename p q) : Tidy n H o where
  paths parts hparts := by
    rw [h, List.mem_singleton] at hparts
    rw [hparts]
    exact below_dir
  file f hf := by
    rw [hchanges] at hf
    cases hf
  packed := hpacked
  dest p q hpq := absurd hpq (hdest p _)

theorem tidy_staged {f : StagedFile} (h : o.affects = [Path.parts (.staged (stagingDir n) f)])
    (hchanges : o.changes = none) (hpacked : ∀ p, o ≠ .unpackTar p) (hdest : ∀ p q, o ≠ .rename p q) :
    Tidy n H o where
  paths parts hparts := by
    rw [h, List.mem_singleton] at hparts
    rw [hparts]
    exact below_staged f
  file f hf := by
    rw [hchanges] at hf
    cases hf
  packed := hpacked
  dest p q hpq := absurd hpq (hdest p _)

/-- A call that changes nothing, or an open file only. -/
theorem tidy_file (h : o.affects = []) (hchanges : ∀ f, o.changes = some f → H f)
    (hpacked : ∀ p, o ≠ .unpackTar p) (hdest : ∀ p q, o ≠ .rename p q) : Tidy n H o where
  paths parts hparts := by
    rw [h] at hparts
    cases hparts
  file := hchanges
  packed := hpacked
  dest p q hpq := absurd hpq (hdest p _)

theorem tidy_rename (f g : StagedFile) :
    Tidy n H (.rename (.staged (stagingDir n) f) (.staged (stagingDir n) g)) where
  paths parts hparts := by
    rcases List.mem_pair.mp hparts with rfl | rfl
    · exact below_staged f
    · exact below_staged g
  file := nofun
  packed := nofun
  dest := nofun

theorem tidy_place (f : StagedFile) : Tidy n H (.rename (.staged (stagingDir n) f) (.out n)) where
  paths parts hparts := by
    rcases List.mem_pair.mp hparts with rfl | rfl
    · exact below_staged f
    · exact .inl rfl
  file := nofun
  packed := nofun
  dest p q hpq := by
    cases hpq
    rfl

/-! ## The store -/

theorem given_io {α : Type} (x : Except IoError α) : Given (Noted n H) (Tidy n H) (fun _ => True) (io x) := by
  cases x with
  | ok a => trivial
  | error e => trivial

theorem given_persistState (hs : s.dir = stagingDir n) :
    Given (Noted n H) (Tidy n H) (fun _ => True) (s.persistState X) := by
  obtain ⟨dir, file, state⟩ := s
  obtain rfl : dir = stagingDir n := hs
  exact .op (tidy_staged rfl rfl nofun nofun) fun _ _ => .ofExcept fun _ _ =>
    .op (tidy_rename _ _) fun _ _ => given_io _

/-- Opening the store of `n`. -/
theorem given_openOrCreate (transferId : String) (totalSize chunkSize : Nat) :
    Given (Noted n H) (Tidy n H) (Housed n H) (Store.openOrCreate X n transferId totalSize chunkSize) := by
  refine .op (tidy_dir rfl rfl nofun nofun) fun _ _ => .ofExcept fun _ _ =>
    .op (tidy_file rfl nofun nofun nofun) fun bytes _ => .op (tidy_staged rfl rfl nofun nofun)
      fun r hr => .ofExcept fun file hfile => ?_
  have hH : H file := by
    cases r with
    | ok g =>
        cases hfile
        exact hr rfl _ rfl
    | error e => cases hfile
  refine .op (tidy_file rfl ?_ nofun nofun) fun _ _ => .ofExcept fun _ _ => ?_
  · rintro _ ⟨⟩
    exact hH
  · apply (given_persistState rfl).bind
    intro _ _
    exact ⟨rfl, hH⟩

theorem given_writeChunk (hs : Housed n H s) (index : Nat) (plaintext : Bytes) :
    Given (Noted n H) (Tidy n H) (fun r => Housed n H r.2) (s.writeChunk X index plaintext) := by
  unfold Store.writeChunk
  split
  · exact hs
  split
  · exact hs
  refine .op (tidy_file rfl ?_ nofun nofun) fun r _ => ?_
  · rintro _ ⟨⟩
    exact hs.file
  · cases r with
    | error e => exact hs
    | ok u =>
        apply (given_persistState (s := s.record index) hs.dir).attempt.bind
        intro _ _
        exact ⟨hs.dir, hs.file⟩

theorem given_removeFiles (files : List StagedFile) :
    Given (Noted n H) (Tidy n H) (fun _ => True) (Store.removeFiles (stagingDir n) files) := by
  induction files with
  | nil => trivial
  | cons f files ih =>
      exact .op (tidy_staged rfl rfl nofun nofun) fun _ _ => .ofExcept fun _ _ => ih

theorem given_removeDirAll : Given (Noted n H) (Tidy n H) (fun _ => True)
    (Store.removeDirAll (stagingDir n)) := by
  refine .op (tidy_file rfl nofun nofun nofun) fun _ _ => .ofExcept fun files _ => ?_
  apply (given_removeFiles files).bind
  intro _ _
  exact .op (tidy_dir rfl rfl nofun nofun) fun _ _ => given_io _

theorem given_finalizeFile (hs : Housed n H s) (outDir : String) :
    Given (Noted n H) (Tidy n H) (fun _ => True) (s.finalizeFile outDir n) := by
  obtain ⟨dir, file, state⟩ := s
  obtain rfl : dir = stagingDir n := hs.dir
  refine .op (tidy_place _) fun r _ => ?_
  cases r with
  | error e => trivial
  | ok u => exact given_removeDirAll

theorem given_fileHash : Given (Noted n H) (Tidy n H) (fun _ => True) (s.fileHash X) :=
  .op (tidy_file rfl nofun nofun nofun) fun _ _ => .ofExcept fun _ _ => trivial

theorem given_streamFinalize (hs : Housed n H s) {m : Manifest} (hkind : m.kind = .file) (commit : Commit)
    (outDir : String) :
    Given (Noted n H) (Tidy n H) (fun _ => True) (Stream.finalize X s m commit outDir n) := by
  unfold Stream.finalize
  split
  · trivial
  apply given_fileHash.bind
  intro hash _
  split
  · trivial
  rw [hkind]
  apply (given_finalizeFile hs _).bind
  exact fun _ _ => trivial

theorem given_serverFinalize {active : Server.ActiveTransfer}
    (hs : Housed (Stream.safeName active.manifest.name) H active.store) (hkind : active.manifest.kind = .file)
    (cfg : Server.ServerCfg) (commit : Commit) :
    Given (Noted (Stream.safeName active.manifest.name) H) (Tidy (Stream.safeName active.manifest.name) H)
      (fun _ => True) (Server.finalize X cfg active commit) := by
  unfold Server.finalize
  split
  · trivial
  apply given_fileHash.bind
  intro hash _
  split
  · trivial
  rw [hkind]
  apply (given_finalizeFile hs _).bind
  exact fun _ _ => trivial

end programs

/-! ## The stream receiver -/

namespace Stream

/-- The files opened so far as the data file of `n`. -/
def OpenedFor (n : String) (tr : List StreamAction) (h : Handle) : Prop :=
  ∃ truncate, ⟨.loc (.fs (.openRw (.staged (stagingDir n) .data) truncate)), .ok h⟩ ∈ tr

/-- In every run of `recv_into` that begins with the offer of a file, every call stays with the name made
of the file's, and changes no open file but those the run has opened as its data file. -/
def Confined (X : Externals) (sk : Key) (outDir : String) : Prop :=
  ∀ tr q before o r later m, Follows (recvInto X sk outDir) tr q → tr = before ++ ⟨.loc (.fs o), r⟩ :: later →
    Offers X sk m tr → m.kind = .file → Tidy (safeName m.name) (OpenedFor (safeName m.name) before) o

/-- `Noted` and `Tidy` of what is done on disk. -/
def DiskNoted (n : String) (H : Handle → Prop) : (o : streamEffects.Op) → streamEffects.Res o → Prop
  | .loc (.fs o), r => Noted n H o r
  | _, _ => True

def DiskTidy (n : String) (H : Handle → Prop) : streamEffects.Op → Prop
  | .loc (.fs o) => Tidy n H o
  | _ => True

section

variable {X : Externals} {sk : Key} {n : String} {H : Handle → Prop} {m : Manifest} {α : Type}

theorem given_onDisk {Q : α → Prop} {p : FsProg α} (h : Given (Noted n H) (Tidy n H) Q p) :
    Given (DiskNoted n H) (DiskTidy n H) Q (onDisk p) := by
  induction p with
  | ret a => exact h
  | fail e => trivial
  | step o k ih => exact ⟨h.1, fun r hr => ih r (h.2 r hr)⟩

theorem given_exchange (Q : Unit → Prop) (hQ : Q ()) (domain : Domain) (index : Nat) (plaintext : Bytes) :
    Given (DiskNoted n H) (DiskTidy n H) Q (seal_ domain index plaintext >>= send) := by
  refine .op trivial fun ct _ => ⟨trivial, fun r _ => ?_⟩
  cases r with
  | ok u => exact hQ
  | error e => trivial

theorem given_recvChunks (haves todo : List Nat) {store : Store} (hs : Housed n H store) :
    Given (DiskNoted n H) (DiskTidy n H) (Housed n H) (recvChunks X sk haves store todo) := by
  induction todo generalizing store with
  | nil => exact hs
  | cons i todo ih =>
      rw [recvChunks]
      split
      · exact ih hs
      refine ⟨trivial, fun r _ => .ofExcept fun ct _ => ?_⟩
      split
      · trivial
      · apply (given_onDisk (given_writeChunk hs i _)).bind
        rintro ⟨res, store'⟩ hs'
        exact .ofExcept fun _ _ => ih hs'

theorem given_receivePayload (hkind : m.kind = .file) (outDir : String) {store : Store}
    (hs : Housed (safeName m.name) H store) :
    Given (DiskNoted (safeName m.name) H) (DiskTidy (safeName m.name) H) (fun _ => True)
      (receivePayload X sk outDir m store) := by
  apply (given_recvChunks store.haves _ hs).bind
  intro store' hs'
  refine ⟨trivial, fun r _ => .ofExcept fun ct _ => .ofExcept fun commit _ => ?_⟩
  apply (given_onDisk (given_streamFinalize hs' hkind commit outDir).attempt).bind
  intro result _
  refine .op trivial fun ct _ => ⟨trivial, fun r _ => .ofExcept fun _ _ => ?_⟩
  cases result with
  | ok desc => trivial
  | error e => trivial

/-- `recv_into` once it has the offer of a file. -/
theorem given_recvInto {ct : Bytes} (hopen : openVal X sk X.manifestJson .streamToReceiver 0 ct = .ok m)
    (hkind : m.kind = .file) (outDir : String) :
    ∃ k, recvInto X sk outDir = .step .recv k ∧
      Given (DiskNoted (safeName m.name) H) (DiskTidy (safeName m.name) H) (fun _ => True) (k (.ok ct)) := by
  refine ⟨_, rfl, ?_⟩
  -- first the negotiation, which opens the store; then the payload
  refine Given.bind (Q := fun r : Manifest × Option Store => r.1 = m ∧
    ∀ store, r.2 = some store → Housed (safeName m.name) H store) ?_ ?_
  · have hrefuse : ∀ e, Given (DiskNoted (safeName m.name) H) (DiskTidy (safeName m.name) H)
        (fun r : Manifest × Option Store => r.1 = m ∧
          ∀ store, r.2 = some store → Housed (safeName m.name) H store) (refuse X e) :=
      fun e => (given_exchange (fun _ => True) trivial _ _ _).bind fun _ _ => trivial
    show Given _ _ _ (ofExcept (withContext _ (openVal X sk X.manifestJson .streamToReceiver 0 ct)) >>= _)
    rw [hopen]
    show Given _ _ _ (if _ then _ else if _ then _ else _)
    split
    · exact hrefuse _
    split
    · exact hrefuse _
    refine .op trivial fun accepted _ => ?_
    split
    · exact hrefuse _
    rw [if_neg (by rw [hkind]; decide)]
    -- accepted, and not text: the store is opened under the safe name
    apply (given_onDisk (given_openOrCreate _ _ _)).bind
    intro store hs
    apply (given_exchange (fun _ => True) trivial _ _ _).bind
    rintro _ -
    refine ⟨rfl, ?_⟩
    rintro _ ⟨⟩
    exact hs
  · rintro ⟨m', store?⟩ ⟨rfl, hs⟩
    cases store? with
    | none => trivial
    | some store => exact given_receivePayload hkind outDir (hs store rfl)

theorem confined (X : Externals) (sk : Key) (outDir : String) : Confined X sk outDir := by
  intro tr q before o r later m hf htr hoffer hkind
  obtain ⟨ct, rest, hhead, hopen⟩ := hoffer
  obtain ⟨k, hk, hgiven⟩ := given_recvInto (H := OpenedFor (safeName m.name) before) hopen hkind outDir
  rw [htr] at hhead hf
  cases before with
  | nil => cases hhead
  | cons a before =>
      rw [List.cons_append, List.cons.injEq] at hhead
      obtain ⟨rfl, -⟩ := hhead
      -- the offer was the first thing received; the rest runs under its name
      obtain ⟨mid, hmid, hrest⟩ := hf.split
      rw [hk] at hmid
      cases hmid with
      | cons hmid =>
          have hnoted : ∀ a ∈ before, DiskNoted (safeName m.name)
              (OpenedFor (safeName m.name) (⟨.recv, .ok ct⟩ :: before)) a.op a.res := by
            rintro ⟨o, r⟩ ha
            cases o with
            | loc o =>
                cases o with
                | fs o =>
                    cases o with
                    | openRw p truncate =>
                        -- a handle written to was opened earlier in the stream
                        rintro rfl h rfl
                        exact ⟨truncate, List.mem_cons_of_mem _ ha⟩
                    | _ => trivial
                | _ => trivial
            | _ => trivial
          have hnow := (hgiven.follows hmid hnoted).2
          cases hrest with
          | cons _ => exact hnow.1

end

end Stream

/-! ## The tunnel's receiver -/

namespace Server

section

variable {I : Type} (X : Externals) (key : Key)

/-- The files opened so far, by whatever request, as the data file of `n`. -/
def OpenedFor (n : String) (log : List (I × ServerAction)) (h : Handle) : Prop :=
  ∃ i truncate, (i, (⟨.fs (.openRw (.staged (stagingDir n) .data) truncate), .ok h⟩ : ServerAction)) ∈ log

/-- The request, whose handler has done `tr` so far, is about the transfer of `m`: it is the offer of `m`,
or it has found that transfer active. -/
def Concerns (req : Request) (tr : List ServerAction) (m : Manifest) : Prop :=
  if req.endpoint = .manifest then openJson X key X.manifestJson .manifest [] req.body = some m
  else ∃ active rest, tr = ⟨.lock, some active⟩ :: rest ∧ active.manifest = m

/-- However requests are interleaved, every call for the transfer of a file stays with the name made of the
file's, and changes no open file but those that have been opened as its data file. -/
def Confined [DecidableEq I] (cfg : ServerCfg) (reqs : I → Request) (fs : Fs) : Prop :=
  ∀ log qs before i o r later m, Handling X cfg key reqs fs log qs →
    log = before ++ (i, ⟨.fs o, r⟩) :: later → Concerns X key (reqs i) (own i before) m → m.kind = .file →
    Tidy (Stream.safeName m.name) (OpenedFor (Stream.safeName m.name) before) o

/-- The store of the transfer was opened for its name. -/
def SlotHoused (log : List (I × ServerAction)) (active : ActiveTransfer) : Prop :=
  Housed (Stream.safeName active.manifest.name) (OpenedFor (Stream.safeName active.manifest.name) log)
    active.store

/-- An open is noted, and the transfer in the slot is one whose store was opened for its name. -/
def SlotNoted (log : List (I × ServerAction)) : (o : ServerOp) → o.Res → Prop
  | .fs o, r => ∀ n, Noted n (OpenedFor n log) o r
  | .lock, slot => ∀ active, slot = some active → SlotHoused log active
  | _, _ => True

/-- What a handler does for the transfer of `m?`. -/
def SlotTidy (log : List (I × ServerAction)) (m? : Option Manifest) : ServerOp → Prop
  | .fs o => ∀ m, m? = some m → m.kind = .file →
      Tidy (Stream.safeName m.name) (OpenedFor (Stream.safeName m.name) log) o
  | .unlock t => ∀ active, t = some active → SlotHoused log active
  | _ => True

end

section handlers

variable {I : Type} {X : Externals} {cfg : ServerCfg} {key : Key} {log : List (I × ServerAction)}
  {m? : Option Manifest} {α : Type}

theorem given_onDisk {n : String} {Q : α → Prop} {p : FsProg α}
    (h : Given (Noted n (OpenedFor n log)) (fun o => ∀ m, m? = some m → m.kind = .file →
      Tidy (Stream.safeName m.name) (OpenedFor (Stream.safeName m.name) log) o) Q p) :
    Given (SlotNoted log) (SlotTidy log m?) Q (onDisk p) := by
  induction p with
  | ret a => exact h
  | fail e => trivial
  | step o k ih => exact ⟨h.1, fun r hr => ih r (h.2 r (hr n))⟩

/-- The disk for the transfer of `m`. -/
theorem given_onDisk_of_tidy {m : Manifest} {Q : α → Prop} {p : FsProg α}
    (h : Given (Noted (Stream.safeName m.name) (OpenedFor (Stream.safeName m.name) log))
      (Tidy (Stream.safeName m.name) (OpenedFor (Stream.safeName m.name) log)) Q p) :
    Given (SlotNoted log) (SlotTidy log (some m)) Q (onDisk p) := by
  apply given_onDisk (n := Stream.safeName m.name)
  refine h.mono (fun _ _ hr => hr) ?_ fun _ hQ => hQ
  rintro o ho _ ⟨⟩ -
  exact ho

theorem given_finalize {active : ActiveTransfer} (h : SlotHoused log active) (commit : Commit) :
    Given (SlotNoted log) (SlotTidy log (some active.manifest)) (fun _ => True)
      (onDisk (finalize X cfg active commit)) := by
  by_cases hkind : active.manifest.kind = .file
  · exact given_onDisk_of_tidy (given_serverFinalize h hkind cfg commit)
  · -- nothing is asked of the calls for an archive
    apply given_onDisk (n := "")
    refine (given_true _).mono (fun _ _ _ => trivial) ?_ fun _ hQ => hQ
    rintro o - _ ⟨⟩ hfile
    exact absurd hfile hkind

theorem given_acceptManifest (m : Manifest) :
    Given (SlotNoted log) (SlotTidy log (some m)) (fun _ => True)
      (acceptManifest X m (Stream.safeName m.name)) := by
  unfold acceptManifest
  split
  · exact .op trivial fun _ _ => .op trivial fun _ _ => .op trivial fun _ _ => trivial
  apply (given_onDisk_of_tidy (given_openOrCreate _ _ _)).attempt.bind
  intro r hr
  cases r with
  | error e => exact .op trivial fun _ _ => trivial
  | ok store =>
      refine .op trivial fun _ _ => .op trivial fun _ _ => .op ?_ fun _ _ => trivial
      rintro _ ⟨⟩
      exact hr store rfl

theorem given_decide (m : Manifest) (destExists : Bool) :
    Given (SlotNoted log) (SlotTidy log (some m)) (fun _ => True) (decide_ cfg m destExists) := by
  unfold decide_
  split
  · trivial
  · exact .op trivial fun _ _ => trivial

theorem given_handleManifest (body : Bytes) :
    Given (SlotNoted log) (SlotTidy log (openJson X key X.manifestJson .manifest [] body)) (fun _ => True)
      (handleManifest X cfg key body) := by
  unfold handleManifest
  cases openJson X key X.manifestJson .manifest [] body with
  | none => trivial
  | some m =>
      dsimp only
      split
      · trivial
      refine .op ?_ fun destExists _ => ?_
      · rintro _ ⟨⟩ -
        exact tidy_file rfl nofun nofun nofun
      apply (given_decide m destExists).bind
      intro r _
      rcases r with _ | _ | _
      · trivial
      · trivial
      · exact given_acceptManifest m

/-- What the handlers of the other requests do once they have the lock. -/
theorem given_locked (log : List (I × ServerAction)) {req : Request} (hreq : req.endpoint ≠ .manifest) :
    ∃ k, handler X cfg key req = .step .lock k ∧ ∀ slot,
      (∀ active, slot = some active → SlotHoused log active) →
      Given (SlotNoted log) (SlotTidy log (slot.map ActiveTransfer.manifest)) (fun _ => True) (k slot) := by
  unfold handler
  cases hend : req.endpoint with
  | manifest => exact absurd hend hreq
  | status =>
      refine ⟨_, rfl, fun slot hslot => ?_⟩
      refine .op hslot fun _ _ => ?_
      cases slot with
      | none => trivial
      | some active => trivial
  -- no transfer: it unlocks as it found it
  | chunk index =>
      refine ⟨_, rfl, fun slot hslot => ?_⟩
      cases slot with
      | none => exact .op nofun fun _ _ => trivial
      | some active =>
          dsimp only [Prog.bind]
          split
          · exact .op hslot fun _ _ => trivial
          · next plaintext _ =>
              apply (given_onDisk_of_tidy (given_writeChunk (hslot active rfl) index plaintext)).bind
              -- the slot keeps the store as the write left it
              rintro ⟨r, store⟩ hs
              have hnew : ∀ active', some { active with store } = some active' → SlotHoused log active' := by
                rintro _ ⟨⟩
                exact hs
              cases r with
              | ok u => exact .op trivial fun _ _ => .op hnew fun _ _ => trivial
              | error e => exact .op hnew fun _ _ => trivial
  -- a commit empties the slot once it finalizes, and on a failure too
  | commit =>
      refine ⟨_, rfl, fun slot hslot => ?_⟩
      cases slot with
      | none => exact .op nofun fun _ _ => trivial
      | some active =>
          dsimp only [Prog.bind]
          split
          · exact .op hslot fun _ _ => trivial
          · next commit _ =>
              apply (given_finalize (hslot active rfl) commit).attempt.bind
              intro r _
              cases r with
              | ok desc => exact .op trivial fun _ _ => .op trivial fun _ _ => .op nofun fun _ _ => trivial
              | error e => exact .op trivial fun _ _ => .op nofun fun _ _ => trivial

end handlers

/-! ### Any number of requests -/

section logs

variable {I : Type} {X : Externals} {cfg : ServerCfg} {key : Key} {log log' : List (I × ServerAction)}

theorem OpenedFor.mono {n : String} {h : Handle} (ho : OpenedFor n log h) (hsub : log ⊆ log') :
    OpenedFor n log' h := by
  obtain ⟨i, truncate, hmem⟩ := ho
  exact ⟨i, truncate, hsub hmem⟩

theorem SlotHoused.mono {active : ActiveTransfer} (h : SlotHoused log active) (hsub : log ⊆ log') :
    SlotHoused log' active :=
  ⟨h.dir, OpenedFor.mono h.file hsub⟩

theorem slotNoted_mono {a : ServerAction} (h : SlotNoted log a.op a.res) (hsub : log ⊆ log') :
    SlotNoted log' a.op a.res := by
  obtain ⟨o, r⟩ := a
  cases o with
  | lock => exact fun active hactive => (h active hactive).mono hsub
  | fs o =>
      cases o with
      | openRw p truncate => exact fun n hp g hg => OpenedFor.mono (h n hp g hg) hsub
      | _ => exact fun _ => trivial
  | _ => trivial

/-- What a handler is about to do. -/
theorem slotTidy_of_follows {req : Request} {tr : List ServerAction} {o : ServerOp}
    {k : o.Res → ServerProg Response} (hf : Follows (handler X cfg key req) tr (.step o k))
    (hnoted : ∀ a ∈ tr, SlotNoted log a.op a.res) :
    ∃ m?, SlotTidy log m? o ∧ ((∃ fo, o = .fs fo) → ∀ m, Concerns X key req tr m → m? = some m) := by
  -- an offer looks at its own manifest, any other request at the slot
  by_cases hreq : req.endpoint = .manifest
  · have hhandler : handler X cfg key req = handleManifest X cfg key req.body := by
      rw [handler, hreq]
    rw [hhandler] at hf
    refine ⟨_, ((given_handleManifest req.body).follows hf hnoted).2.1, fun _ m hm => ?_⟩
    rwa [Concerns, if_pos hreq] at hm
  · obtain ⟨k₀, hhandler, hgiven⟩ := @given_locked I X cfg key log req hreq
    rw [hhandler] at hf
    generalize hq : (Prog.step (E := serverEffects) o k : ServerProg Response) = q at hf
    cases hf with
    | nil =>
        cases hq
        refine ⟨none, trivial, ?_⟩
        rintro ⟨fo, hfo⟩
        cases hfo
    | @cons _ _ slot tr _ hf =>
        subst hq
        -- what it took out of the slot was housed already
        have hslot := hnoted _ List.mem_cons_self
        have hrest := (hgiven slot hslot).follows hf fun a ha => hnoted a (List.mem_cons_of_mem _ ha)
        refine ⟨_, hrest.2.1, fun _ m hm => ?_⟩
        rw [Concerns, if_neg hreq] at hm
        obtain ⟨active, rest, heq, rfl⟩ := hm
        cases heq
        rfl

variable [DecidableEq I] {reqs : I → Request} {fs : Fs} {qs : I → ServerProg Response}

/-- The invariant of a log. -/
structure Houses (X : Externals) (fs : Fs) (log : List (I × ServerAction)) : Prop where
  noted : ∀ x ∈ log, SlotNoted log x.2.op x.2.res
  slot : ∀ active, (Shared.after X fs log).slot = some active → SlotHoused log active

theorem Houses.own (h : Houses X fs log) (i : I) : ∀ a ∈ own i log, SlotNoted log a.op a.res :=
  fun _ ha => h.noted _ (mem_own.mp ha)

/-- **Every action keeps it.** -/
theorem Houses.snoc (h : Houses X fs log) {i : I} {a : ServerAction}
    (hrun : Handling X cfg key reqs fs (log ++ [(i, a)]) qs) : Houses X fs (log ++ [(i, a)]) := by
  have hsub : log ⊆ log ++ [(i, a)] := List.subset_append_left _ _
  obtain ⟨qs', hrun', hallowed, k, hk, -⟩ := hrun.snoc
  obtain ⟨o, r⟩ := a
  constructor
  · intro x hx
    rcases List.mem_append.mp hx with hx | hx
    · exact slotNoted_mono (h.noted x hx) hsub
    · rw [List.mem_singleton.mp hx]
      cases o with
      | lock =>
          intro active hactive
          have hslot : r = _ := hallowed.2
          exact (h.slot active (hslot ▸ hactive)).mono hsub
      | fs o =>
          cases o with
          | openRw p truncate =>
              rintro n rfl g rfl
              exact ⟨i, truncate, List.mem_append_right _ List.mem_cons_self⟩
          | _ => exact fun _ => trivial
      | _ => trivial
  · intro active hactive
    rw [Shared.after_snoc] at hactive
    cases o with
    -- only an unlock changes the slot, and the handler was tidy about it
    | unlock t =>
        have hf := hrun'.follows i
        rw [hk] at hf
        obtain ⟨m?, htidy, -⟩ := slotTidy_of_follows hf (h.own i)
        exact (htidy active hactive).mono hsub
    | _ => exact (h.slot active hactive).mono hsub

theorem houses (hrun : Handling X cfg key reqs fs log qs) : Houses X fs log := by
  induction log using List.reverseRecOn generalizing qs with
  | nil => exact ⟨by simp, nofun⟩
  | append_singleton log x ih =>
      obtain ⟨qs', hrun'⟩ := hrun.take
      exact (ih hrun').snoc hrun

variable (X cfg key reqs fs) in
theorem confined : Confined X key cfg reqs fs := by
  intro log qs before i o r later m hrun hlog hconcerns hkind
  rw [hlog, List.append_cons] at hrun
  obtain ⟨qs₁, hrun₁⟩ := hrun.take
  obtain ⟨qs₂, hrun₂, -, k, hk, -⟩ := hrun₁.snoc
  have hf := hrun₂.follows i
  rw [hk] at hf
  obtain ⟨m?, htidy, hm⟩ := slotTidy_of_follows hf ((houses hrun₂).own i)
  exact htidy m (hm ⟨o, rfl⟩ m hconcerns) hkind

end logs

end Server

/-! ## The decisions -/

/-- Something is at `out_dir/n`. -/
def Fs.There (fs : Fs) (n : String) : Prop := (fs.files (.out n)).isSome = true ∨ fs.dirs n = true

/-- `out_dir.join(name).exists()`; joined with the empty name it is the output directory itself. -/
def Fs.existsAt (fs : Fs) (name : String) : Bool :=
  name == "" || (fs.files (.out name)).isSome || fs.dirs name

/-- `accept_decision`. `line` is what is typed at the prompt, `none` if it cannot be read. -/
def acceptDecision (m : Manifest) (fs : Fs) (yes overwrite : Bool) (line : Option String) : Bool :=
  let clobber := m.kind == .file && fs.existsAt ((Stream.fileName m.name).getD "")
  if yes then !(clobber && !overwrite)
  else match line with
    | none => false
    | some line => (Text.trim line.toList).map Char.toLower == ['y']

/-- **What `accept_decision` takes with `--yes` but without `--overwrite` has a free destination.** The
fallback differs from `safe_name`'s, but the empty name exists always. -/
theorem not_there_of_acceptDecision {m : Manifest} {fs : Fs} {line : Option String} (hkind : m.kind = .file)
    (h : acceptDecision m fs true false line = true) : ¬ fs.There (Stream.safeName m.name) := by
  have hfree : fs.existsAt ((Stream.fileName m.name).getD "") = false := by
    simpa [acceptDecision, hkind] using h
  rw [Stream.safeName_eq]
  cases hname : Stream.fileName m.name with
  | none =>
      rw [hname] at hfree
      cases hfree
  | some n =>
      rw [hname, Option.getD_some, Fs.existsAt, Bool.or_eq_false_iff, Bool.or_eq_false_iff] at hfree
      rw [Option.getD_some, Fs.There, hfree.1.2, hfree.2]
      simp

namespace Server

variable {I : Type} [DecidableEq I] (X : Externals) (cfg : ServerCfg) (key : Key) (reqs : I → Request)

/-- The request has been let in: its handler has gone on to the staging directory, or said so. -/
def LetIn (log : List (I × ServerAction)) (qs : I → ServerProg Response) (i : I) : Prop :=
  (∃ dir r, (i, (⟨.fs (.createDirAll dir), r⟩ : ServerAction)) ∈ log) ∨
    ∃ complete haves, qs i = .ret ⟨200, X.manifestAckJson.toVec ⟨true, complete, haves⟩⟩

/-- With `--yes` but without `--overwrite`, when the offer of a file is let in, its destination was free at
the time the handler looked. -/
def Unclobbered (fs : Fs) : Prop :=
  ∀ log qs i m, cfg.autoAccept = true → cfg.overwrite = false → Handling X cfg key reqs fs log qs →
    (reqs i).endpoint = .manifest → openJson X key X.manifestJson .manifest [] (reqs i).body = some m →
    m.kind = .file → LetIn X log qs i →
    ∃ before later, log = before ++ (i, ⟨.fs (.pathExists (.out (Stream.safeName m.name))), false⟩) :: later ∧
      ¬ (Shared.after X fs before).disk.There (Stream.safeName m.name)

variable {X cfg key reqs}

/-- The handler of an offer it does not let in has nothing to do with the disk any more. -/
theorem follows_declined {tr : List ServerAction} {q : ServerProg Response}
    (h : Follows (.ret (declined X)) tr q) : tr = [] ∧ ∀ complete haves,
      q ≠ .ret ⟨200, X.manifestAckJson.toVec ⟨true, complete, haves⟩⟩ := by
  cases h
  refine ⟨rfl, fun complete haves heq => ?_⟩
  have hack := X.manifestAckJson.toVec_injective (congrArg Response.body (Prog.ret.inj heq))
  cases hack

/-- **The tunnel lets in what has a free destination.** -/
theorem unclobbered (fs : Fs) : Unclobbered X cfg key reqs fs := by
  intro log qs i m hauto hover hrun hreq hopen hkind hlet
  have hf := hrun.follows i
  have hhandler : handler X cfg key (reqs i) = handleManifest X cfg key (reqs i).body := by
    rw [handler, hreq]
  rw [hhandler, handleManifest, hopen] at hf
  -- a handler that has declined has neither entered a directory nor said it accepts
  have hno : ∀ tr, Follows (.ret (declined X)) tr (qs i) →
      (∀ a ∈ own i log, a ∈ tr ∨ ∀ dir, a.op ≠ .fs (.createDirAll dir)) → False := by
    intro tr hdeclined hown
    obtain ⟨rfl, hne⟩ := follows_declined hdeclined
    rcases hlet with ⟨dir, r, hmem⟩ | ⟨complete, haves, hq⟩
    · rcases hown _ (mem_own.mpr hmem) with hmem | hop
      · cases hmem
      · exact hop dir rfl
    · exact hne complete haves hq
  dsimp only at hf
  split at hf
  · exact (hno _ hf fun a ha => .inl ha).elim
  rcases (show Follows (Prog.step (E := serverEffects) (.fs (.pathExists (.out (safeName m.name)))) _) _ _
    from hf).step_inv with ⟨hnil, hq⟩ | ⟨destExists, tr, htr, hrest⟩
  · rcases hlet with ⟨dir, r, hmem⟩ | ⟨complete, haves, hret⟩
    · have hmem := mem_own.mpr hmem
      rw [hnil] at hmem
      cases hmem
    · rw [hret] at hq
      cases hq
  -- the flags decide by what was there
  have hdecide : decide_ cfg m destExists = .ret (some (!destExists)) := by
    rw [decide_, if_pos hauto, hover, hkind]
    cases destExists <;> rfl
  replace hrest : Follows (decide_ cfg m destExists >>= _) tr (qs i) := hrest
  rw [hdecide, ret_bind] at hrest
  cases destExists with
  | true =>
      refine (hno tr hrest fun a ha => ?_).elim
      rw [htr] at ha
      rcases List.mem_cons.mp ha with rfl | ha
      · refine .inr fun dir heq => ?_
        cases heq
      · exact .inl ha
  | false =>
      have hmem : (i, (⟨.fs (.pathExists (.out (safeName m.name))), false⟩ : ServerAction)) ∈ log :=
        mem_own.mp (htr ▸ List.mem_cons_self)
      obtain ⟨before, later, hlog, hallowed⟩ := hrun.allowed_of_mem hmem
      refine ⟨before, later, hlog, ?_⟩
      have hfree : false = (((Shared.after X fs before).disk.files (.out (safeName m.name))).isSome ||
        (Shared.after X fs before).disk.dirs (safeName m.name)) := hallowed
      have hboth := Bool.or_eq_false_iff.mp hfree.symm
      rw [Fs.There]
      rintro (hfile | hdir)
      · exact absurd (hboth.1.symm.trans hfile) (by decide)
      · exact absurd (hboth.2.symm.trans hdir) (by decide)

end Server

/-- **Confinement and no clobbering**, for every name a sender may put into a manifest. -/
theorem confinement (X : Externals) :
    (∀ name, Normal (Stream.safeName name)) ∧
    (∀ sk outDir, Stream.Confined X sk outDir) ∧
    (∀ (I : Type) [DecidableEq I] (key : Key) (cfg : Server.ServerCfg) (reqs : I → Request) (fs : Fs),
      Server.Confined X key cfg reqs fs) ∧
    (∀ (m : Manifest) (fs : Fs) (line : Option String), m.kind = .file →
      acceptDecision m fs true false line = true → ¬ fs.There (Stream.safeName m.name)) ∧
    ∀ (I : Type) [DecidableEq I] (key : Key) (cfg : Server.ServerCfg) (reqs : I → Request) (fs : Fs),
      Server.Unclobbered X cfg key reqs fs :=
  ⟨normal_safeName, fun sk outDir => Stream.confined X sk outDir,
    fun _ _ key cfg reqs fs => Server.confined X cfg key reqs fs,
    fun _ _ _ hkind h => not_there_of_acceptDecision hkind h,
    fun _ _ _ _ _ fs => Server.unclobbered fs⟩

end B2p
