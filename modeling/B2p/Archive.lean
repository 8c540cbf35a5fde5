import B2p.Stream
import B2p.External
import B2p.Lib.Text
import Mathlib.Data.List.Sort

/-!
# Archives (`archive.rs`)

`prepare` collects the regular files of its arguments under names made from the last component of each
argument, and spools them into a tar unless there is exactly one file argument; `unpack_tar` recreates
the entries. Paths of the platform are lists of `OsStr`s; `tar` and `blake3` are libraries.

* `collectFiles`, `prepare` — the sender.
* `recreate` — what unpacking an archive does, entry by entry.
* `Unpacked` — every file found has a file of its own in an empty directory.
* `unpacked_iff` — which is so exactly if the names given to the files are apart (`Apart`).
-/

namespace B2p

open Text

/-! ## The filesystem, seen from the arguments -/

/-- What the standard library knows about the platform's file names. -/
structure Platform where
  OsStr : Type
  toStringLossy : OsStr → Str
  /-- Between the components of a path that is turned into text. -/
  separator : Char

mutual
/-- A file, a directory with its entries by name, something else (also a link, inside a directory), or
something that cannot be read. -/
inductive Node (α : Type) where
  | file (content : Bytes) (mtime : Nat)
  | dir (entries : NodeList α)
  | special
  | unreadable (e : IoError)

inductive NodeList (α : Type) where
  | nil
  | cons (name : α) (node : Node α) (rest : NodeList α)
end

/-- An argument: how it is displayed, its `file_name`, and what is found there. -/
structure Input (α : Type) where
  display : String
  fileName : Option α
  node : Except IoError (Node α)

/-- An entry of a walk: the path below the root, and the content and time of a regular file. -/
structure DirEntry (α : Type) where
  rel : List α
  file : Option (Bytes × Nat)

mutual
/-- `WalkDir::new(..).sort_by_file_name()`. -/
def walkNode {α : Type} (rel : List α) : Node α → List (Except Anyhow (DirEntry α))
  | .file content mtime => [.ok ⟨rel, some (content, mtime)⟩]
  | .dir entries => .ok ⟨rel, none⟩ :: walkList rel entries
  | .special => [.ok ⟨rel, none⟩]
  | .unreadable e => [.error (.io e)]

def walkList {α : Type} (rel : List α) : NodeList α → List (Except Anyhow (DirEntry α))
  | .nil => []
  | .cons name node rest => walkNode (rel ++ [name]) node ++ walkList rel rest
end

/-! ## `collect_files` -/

/-- A file to be sent: its name in the archive, its content and its time. -/
structure Found where
  rel : Str
  content : Bytes
  mtime : Nat

section sender

variable (P : Platform)

/-- `strip_prefix(..).to_string_lossy().replace('\\', "/")`. -/
def relName (rel : List P.OsStr) : Str :=
  (List.intercalate [P.separator] (rel.map P.toStringLossy)).map fun c => if c = '\\' then '/' else c

/-- The name of a file argument with the last component `base`, or of the file at `rel` below it. -/
def archiveName (base : P.OsStr) : Option (List P.OsStr) → Str
  | none => P.toStringLossy base
  | some rel => P.toStringLossy base ++ '/' :: relName P rel

/-- The loop over a directory argument. -/
def collectWalk (base : P.OsStr) : List (Except Anyhow (DirEntry P.OsStr)) → Except Anyhow (List Found)
  | [] => .ok []
  | .error e :: _ => .error e
  | .ok ⟨_, none⟩ :: items => collectWalk base items
  | .ok ⟨rel, some (content, mtime)⟩ :: items => do
      let files ← collectWalk base items
      return ⟨archiveName P base (some rel), content, mtime⟩ :: files

/-- One argument. -/
def collectInput (input : Input P.OsStr) : Except Anyhow (List Found) :=
  match input.node with
  | .error e => .error (.context ("cannot read " ++ input.display) (.io e))
  | .ok node =>
      match input.fileName with
      | none => .error (.msg "path has no file name")
      | some base =>
          match node with
          | .file content mtime => .ok [⟨archiveName P base none, content, mtime⟩]
          | .dir entries => collectWalk P base (walkNode [] (.dir entries))
          | _ => .error (.msg (input.display ++ " is neither a file nor a directory"))

def collectInputs : List (Input P.OsStr) → Except Anyhow (List Found)
  | [] => .ok []
  | input :: inputs => do
      let files ← collectInput P input
      let more ← collectInputs inputs
      return files ++ more

/-- `collect_files`: sorted by name, in a stable way. -/
def collectFiles (inputs : List (Input P.OsStr)) : Except Anyhow (List Found) :=
  (collectInputs P inputs).map fun files => files.mergeSort fun a b => decide (a.rel ≤ b.rel)

/-! ## `prepare` -/

/-- A file's place in an unpacked archive: the components of its name. -/
def pathOf (name : Str) : List Str := (name.splitOn '/').filter fun c => decide (c ≠ [] ∧ c ≠ ['.'])

/-- Files by their place. -/
abbrev OutDir := List (List Str × Bytes)

/-- One of two places is the other, or below it. -/
def Clash (p q : List Str) : Prop := p <+: q ∨ q <+: p

instance (p q : List Str) : Decidable (Clash p q) := inferInstanceAs (Decidable (_ ∨ _))

/-- Unpacking one entry: a file of the same path is overwritten, and no file can be below another. -/
def put (out : OutDir) (p : List Str) (content : Bytes) : Except Anyhow OutDir :=
  if out.any fun e => decide (e.1 ≠ p ∧ Clash e.1 p) then
    .error (.msg "failed to unpack")
  else if out.any fun e => decide (e.1 = p) then
    .ok (out.map fun e => if e.1 = p then (p, content) else e)
  else .ok (out ++ [(p, content)])

/-- Entries in order. -/
def recreate : List (Str × Bytes) → OutDir → Except Anyhow OutDir
  | [], out => .ok out
  | (name, content) :: entries, out => do
      let out ← put out (pathOf name) content
      recreate entries out

/-- The functions of `tar` and `blake3` that archives use. -/
structure TarLib where
  /-- `append_path_with_name` for each file, then `finish`. -/
  build : List (Str × Bytes) → Except Anyhow Bytes
  /-- `Archive::unpack`. -/
  unpack : Bytes → OutDir → Except Anyhow OutDir
  unpack_build : ∀ entries spool out, build entries = .ok spool → unpack spool out = recreate entries out
  /-- `hash(..).to_hex()`. -/
  blake3Hex : Bytes → Str

variable (T : TarLib)

def fingerprint (files : List Found) : String :=
  String.ofList ((T.blake3Hex (files.flatMap fun f => asBytes (String.ofList f.rel) ++ [0] ++
    toLeBytes 8 f.content.length ++ [0] ++ toLeBytes 8 f.mtime ++ [10])).take 32)

def entriesOf (files : List Found) : List Entry :=
  files.map fun f => ⟨String.ofList f.rel, f.content.length⟩

/-- `is_file` of an argument. -/
def Input.isFile {α : Type} (input : Input α) : Bool :=
  match input.node with
  | .ok (.file _ _) => true
  | _ => false

/-- `prepare`: the source, and the spool of an archive. -/
def prepare (inputs : List (Input P.OsStr)) : Except Anyhow (Source × Option Bytes) :=
  if inputs.isEmpty then .error (.msg "nothing to send")
  else do
    let files ← collectFiles P inputs
    match files with
    | [] => .error (.msg "no regular files found in the given paths")
    | f :: rest =>
        if inputs.length = 1 ∧ rest.length = 0 ∧ inputs.all Input.isFile then
          return (.blob .file (by decide) (String.ofList f.rel) (entriesOf files) f.content.length
            (fingerprint T files), none)
        else
          let spool ← T.build (files.map fun f => (f.rel, f.content))
          return (.blob .tar (by decide) "b2p-bundle.tar" (entriesOf files) spool.length
            (fingerprint T files), some spool)

/-! ## What the arguments hold -/

/-- The regular file of an entry of a walk. -/
def Except.regular {α : Type} : Except Anyhow (DirEntry α) → Option (Option (List α) × Bytes)
  | .ok ⟨rel, some (content, _)⟩ => some (some rel, content)
  | _ => none

/-- The regular files of an argument: itself, or those at any depth below it. -/
def Input.files {α : Type} (input : Input α) : List (Option (List α) × Bytes) :=
  match input.node with
  | .ok (.file content _) => [(none, content)]
  | .ok (.dir entries) => (walkNode [] (.dir entries)).filterMap Except.regular
  | _ => []

/-- … with the names they are sent under. -/
def Input.named (input : Input P.OsStr) : List (Str × Bytes) :=
  match input.fileName with
  | some base => input.files.map fun f => (archiveName P base f.1, f.2)
  | none => []

/-- No two regular files of the arguments are sent under names of which one is the other, or a path below
the other. -/
def Apart (inputs : List (Input P.OsStr)) : Prop :=
  (inputs.flatMap (Input.named P)).Pairwise fun a b => ¬ Clash (pathOf a.1) (pathOf b.1)

/-- Unpacking the spool into an empty directory yields one file for each file found, with its content, at
the path the entries list for it. -/
def Unpacked (inputs : List (Input P.OsStr)) (entries : List Entry) (spool : Bytes) : Prop :=
  ∃ files out, collectFiles P inputs = .ok files ∧ entries = entriesOf files ∧
    T.unpack spool [] = .ok out ∧ out.length = files.length ∧ ∀ f ∈ files, (pathOf f.rel, f.content) ∈ out

/-! ## Collecting -/

variable {P T}

/-- A found file as its name and content. -/
def Found.pair (f : Found) : Str × Bytes := (f.rel, f.content)

theorem collectWalk_eq {base : P.OsStr} {items : List (Except Anyhow (DirEntry P.OsStr))} {files : List Found}
    (h : collectWalk P base items = .ok files) :
    files.map Found.pair = (items.filterMap Except.regular).map fun f => (archiveName P base f.1, f.2) := by
  induction items generalizing files with
  | nil =>
      cases h
      rfl
  | cons item items ih =>
      cases item with
      | error e => cases h
      | ok entry =>
          obtain ⟨rel, file⟩ := entry
          cases file with
          -- a directory or a special file: the walk goes on
          | none => exact ih h
          | some file =>
              obtain ⟨content, mtime⟩ := file
              cases hrest : collectWalk P base items with
              | error e =>
                  rw [collectWalk, hrest] at h
                  cases h
              | ok more =>
                  rw [collectWalk, hrest] at h
                  cases h
                  rw [List.map_cons, ih hrest]
                  rfl

theorem collectInput_eq {input : Input P.OsStr} {files : List Found} (h : collectInput P input = .ok files) :
    files.map Found.pair = input.named P := by
  obtain ⟨display, fileName, node⟩ := input
  cases node with
  | error e => cases h
  | ok node =>
      cases fileName with
      | none => cases h
      | some base =>
          cases node with
          | file content mtime =>
              cases h
              rfl
          | dir entries => exact collectWalk_eq h
          | special => cases h
          | unreadable e => cases h

theorem collectInputs_eq {inputs : List (Input P.OsStr)} {files : List Found}
    (h : collectInputs P inputs = .ok files) :
    files.map Found.pair = inputs.flatMap (Input.named P) := by
  induction inputs generalizing files with
  | nil =>
      cases h
      rfl
  | cons input inputs ih =>
      rw [collectInputs] at h
      cases hfirst : collectInput P input with
      | error e =>
          rw [hfirst] at h
          cases h
      | ok first =>
          cases hrest : collectInputs P inputs with
          | error e =>
              rw [hfirst, hrest] at h
              cases h
          | ok more =>
              rw [hfirst, hrest] at h
              cases h
              rw [List.map_append, collectInput_eq hfirst, ih hrest]
              rfl

/-- The files collected are those of the arguments, in some order. -/
theorem collectFiles_perm {inputs : List (Input P.OsStr)} {files : List Found}
    (h : collectFiles P inputs = .ok files) :
    (files.map Found.pair).Perm (inputs.flatMap (Input.named P)) := by
  rw [collectFiles] at h
  cases hcol : collectInputs P inputs with
  | error e =>
      rw [hcol] at h
      cases h
  | ok found =>
      rw [hcol] at h
      cases h
      rw [← collectInputs_eq hcol]
      exact (List.mergeSort_perm _ _).map _

/-! ## Unpacking -/

theorem Clash.refl (p : List Str) : Clash p p := .inl (List.prefix_refl p)

theorem Clash.symm {p q : List Str} (h : Clash p q) : Clash q p := Or.symm h

/-- An entry that is apart from everything there becomes a file of its own. -/
theorem put_of_apart {out : OutDir} {p : List Str} (h : ∀ e ∈ out, ¬ Clash e.1 p) (content : Bytes) :
    put out p content = .ok (out ++ [(p, content)]) := by
  have hno : (out.any fun e => decide (e.1 ≠ p ∧ Clash e.1 p)) = false := by
    rw [List.any_eq_false]
    intro e he
    simp [h e he]
  have hnew : (out.any fun e => decide (e.1 = p)) = false := by
    rw [List.any_eq_false]
    intro e he
    have hne : e.1 ≠ p := fun heq => h e he (heq ▸ Clash.refl _)
    simpa using hne
  rw [put, hno, hnew]
  rfl

/-- Any other entry fails, or is no additional file. -/
theorem put_cases {out out' : OutDir} {p : List Str} {content : Bytes} (h : put out p content = .ok out') :
    out'.length = out.length ∨ (out' = out ++ [(p, content)] ∧ ∀ e ∈ out, ¬ Clash e.1 p) := by
  rw [put] at h
  split at h
  · cases h
  · next hno =>
      split at h
      · cases h
        exact .inl (List.length_map _)
      · next hnew =>
          cases h
          refine .inr ⟨rfl, ?_⟩
          intro e he hclash
          have hne : e.1 ≠ p := fun heq => hnew (List.any_eq_true.mpr ⟨e, he, by simpa using heq⟩)
          exact hno (List.any_eq_true.mpr ⟨e, he, by simp [hne, hclash]⟩)

theorem recreate_of_apart {entries : List (Str × Bytes)} {out : OutDir}
    (hout : ∀ e ∈ entries, ∀ o ∈ out, ¬ Clash o.1 (pathOf e.1))
    (hapart : entries.Pairwise fun a b => ¬ Clash (pathOf a.1) (pathOf b.1)) :
    recreate entries out = .ok (out ++ entries.map fun e => (pathOf e.1, e.2)) := by
  induction entries generalizing out with
  | nil => rw [recreate, List.map_nil, List.append_nil]
  | cons e entries ih =>
      obtain ⟨name, content⟩ := e
      rw [List.pairwise_cons] at hapart
      rw [recreate, put_of_apart (hout _ List.mem_cons_self) content]
      show recreate entries (out ++ [(pathOf name, content)]) = _
      rw [ih _ hapart.2, List.append_assoc]
      · rfl
      · intro e he o ho
        rcases List.mem_append.mp ho with ho | ho
        · exact hout e (List.mem_cons_of_mem _ he) o ho
        · rw [List.mem_singleton.mp ho]
          exact hapart.1 e he

/-- Unpacking yields as many files as entries only if no two entries clash. -/
theorem apart_of_recreate {entries : List (Str × Bytes)} {out out' : OutDir}
    (h : recreate entries out = .ok out') : out'.length ≤ out.length + entries.length ∧
      (out'.length = out.length + entries.length →
        (∀ e ∈ entries, ∀ o ∈ out, ¬ Clash o.1 (pathOf e.1)) ∧
        entries.Pairwise fun a b => ¬ Clash (pathOf a.1) (pathOf b.1)) := by
  induction entries generalizing out with
  | nil =>
      cases h
      exact ⟨le_rfl, fun _ => ⟨by simp, .nil⟩⟩
  | cons e entries ih =>
      obtain ⟨name, content⟩ := e
      rw [recreate] at h
      cases hput : put out (pathOf name) content with
      | error err =>
          rw [hput] at h
          cases h
      | ok out₁ =>
          rw [hput] at h
          obtain ⟨hle, heq⟩ := ih h
          rw [List.length_cons]
          rcases put_cases hput with hsame | ⟨rfl, hapart⟩
          · -- the file was there: one is missing in the end
            refine ⟨by omega, fun hfull => ?_⟩
            omega
          · rw [List.length_append, List.length_singleton] at hle heq
            refine ⟨by omega, fun hfull => ?_⟩
            obtain ⟨hout, hpair⟩ := heq (by omega)
            refine ⟨?_, List.pairwise_cons.mpr ⟨?_, hpair⟩⟩
            · intro e he o ho
              rcases List.mem_cons.mp he with rfl | he
              · exact hapart o ho
              · exact hout e he o (List.mem_append_left _ ho)
            · intro e he
              exact hout e he _ (List.mem_append_right _ List.mem_cons_self)

/-! ## No file is lost -/

theorem prepare_tar {inputs : List (Input P.OsStr)} {hkind : Kind.tar ≠ .text} {name transferId : String}
    {entries : List Entry} {size : Nat} {spool : Bytes}
    (h : prepare P T inputs = .ok (.blob .tar hkind name entries size transferId, some spool)) :
    ∃ files, collectFiles P inputs = .ok files ∧ entries = entriesOf files ∧
      T.build (files.map Found.pair) = .ok spool := by
  rw [prepare] at h
  -- no inputs, then nothing collected, then the single file, then the archive
  split at h
  · cases h
  · cases hcol : collectFiles P inputs with
    | error e =>
        rw [hcol] at h
        cases h
    | ok files =>
        rw [hcol] at h
        cases files with
        | nil => cases h
        | cons f rest =>
            simp only [bind, Except.bind] at h
            split at h
            · cases h
            · cases hbuild : T.build ((f :: rest).map fun f => (f.rel, f.content)) with
              | error e =>
                  rw [hbuild] at h
                  cases h
              | ok b =>
                  rw [hbuild] at h
                  cases h
                  exact ⟨f :: rest, rfl, rfl, hbuild⟩

/-- **No input file is lost exactly if the names are apart.** -/
theorem unpacked_iff {inputs : List (Input P.OsStr)} {hkind : Kind.tar ≠ .text} {name transferId : String}
    {entries : List Entry} {size : Nat} {spool : Bytes}
    (h : prepare P T inputs = .ok (.blob .tar hkind name entries size transferId, some spool)) :
    Unpacked P T inputs entries spool ↔ Apart P inputs := by
  obtain ⟨files, hcol, hentries, hbuild⟩ := prepare_tar h
  have hsym : ∀ a b : Str × Bytes, ¬ Clash (pathOf a.1) (pathOf b.1) → ¬ Clash (pathOf b.1) (pathOf a.1) :=
    fun a b hab hba => hab hba.symm
  have hperm : Apart P inputs ↔
      (files.map Found.pair).Pairwise fun a b => ¬ Clash (pathOf a.1) (pathOf b.1) :=
    ((collectFiles_perm hcol).pairwise_iff fun {a b} => hsym a b).symm
  rw [hperm]
  constructor
  · rintro ⟨files', out, hcol', -, hunpack, hlen, -⟩
    rw [hcol] at hcol'
    cases hcol'
    rw [T.unpack_build _ _ _ hbuild] at hunpack
    -- as many files as entries: no two share a path
    refine ((apart_of_recreate hunpack).2 ?_).2
    rw [hlen, List.length_map]
    exact (Nat.zero_add _).symm
  · intro hapart
    have hunpack : T.unpack spool []
        = .ok ([] ++ (files.map Found.pair).map fun e => (pathOf e.1, e.2)) := by
      rw [T.unpack_build _ _ _ hbuild]
      exact recreate_of_apart (by simp) hapart
    refine ⟨files, _, hcol, hentries, hunpack, by simp, ?_⟩
    intro f hf
    rw [List.nil_append, List.map_map]
    exact List.mem_map.mpr ⟨f, hf, rfl⟩

theorem collectFiles_of_sorted {inputs : List (Input P.OsStr)} {files : List Found}
    (h : collectInputs P inputs = .ok files)
    (hsorted : files.Pairwise fun a b => decide (a.rel ≤ b.rel) = true) :
    collectFiles P inputs = .ok files := by
  rw [collectFiles, h]
  exact congrArg Except.ok (List.mergeSort_of_pairwise hsorted)

theorem prepare_of_collect {inputs : List (Input P.OsStr)} (hne : inputs ≠ []) {f : Found}
    {rest : List Found} (hcol : collectFiles P inputs = .ok (f :: rest)) (hmany : 1 < inputs.length)
    {spool : Bytes} (hbuild : T.build ((f :: rest).map fun f => (f.rel, f.content)) = .ok spool) :
    prepare P T inputs = .ok (.blob .tar (by decide) "b2p-bundle.tar" (entriesOf (f :: rest)) spool.length
      (fingerprint T (f :: rest)), some spool) := by
  rw [prepare, if_neg (by simpa using hne), hcol]
  simp only [bind, Except.bind]
  rw [if_neg (by omega), hbuild]
  rfl

end sender

/-! ## Two arguments of one name -/

/-- File names that are text. -/
def Platform.plain : Platform := ⟨Str, id, '/'⟩

/-- An archive that is the list of its entries. -/
def TarLib.listed : TarLib where
  build entries := .ok ((Codec.unary (List (Str × Bytes))).toVec entries)
  unpack spool out :=
    match (Codec.unary (List (Str × Bytes))).fromSlice spool with
    | some entries => recreate entries out
    | none => .error (.msg "failed to unpack")
  unpack_build entries spool out h := by
    cases h
    simp only [Codec.fromSlice_toVec]
  blake3Hex _ := []

/-- A file argument. -/
def fileInput (display : String) (name : Str) (content : Bytes) : Input Platform.plain.OsStr :=
  ⟨display, some name, .ok (.file content 0)⟩

/-- A directory argument with one file in it. -/
def dirInput (display : String) (dir name : Str) (content : Bytes) : Input Platform.plain.OsStr :=
  ⟨display, some dir, .ok (.dir (.cons name (.file content 0) .nil))⟩

theorem unpacked_iff_twoNames : ∃ entries size transferId spool,
    prepare .plain .listed [fileInput "x/a" ['a'] [7], dirInput "d" ['d'] ['a'] [8]]
      = .ok (.blob .tar (by decide) "b2p-bundle.tar" entries size transferId, some spool) ∧
    Unpacked .plain .listed [fileInput "x/a" ['a'] [7], dirInput "d" ['d'] ['a'] [8]] entries spool := by
  have hcol : collectFiles .plain [fileInput "x/a" ['a'] [7], dirInput "d" ['d'] ['a'] [8]]
      = .ok [⟨['a'], [7], 0⟩, ⟨['d', '/', 'a'], [8], 0⟩] :=
    collectFiles_of_sorted rfl (by decide)
  have hprep := prepare_of_collect (T := .listed) (by simp) hcol (by decide) rfl
  refine ⟨_, _, _, _, hprep, (unpacked_iff hprep).mpr ?_⟩
  show List.Pairwise _ [(['a'], [7]), (['d', '/', 'a'], [8])]
  decide

/-- Of `x/a` and `y/a` only one arrives. -/
theorem not_unpacked_sameName : ∃ entries size transferId spool,
    prepare .plain .listed [fileInput "x/a" ['a'] [7], fileInput "y/a" ['a'] [8]]
      = .ok (.blob .tar (by decide) "b2p-bundle.tar" entries size transferId, some spool) ∧
    ¬ Unpacked .plain .listed [fileInput "x/a" ['a'] [7], fileInput "y/a" ['a'] [8]] entries spool := by
  have hcol : collectFiles .plain [fileInput "x/a" ['a'] [7], fileInput "y/a" ['a'] [8]]
      = .ok [⟨['a'], [7], 0⟩, ⟨['a'], [8], 0⟩] :=
    collectFiles_of_sorted rfl (by decide)
  have hprep := prepare_of_collect (T := .listed) (by simp) hcol (by decide) rfl
  refine ⟨_, _, _, _, hprep, ?_⟩
  rintro ⟨files, out, hcol', -, hunpack, hlen, -⟩
  rw [hcol] at hcol'
  cases hcol'
  -- the second entry overwrites the first
  have hout : recreate ([⟨['a'], [7], 0⟩, ⟨['a'], [8], 0⟩].map
      fun f : Found => (f.rel, f.content)) [] = .ok [([['a']], [8])] := rfl
  have heq := hunpack.symm.trans ((TarLib.unpack_build .listed _ _ [] rfl).trans hout)
  cases heq
  cases hlen

end B2p
