import B2p.Archive
import B2p.Lib.Delimited

/-!
# The fingerprint of a transfer (`archive.rs`)

A transfer is resumed where the ids agree, and the id of a blob is a hash over its files: for each, the
name, a zero, the size, a zero, the time and a newline, the numbers as eight bytes. Names may hold newlines
and numbers may hold any byte, yet only one list of files has a given sequence of bytes, as a name holds no
zero. The order in which the arguments are given plays no role as long as no two files have one name.

* `Line` — what is hashed of a file; `hashed` — the bytes of a list of these.
* `hashed_inj` — these can be read in one way only.
* `Sendable.prepare`, `exists_sendable` — what `prepare` makes of the files it collects, and when.
* `collectFiles_of_perm`, `prepare_of_perm` — the order of the arguments does not matter.
* `fingerprint_faithful` — all of it.
-/

namespace B2p

open Text Coding

/-! ## What is hashed -/

/-- What `fingerprint` looks at of a file. -/
structure Line where
  path : String
  size : Nat
  mtime : Nat
  deriving DecidableEq

/-- No name of a file holds a NUL, and the numbers are `u64`. -/
structure Line.Proper (l : Line) : Prop where
  path : 0 ∉ asBytes l.path
  size : l.size < 2 ^ 64
  mtime : l.mtime < 2 ^ 64

/-- What is fed to the hasher for a file. -/
def Line.bytes (l : Line) : Bytes :=
  asBytes l.path ++ [0] ++ toLeBytes 8 l.size ++ [0] ++ toLeBytes 8 l.mtime ++ [10]

/-- What is fed to the hasher. -/
def hashed (lines : List Line) : Bytes := lines.flatMap Line.bytes

def Found.line (f : Found) : Line := ⟨String.ofList f.rel, f.content.length, f.mtime⟩

theorem fingerprint_eq (T : TarLib) (files : List Found) :
    fingerprint T files = String.ofList ((T.blake3Hex (hashed (files.map Found.line))).take 32) := by
  rw [hashed, List.flatMap_map]
  rfl

theorem asBytes_injective : Function.Injective asBytes := by
  intro a b h
  have harray : a.toUTF8 = b.toUTF8 := ByteArray.ext (Array.toList_inj.mp h)
  exact String.toByteArray_inj.mp harray

/-- A `u64` is eight bytes. -/
theorem selfDelimiting_toLeBytes : SelfDelimiting {n | n < 2 ^ 64} (toLeBytes 8) :=
  selfDelimiting_of_length (fun n _ => length_toLeBytes 8 n) fun _ hm _ hn h => toLeBytes_inj hm hn h

/-- A name ends at the first zero. -/
theorem selfDelimiting_path : SelfDelimiting {s | 0 ∉ asBytes s} fun s => asBytes s ++ [0] :=
  selfDelimiting_terminated (fun _ hs => hs) asBytes_injective.injOn

theorem selfDelimiting_line : SelfDelimiting {l | Line.Proper l} Line.bytes := by
  have hsized := (selfDelimiting_path.append selfDelimiting_toLeBytes).mark [0]
  have hline := (hsized.append selfDelimiting_toLeBytes).mark [10]
  have hfields : Function.Injective fun l : Line => ((l.path, l.size), l.mtime) := by
    rintro ⟨path, size, mtime⟩ ⟨path', size', mtime'⟩ h
    cases h
    rfl
  have hproper := hline.comap (T := {l | Line.Proper l}) hfields fun l hl => ⟨⟨hl.path, hl.size⟩, hl.mtime⟩
  exact hproper

/-- **Two lists of files are hashed as the same bytes only if they are the same list.** -/
theorem hashed_inj {xs ys : List Line} (hxs : ∀ l ∈ xs, l.Proper) (hys : ∀ l ∈ ys, l.Proper)
    (h : hashed xs = hashed ys) : xs = ys := by
  apply selfDelimiting_line.flatMap_inj _ hxs hys h
  intro l _
  simp [Line.bytes]

/-! ## The transfer of some files -/

section transfer

variable (P : Platform) (T : TarLib)

/-- What the arguments hold can be sent: some files, and unless one of them is the only argument, an archive
of them can be built. -/
structure Sendable (inputs : List (Input P.OsStr)) (files : List Found) : Prop where
  collected : collectFiles P inputs = .ok files
  nonempty : files ≠ []
  built : (inputs.length = 1 ∧ files.length = 1 ∧ inputs.all Input.isFile) ∨
    ∃ spool, T.build (files.map Found.pair) = .ok spool

/-- A transfer of these files: it has their id, and their entries in order. -/
def Source.Of (files : List Found) (source : Source) : Prop :=
  ∃ kind hkind name size, source = .blob kind hkind name (entriesOf files) size (fingerprint T files)

variable {P T} {inputs : List (Input P.OsStr)} {files : List Found}

theorem Sendable.inputs_ne (h : Sendable P T inputs files) : inputs ≠ [] := by
  rintro rfl
  have hcol := h.collected
  rw [collectFiles, collectInputs, Except.map, List.mergeSort_nil, Except.ok.injEq] at hcol
  exact h.nonempty hcol.symm

/-- **What can be sent is prepared**, as a transfer of the files collected. -/
theorem Sendable.prepare (h : Sendable P T inputs files) :
    ∃ source kept, B2p.prepare P T inputs = .ok (source, kept) ∧ source.Of T files := by
  obtain ⟨f, rest, rfl⟩ := List.exists_cons_of_ne_nil h.nonempty
  rw [B2p.prepare, if_neg (by simpa using h.inputs_ne), h.collected]
  simp only [bind, Except.bind]
  split
  · exact ⟨_, _, rfl, _, _, _, _, rfl⟩
  · next hmany =>
      have hbuilt : ∃ spool, T.build ((f :: rest).map Found.pair) = .ok spool := by
        refine h.built.resolve_left ?_
        rintro ⟨hone, hfile, hall⟩
        exact hmany ⟨hone, Nat.succ.inj hfile, hall⟩
      obtain ⟨spool, hspool⟩ := hbuilt
      rw [show T.build ((f :: rest).map fun f => (f.rel, f.content)) = .ok spool from hspool]
      exact ⟨_, _, rfl, _, _, _, _, rfl⟩

/-- … and nothing else is. -/
theorem exists_sendable {source : Source} {kept : Option Bytes} (h : prepare P T inputs = .ok (source, kept)) :
    ∃ files, Sendable P T inputs files ∧ source.Of T files := by
  rw [prepare] at h
  split at h
  · cases h
  · cases hcol : collectFiles P inputs with
    | error e =>
        rw [hcol] at h
        cases h
    | ok files =>
        rw [hcol] at h
        cases files with
        | nil => cases h
        | cons f rest =>
            simp only [bind, Except.bind] at h
            split at h
            · next hone =>
                cases h
                exact ⟨_, ⟨hcol, List.cons_ne_nil _ _, .inl ⟨hone.1, congrArg Nat.succ hone.2.1, hone.2.2⟩⟩,
                  _, _, _, _, rfl⟩
            · cases hbuild : T.build ((f :: rest).map fun f => (f.rel, f.content)) with
              | error e =>
                  rw [hbuild] at h
                  cases h
              | ok spool =>
                  rw [hbuild] at h
                  cases h
                  exact ⟨_, ⟨hcol, List.cons_ne_nil _ _, .inr ⟨spool, hbuild⟩⟩, _, _, _, _, rfl⟩

end transfer

/-! ## The order of the arguments -/

section order

variable {P : Platform} {T : TarLib} {inputs inputs' : List (Input P.OsStr)} {files : List Found}

theorem collectInputs_cons {input : Input P.OsStr} :
    collectInputs P (input :: inputs) = .ok files ↔
      ∃ first more, collectInput P input = .ok first ∧ collectInputs P inputs = .ok more ∧
        files = first ++ more := by
  rw [collectInputs]
  constructor
  · intro h
    cases hfirst : collectInput P input with
    | error e =>
        rw [hfirst] at h
        cases h
    | ok first =>
        cases hmore : collectInputs P inputs with
        | error e =>
            rw [hfirst, hmore] at h
            cases h
        | ok more =>
            rw [hfirst, hmore] at h
            cases h
            exact ⟨first, more, rfl, rfl, rfl⟩
  · rintro ⟨first, more, hfirst, hmore, rfl⟩
    rw [hfirst, hmore]
    rfl

/-- Permuted arguments hold the same files. -/
theorem collectInputs_of_perm (hperm : inputs.Perm inputs') (h : collectInputs P inputs = .ok files) :
    ∃ files', collectInputs P inputs' = .ok files' ∧ files.Perm files' := by
  induction hperm generalizing files with
  | nil => exact ⟨files, h, .refl _⟩
  | cons input _ ih =>
      obtain ⟨first, more, hfirst, hmore, rfl⟩ := collectInputs_cons.mp h
      obtain ⟨more', hmore', hsame⟩ := ih hmore
      exact ⟨_, collectInputs_cons.mpr ⟨first, more', hfirst, hmore', rfl⟩, hsame.append_left first⟩
  | swap a b rest =>
      obtain ⟨second, _, hsecond, htail, rfl⟩ := collectInputs_cons.mp h
      obtain ⟨first, more, hfirst, hmore, rfl⟩ := collectInputs_cons.mp htail
      refine ⟨first ++ (second ++ more), ?_, ?_⟩
      · exact collectInputs_cons.mpr ⟨_, _, hfirst, collectInputs_cons.mpr ⟨_, _, hsecond, hmore, rfl⟩, rfl⟩
      · rw [← List.append_assoc, ← List.append_assoc]
        exact List.perm_append_comm.append_right more
  | trans _ _ ih₁ ih₂ =>
      obtain ⟨files₁, h₁, hsame₁⟩ := ih₁ h
      obtain ⟨files₂, h₂, hsame₂⟩ := ih₂ h₁
      exact ⟨files₂, h₂, hsame₁.trans hsame₂⟩

/-- The names under which the files of the arguments are found occur once each. -/
def NamesDistinct (P : Platform) (inputs : List (Input P.OsStr)) : Prop :=
  ∀ files, collectInputs P inputs = .ok files → (files.map Found.rel).Nodup

/-- The order `collect_files` sorts by. -/
theorem pairwise_mergeSort_rel (files : List Found) :
    (files.mergeSort fun a b => decide (a.rel ≤ b.rel)).Pairwise fun a b => a.rel ≤ b.rel := by
  have htrans : ∀ a b c : Found, decide (a.rel ≤ b.rel) = true → decide (b.rel ≤ c.rel) = true →
      decide (a.rel ≤ c.rel) = true := by
    intro a b c hab hbc
    rw [decide_eq_true_iff] at hab hbc ⊢
    exact le_trans hab hbc
  have htotal : ∀ a b : Found, (decide (a.rel ≤ b.rel) || decide (b.rel ≤ a.rel)) = true := by
    intro a b
    simpa using le_total a.rel b.rel
  simpa using List.pairwise_mergeSort htrans htotal files

/-- Sorting by names that occur once each leaves one order only. -/
theorem mergeSort_of_perm {files files' : List Found} (hnames : (files.map Found.rel).Nodup)
    (hsame : files.Perm files') : (files.mergeSort fun a b => decide (a.rel ≤ b.rel))
      = files'.mergeSort fun a b => decide (a.rel ≤ b.rel) := by
  refine List.Perm.eq_of_pairwise ?_ (pairwise_mergeSort_rel files) (pairwise_mergeSort_rel files') ?_
  · intro a b ha hb hab hba
    have ha' := (List.mergeSort_perm files _).mem_iff.mp ha
    have hb' := hsame.mem_iff.mpr ((List.mergeSort_perm files' _).mem_iff.mp hb)
    exact List.inj_on_of_nodup_map hnames ha' hb' (le_antisymm hab hba)
  · exact (List.mergeSort_perm files _).trans (hsame.trans (List.mergeSort_perm files' _).symm)

theorem collectFiles_of_perm (hperm : inputs.Perm inputs') (hnames : NamesDistinct P inputs)
    (h : collectFiles P inputs = .ok files) : collectFiles P inputs' = .ok files := by
  rw [collectFiles] at h ⊢
  cases hcol : collectInputs P inputs with
  | error e =>
      rw [hcol] at h
      cases h
  | ok found =>
      obtain ⟨found', hcol', hsame⟩ := collectInputs_of_perm hperm hcol
      rw [hcol] at h
      rw [hcol', ← h]
      exact congrArg Except.ok (mergeSort_of_perm (hnames found hcol) hsame).symm

theorem NamesDistinct.of_perm (hperm : inputs.Perm inputs') (hnames : NamesDistinct P inputs) :
    NamesDistinct P inputs' := by
  intro files' hcol'
  obtain ⟨files, hcol, hsame⟩ := collectInputs_of_perm hperm.symm hcol'
  exact ((hsame.map Found.rel).nodup_iff).mpr (hnames files hcol)

/-- What `prepare` makes of its arguments depends on the files found, the number of arguments and their
being files. -/
theorem prepare_congr (hperm : inputs.Perm inputs') (h : collectFiles P inputs = .ok files)
    (h' : collectFiles P inputs' = .ok files) : prepare P T inputs = prepare P T inputs' := by
  have hempty : inputs.isEmpty = inputs'.isEmpty := hperm.isEmpty_eq
  have hall : inputs.all Input.isFile = inputs'.all Input.isFile := hperm.all_eq
  rw [prepare, prepare, h, h', hempty, hperm.length_eq, hall]

/-- A failure to collect is one of `prepare`. -/
theorem prepare_of_error {e : Anyhow} (h : collectFiles P inputs = .error e) :
    (prepare P T inputs).toOption = none := by
  rw [prepare, h]
  split <;> rfl

/-- **In any order the arguments make the same transfer**: the same id, the same entries in the same order,
the same spool, or none. -/
theorem prepare_of_perm (hperm : inputs.Perm inputs') (hnames : NamesDistinct P inputs) :
    (prepare P T inputs).toOption = (prepare P T inputs').toOption := by
  cases h : collectFiles P inputs with
  | ok files => rw [prepare_congr hperm h (collectFiles_of_perm hperm hnames h)]
  | error e =>
      cases h' : collectFiles P inputs' with
      | error e' => rw [prepare_of_error h, prepare_of_error h']
      | ok files' =>
          rw [collectFiles_of_perm hperm.symm (hnames.of_perm hperm) h'] at h
          cases h

/-- **What the id of a transfer stands for.** The bytes that are hashed belong to one list of files. A transfer
is prepared exactly if there is something to send, with the id and the entries of the files collected, and the
order of the arguments changes neither as long as no two files have one name. -/
theorem fingerprint_faithful (P : Platform) (T : TarLib) :
    (∀ files, fingerprint T files = String.ofList ((T.blake3Hex (hashed (files.map Found.line))).take 32)) ∧
    (∀ xs ys : List Line, (∀ l ∈ xs, l.Proper) → (∀ l ∈ ys, l.Proper) → hashed xs = hashed ys → xs = ys) ∧
    (∀ (inputs : List (Input P.OsStr)) files, Sendable P T inputs files →
      ∃ source kept, prepare P T inputs = .ok (source, kept) ∧ source.Of T files) ∧
    (∀ (inputs : List (Input P.OsStr)) source kept, prepare P T inputs = .ok (source, kept) →
      ∃ files, Sendable P T inputs files ∧ source.Of T files) ∧
    ∀ inputs inputs' : List (Input P.OsStr), inputs.Perm inputs' → NamesDistinct P inputs →
      (prepare P T inputs).toOption = (prepare P T inputs').toOption :=
  ⟨fingerprint_eq T, fun _ _ => hashed_inj, fun _ _ => Sendable.prepare, fun _ _ _ => exists_sendable,
    fun _ _ => prepare_of_perm⟩

end order

/-- A name with a newline in it, and a time that looks like one. -/
def newlineFile : Line := ⟨"a\nb", 256, 10⟩

/-- Nothing else has its bytes; and `x/a` and the directory `d` make the same transfer in either order, of `a`
and `d/a`. -/
theorem fingerprint_faithful_newline :
    (hashed [newlineFile] = [97, 10, 98, 0, 0, 1, 0, 0, 0, 0, 0, 0, 0, 10, 0, 0, 0, 0, 0, 0, 0, 10] ∧
      ∀ xs : List Line, (∀ l ∈ xs, l.Proper) → hashed xs = hashed [newlineFile] → xs = [newlineFile]) ∧
    ∃ source kept, source.Of .listed [⟨['a'], [7], 0⟩, ⟨['d', '/', 'a'], [8], 0⟩] ∧
      prepare .plain .listed [fileInput "x/a" ['a'] [7], dirInput "d" ['d'] ['a'] [8]] = .ok (source, kept) ∧
      (prepare .plain .listed [dirInput "d" ['d'] ['a'] [8], fileInput "x/a" ['a'] [7]]).toOption
        = some (source, kept) := by
  obtain ⟨-, hinj, hprepared, -, hperm⟩ := fingerprint_faithful .plain .listed
  have hproper : ∀ l ∈ [newlineFile], l.Proper := by
    intro l hl
    rw [List.mem_singleton.mp hl]
    exact ⟨by decide, by decide, by decide⟩
  have hsend : Sendable .plain .listed [fileInput "x/a" ['a'] [7], dirInput "d" ['d'] ['a'] [8]]
      [⟨['a'], [7], 0⟩, ⟨['d', '/', 'a'], [8], 0⟩] :=
    ⟨collectFiles_of_sorted rfl (by decide), List.cons_ne_nil _ _, .inr ⟨_, rfl⟩⟩
  obtain ⟨source, kept, hok, hof⟩ := hprepared _ _ hsend
  refine ⟨⟨by decide, fun xs hxs h => hinj xs _ hxs hproper h⟩, source, kept, hof, hok, ?_⟩
  rw [← hperm _ _ (.swap _ _ _), hok]
  · rfl
  · intro files h
    cases h
    decide

end B2p
