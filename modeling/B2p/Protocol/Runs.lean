import B2p.Protocol
import Mathlib.Data.List.Perm.Subperm

/-!
# Run-length acks are exact (`runs_from_sorted`, `runs_contain`)

The sender leaves out the chunks that the runs of the receiver's reply contain, and no others.

* `expandRuns` — the indices that runs stand for, in order; it undoes `runsFromSorted` on every list.
* `Gapped` — sorted runs with at least one index missing between any two.
* `exact_of_sorted` — the runs of a sorted list: exact, gapped, as few as possible, and within `u64`.
-/

namespace B2p

/-- The indices of some runs. -/
def expandRuns (runs : List (Nat × Nat)) : List Nat := runs.flatMap fun r => List.range' r.1 r.2

/-- Between two runs there is an index in neither. -/
def Gapped (runs : List (Nat × Nat)) : Prop := runs.Pairwise fun r s => r.1 + r.2 < s.1

/-! ## The loop -/

theorem runsFromSorted_append (l : List Nat) (i : Nat) :
    runsFromSorted (l ++ [i]) = pushRun (runsFromSorted l) i := by
  simp [runsFromSorted]

/-- What one index does to the runs: it makes the last one longer, or comes as a run of its own. -/
theorem pushRun_cases (runs : List (Nat × Nat)) (i : Nat) :
    (∃ init start len, runs = init ++ [(start, len)] ∧ start + len = i ∧
      pushRun runs i = init ++ [(start, len + 1)]) ∨
    ((∀ init start len, runs = init ++ [(start, len)] → start + len ≠ i) ∧
      pushRun runs i = runs ++ [(i, 1)]) := by
  rcases List.eq_nil_or_concat runs with rfl | ⟨init, ⟨start, len⟩, rfl⟩
  · exact .inr ⟨by simp, rfl⟩
  · rw [List.concat_eq_append]
    by_cases hi : start + len = i
    · exact .inl ⟨init, start, len, rfl, hi, by simp [pushRun, hi]⟩
    · refine .inr ⟨?_, by simp [pushRun, hi]⟩
      intro init' start' len' heq
      obtain ⟨-, hlast⟩ := List.append_inj' heq rfl
      cases hlast
      exact hi

theorem expandRuns_pushRun (runs : List (Nat × Nat)) (i : Nat) :
    expandRuns (pushRun runs i) = expandRuns runs ++ [i] := by
  rcases pushRun_cases runs i with ⟨init, start, len, rfl, rfl, hpush⟩ | ⟨-, hpush⟩
  · simp [hpush, expandRuns, List.range'_concat]
  · simp [hpush, expandRuns]

/-- **Expanding undoes `runs_from_sorted`**, on any list. -/
theorem expandRuns_runsFromSorted (l : List Nat) : expandRuns (runsFromSorted l) = l := by
  induction l using List.reverseRecOn with
  | nil => rfl
  | append_singleton l i ih => rw [runsFromSorted_append, expandRuns_pushRun, ih]

theorem length_pos_of_mem_runs {l : List Nat} : ∀ r ∈ runsFromSorted l, 0 < r.2 := by
  induction l using List.reverseRecOn with
  | nil => nofun
  | append_singleton l i ih =>
      rw [runsFromSorted_append]
      rcases pushRun_cases (runsFromSorted l) i with ⟨init, start, len, heq, -, hpush⟩ | ⟨-, hpush⟩
      · rw [heq] at ih
        intro r hr
        rw [hpush, List.mem_append, List.mem_singleton] at hr
        rcases hr with hr | rfl
        · exact ih r (by simp [hr])
        · exact Nat.succ_pos len
      · intro r hr
        rw [hpush, List.mem_append, List.mem_singleton] at hr
        rcases hr with hr | rfl
        · exact ih r hr
        · exact Nat.one_pos

theorem mem_expandRuns {runs : List (Nat × Nat)} {i : Nat} :
    i ∈ expandRuns runs ↔ ∃ r ∈ runs, r.1 ≤ i ∧ i < r.1 + r.2 := by
  simp [expandRuns, List.mem_range'_1]

/-- The runs of a list end where one of its elements does. -/
theorem end_of_mem_runs {l : List Nat} {r : Nat × Nat} (hr : r ∈ runsFromSorted l) :
    r.1 ∈ l ∧ r.1 + r.2 - 1 ∈ l := by
  have hpos := length_pos_of_mem_runs r hr
  have hmem : ∀ i, r.1 ≤ i → i < r.1 + r.2 → i ∈ l := by
    intro i hlow hhigh
    rw [← expandRuns_runsFromSorted l, mem_expandRuns]
    exact ⟨r, hr, hlow, hhigh⟩
  exact ⟨hmem _ (le_refl _) (by omega), hmem _ (by omega) (by omega)⟩

/-- The invariant of the loop on a sorted list. -/
theorem gapped_runsFromSorted {l : List Nat} (hl : l.Pairwise (· < ·)) : Gapped (runsFromSorted l) := by
  induction l using List.reverseRecOn with
  | nil => exact .nil
  | append_singleton l i ih =>
      rw [List.pairwise_append] at hl
      obtain ⟨hl, -, hlast⟩ := hl
      have hgap := ih hl
      -- every run so far ends at or before the new index
      have hends : ∀ r ∈ runsFromSorted l, r.1 + r.2 ≤ i := by
        intro r hr
        have hpos := length_pos_of_mem_runs r hr
        have hlt := hlast _ (end_of_mem_runs hr).2 i (List.mem_singleton.mpr rfl)
        omega
      rw [runsFromSorted_append]
      rcases pushRun_cases (runsFromSorted l) i with ⟨init, start, len, heq, -, hpush⟩ | ⟨hne, hpush⟩
      · rw [heq, Gapped, List.pairwise_append] at hgap
        rw [hpush, Gapped, List.pairwise_append]
        refine ⟨hgap.1, List.pairwise_singleton _ _, ?_⟩
        intro r hr s hs
        rw [List.mem_singleton] at hs
        rw [hs]
        exact hgap.2.2 r hr (start, len) (List.mem_singleton.mpr rfl)
      · rw [hpush, Gapped, List.pairwise_append]
        refine ⟨hgap, List.pairwise_singleton _ _, ?_⟩
        intro r hr s hs
        rw [List.mem_singleton] at hs
        rw [hs]
        show r.1 + r.2 < i
        refine lt_of_le_of_ne (hends r hr) ?_
        -- only the last run may end at the index, and it does not
        rcases List.eq_nil_or_concat (runsFromSorted l) with hnil | ⟨init, ⟨start, len⟩, heq⟩
        · rw [hnil] at hr
          cases hr
        · rw [List.concat_eq_append] at heq
          have hlen := hne init start len heq
          have hstart := hends (start, len) (by simp [heq])
          rw [heq, Gapped, List.pairwise_append] at hgap
          rw [heq, List.mem_append, List.mem_singleton] at hr
          rcases hr with hr | rfl
          · have hbefore := hgap.2.2 r hr (start, len) (List.mem_singleton.mpr rfl)
            dsimp only at hbefore hstart
            omega
          · exact hlen

/-! ## No encoding has fewer runs -/

theorem runsContain_iff {runs : List (Nat × Nat)} {i : Nat} :
    runsContain runs i = true ↔ ∃ r ∈ runs, r.1 ≤ i ∧ i < r.1 + r.2 := by
  simp [runsContain]

/-- Two gapped runs are the same or lie apart. -/
theorem Gapped.apart {runs : List (Nat × Nat)} (h : Gapped runs) {r s : Nat × Nat} (hr : r ∈ runs)
    (hs : s ∈ runs) : r = s ∨ r.1 + r.2 < s.1 ∨ s.1 + s.2 < r.1 := by
  induction runs with
  | nil => cases hr
  | cons t runs ih =>
      obtain ⟨ht, htail⟩ := List.pairwise_cons.mp h
      rcases List.mem_cons.mp hr with rfl | hr'
      · rcases List.mem_cons.mp hs with rfl | hs'
        · exact .inl rfl
        · exact .inr (.inl (ht s hs'))
      · rcases List.mem_cons.mp hs with rfl | hs'
        · exact .inr (.inr (ht r hr'))
        · exact ih htail hr' hs'

theorem Gapped.nodup {runs : List (Nat × Nat)} (h : Gapped runs) : runs.Nodup := by
  refine h.imp ?_
  rintro r _ hlt rfl
  omega

/-- The index after a run is missing. -/
theorem end_not_mem {l : List Nat} (hl : l.Pairwise (· < ·)) {r : Nat × Nat}
    (hr : r ∈ runsFromSorted l) : r.1 + r.2 ∉ l := by
  intro hmem
  rw [← expandRuns_runsFromSorted l, mem_expandRuns] at hmem
  obtain ⟨s, hs, hlow, hhigh⟩ := hmem
  rcases (gapped_runsFromSorted hl).apart hr hs with rfl | hlt | hlt
  · exact Nat.lt_irrefl _ hhigh
  · omega
  · omega

/-- **As few runs as possible**: whatever runs contain the same indices, there are no fewer of them.
Each of them reaches the start of one run at most, since the index after a run is missing. -/
theorem length_runs_le {l : List Nat} (hl : l.Pairwise (· < ·)) (hb : ∀ i ∈ l, i < 2 ^ 64 - 1)
    {rs : List (Nat × Nat)} (hrs : ∀ i < 2 ^ 64, runsContain rs i = true ↔ i ∈ l) :
    (runsFromSorted l).length ≤ rs.length := by
  have hstart : ∀ r ∈ runsFromSorted l, ∃ t ∈ rs, t.1 ≤ r.1 ∧ r.1 < t.1 + t.2 := by
    intro r hr
    have hmem := (end_of_mem_runs hr).1
    exact runsContain_iff.mp ((hrs r.1 (by have := hb _ hmem; omega)).mpr hmem)
  choose! reach hreach hlow hhigh using hstart
  have hone : ∀ r ∈ runsFromSorted l, ∀ s ∈ runsFromSorted l, reach r = reach s → ¬ r.1 + r.2 < s.1 := by
    intro r hr s hs heq hlt
    have hbound := hb _ (end_of_mem_runs hr).2
    refine end_not_mem hl hr ((hrs _ (by omega)).mp (runsContain_iff.mpr ⟨reach r, hreach r hr, ?_, ?_⟩))
    · have hle := hlow r hr
      omega
    · have hlt' := hhigh s hs
      rw [← heq] at hlt'
      omega
  have hnodup : ((runsFromSorted l).map reach).Nodup := by
    refine (gapped_runsFromSorted hl).nodup.map_on ?_
    intro r hr s hs heq
    rcases (gapped_runsFromSorted hl).apart hr hs with h | h | h
    · exact h
    · exact absurd h (hone r hr s hs heq)
    · exact absurd h (hone s hs r hr heq.symm)
  have hsub : (runsFromSorted l).map reach ⊆ rs := by
    intro t ht
    obtain ⟨r, hr, rfl⟩ := List.mem_map.mp ht
    exact hreach r hr
  have hle := (List.subperm_of_subset hnodup hsub).length_le
  rwa [List.length_map] at hle

/-! ## Exactness -/

/-- What the receiver's reply promises about the staged chunks `l`. -/
structure Exact (l : List Nat) : Prop where
  contains : ∀ i, runsContain (runsFromSorted l) i = true ↔ i ∈ l
  gapped : Gapped (runsFromSorted l)
  minimal : ∀ rs, (∀ i < 2 ^ 64, runsContain rs i = true ↔ i ∈ l) →
    (runsFromSorted l).length ≤ rs.length
  total : ((runsFromSorted l).map Prod.snd).sum = l.length
  /-- At any point of the loop. -/
  fits : ∀ l', l' <+: l → ∀ r ∈ runsFromSorted l', r.1 + r.2 < 2 ^ 64

/-- **Run-length acks are exact** for every strictly increasing list of `u64`s without the last one. -/
theorem exact_of_sorted {l : List Nat} (hl : l.Pairwise (· < ·)) (hb : ∀ i ∈ l, i < 2 ^ 64 - 1) :
    Exact l where
  contains := runsContain_runsFromSorted l
  gapped := gapped_runsFromSorted hl
  minimal _ := length_runs_le hl hb
  total := by
    have hlen := congrArg List.length (expandRuns_runsFromSorted l)
    simpa [expandRuns, List.length_flatMap] using hlen
  fits l' hpre r hr := by
    have hend := hb _ (hpre.subset (end_of_mem_runs hr).2)
    have hpos := length_pos_of_mem_runs r hr
    omega

/-- The list of the source's own test. -/
theorem exact_of_sorted_example : Exact [0, 1, 2, 5, 7, 8] :=
  exact_of_sorted (by decide) (by decide)

example : runsFromSorted [0, 1, 2, 5, 7, 8] = [(0, 3), (5, 1), (7, 2)] := by decide

end B2p
