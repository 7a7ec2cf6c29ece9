import CDRuntime.RollbackCell
import Mathlib.Data.Fin.VecNotation
import Mathlib.Data.List.FinRange
import Mathlib.Logic.Function.Basic

namespace CDRuntime.RollbackAgreement

variable {n : ℕ}

/-- Where a member is in `CD::Complete(collective = true)`; `new` is what `SetRollbackPoint` is
called with, and then what it returns. -/
inductive Pc where
  | entered
  | checked
  | fenced
  | waiting
  | reduced (new : ℕ)
  | merged (new : ℕ)
  deriving DecidableEq, Repr

/-- The level of the CD, the cells, the values read for the reduction, and the levels that have
been accumulated into each cell between the member's read and its merge. -/
structure State (n : ℕ) where
  level : ℕ
  cell : Fin n → ℕ
  value : Fin n → ℕ
  late : Fin n → List ℕ
  pc : Fin n → Pc

inductive Action (n : ℕ) where
  | accumulate (i : Fin n) (level : ℕ)
  | check (i : Fin n)
  | fence (i : Fin n)
  | read (i : Fin n)
  | reduce (i : Fin n)
  | merge (i : Fin n)

def Pc.arrived : Pc → Bool
  | .entered => false
  | _ => true

def Pc.hasRead : Pc → Bool
  | .entered | .checked | .fenced => false
  | _ => true

def Pc.between : Pc → Bool
  | .waiting | .reduced _ => true
  | _ => false

def Pc.hasMerged : Pc → Bool
  | .merged _ => true
  | _ => false

def State.all (s : State n) (p : Pc → Bool) : Bool := (List.finRange n).all fun i => p (s.pc i)

/-- `PMPI_Allreduce` with `MPI_MIN` over the values that the members have read. -/
def State.minRead (s : State n) : ℕ :=
  ((List.finRange n).map s.value).foldr min invalidRollbackPoint

def State.setPc (s : State n) (i : Fin n) (pc : Pc) : State n :=
  { s with pc := Function.update s.pc i pc }

/-- The fence and the reduction return only after all members have entered them. -/
def step (s : State n) : Action n → Option (State n)
  | .accumulate i level =>
      if level < invalidRollbackPoint then
        some { s with
          cell := Function.update s.cell i (min level (s.cell i))
          late := if (s.pc i).between then Function.update s.late i (level :: s.late i)
            else s.late }
      else none
  | .check i => if s.pc i = .entered then some (s.setPc i .checked) else none
  | .fence i =>
      if s.pc i = .checked ∧ s.all Pc.arrived then some (s.setPc i .fenced) else none
  | .read i =>
      if s.pc i = .fenced then
        some { s.setPc i .waiting with value := Function.update s.value i (s.cell i) }
      else none
  | .reduce i =>
      if s.pc i = .waiting ∧ s.all Pc.hasRead then some (s.setPc i (.reduced s.minRead)) else none
  | .merge i =>
      match s.pc i with
      | .reduced new =>
          let (cell, ret) := setRollbackPoint (s.cell i) new
          some { s.setPc i (.merged ret) with cell := Function.update s.cell i cell }
      | _ => none

/-- The branch of `Complete`: to which level it rolls back, if it does. -/
def verdict (level new : ℕ) : Option ℕ := if new ≤ level then some new else none

/-- All members that have got to the branch take the same one. -/
def Agree (s : State n) : Prop :=
  ∀ i j new new', s.pc i = .merged new → s.pc j = .merged new' →
    verdict s.level new = verdict s.level new'

/-- Unless no cell held a request at the reads: a level that was accumulated into the cell of a
member between its read and its merge, that is no deeper than the CD and lower than everything
read, is matched at every other member by a level as low that arrived between its read and its
merge. -/
def LateShared (s : State n) : Prop :=
  (∃ k, s.value k ≠ invalidRollbackPoint) →
    ∀ i j, (s.pc i).hasMerged → (s.pc j).hasMerged →
      ∀ l ∈ s.late i, l ≤ s.level → (∀ k, l < s.value k) → ∃ l' ∈ s.late j, l' ≤ l

instance (s : State n) : Decidable (LateShared s) :=
  inferInstanceAs (Decidable (_ → _))

section Minimum

variable {l : List ℕ} {a b : ℕ}

theorem lt_foldr_min : b < l.foldr min a ↔ b < a ∧ ∀ x ∈ l, b < x := by
  induction l with
  | nil => simp
  | cons x l ih =>
      rw [List.foldr_cons, Nat.lt_min, ih, List.forall_mem_cons]
      tauto

theorem foldr_min_le : l.foldr min a ≤ a := by
  induction l with
  | nil => exact Nat.le_refl _
  | cons x l ih => exact Nat.le_trans (Nat.min_le_right _ _) ih

theorem min_foldr_min (h : a ≤ b) : min a (l.foldr min b) = l.foldr min a := by
  induction l with
  | nil => exact Nat.min_eq_left h
  | cons x l ih => rw [List.foldr_cons, List.foldr_cons, Nat.min_left_comm, ih]

theorem foldr_min_mem (l : List ℕ) (a : ℕ) : l.foldr min a = a ∨ l.foldr min a ∈ l := by
  induction l with
  | nil => exact Or.inl rfl
  | cons x l ih =>
      rw [List.foldr_cons]
      rcases Nat.le_total x (l.foldr min a) with hle | hle
      · rw [Nat.min_eq_left hle]
        exact Or.inr List.mem_cons_self
      · rw [Nat.min_eq_right hle]
        exact ih.imp_right (List.mem_cons_of_mem x)

end Minimum

/-- What `SetRollbackPoint` returns for a reduced value and the levels that came late. -/
def returned (m : ℕ) (late : List ℕ) : ℕ :=
  if m = invalidRollbackPoint then invalidRollbackPoint else late.foldr min m

structure Inv (s : State n) : Prop where
  bound : ∀ i, s.cell i ≤ invalidRollbackPoint
  value : ∀ i, (s.pc i).hasRead = true → s.value i ≤ invalidRollbackPoint
  unread : ∀ i, (s.pc i).hasRead = false → s.late i = []
  cell : ∀ i, (s.pc i).between = true → s.cell i = (s.late i).foldr min (s.value i)
  reduced : ∀ i new, s.pc i = .reduced new → s.all Pc.hasRead ∧ new = s.minRead
  merged : ∀ i new, s.pc i = .merged new →
    s.all Pc.hasRead ∧ new = returned s.minRead (s.late i)

theorem all_iff (s : State n) (p : Pc → Bool) : s.all p = true ↔ ∀ i, p (s.pc i) = true := by
  simp [State.all]

theorem minRead_le (s : State n) (i : Fin n) : s.minRead ≤ s.value i := by
  apply Nat.le_of_not_lt
  intro hlt
  have hall := (lt_foldr_min.mp hlt).2
  exact Nat.lt_irrefl _ (hall _ (List.mem_map_of_mem (List.mem_finRange i)))

theorem lt_minRead {s : State n} {l : ℕ} (h : l < invalidRollbackPoint) :
    l < s.minRead ↔ ∀ k, l < s.value k := by
  rw [State.minRead, lt_foldr_min]
  simp [h]

section Step

variable {s s' : State n} {i : Fin n}

theorem inv_of_unread (h : Inv s) (hread : (s.pc i).hasRead = false) {pc : Pc}
    (hpc : s'.pc = Function.update s.pc i pc) (hcell : s'.cell = s.cell) (hlate : s'.late = s.late)
    (hval : ∀ j, j ≠ i → s'.value j = s.value j)
    (hval' : pc.hasRead = true → s.cell i = s'.value i) (hnr : ∀ new, pc ≠ .reduced new)
    (hnm : ∀ new, pc ≠ .merged new) : Inv s' := by
  have hall : ¬ s.all Pc.hasRead = true := by
    rw [all_iff]
    intro hall
    rw [hall i] at hread
    cases hread
  have hother : ∀ j, j ≠ i → s'.pc j = s.pc j := fun j hji => by
    rw [hpc, Function.update_of_ne hji]
  have hself : s'.pc i = pc := by rw [hpc, Function.update_self]
  refine ⟨by rw [hcell]; exact h.bound, ?_, ?_, ?_, ?_, ?_⟩
  · intro j hj
    by_cases hji : j = i
    · subst hji
      rw [hself] at hj
      rw [← hval' hj]
      exact h.bound j
    · rw [hval j hji]
      exact h.value j (hother j hji ▸ hj)
  · intro j hj
    rw [hlate]
    by_cases hji : j = i
    · rw [hji]
      exact h.unread i hread
    · exact h.unread j (hother j hji ▸ hj)
  · intro j hj
    rw [hcell, hlate]
    by_cases hji : j = i
    · subst hji
      rw [hself] at hj
      rw [h.unread j hread]
      exact hval' (by revert hj; cases pc <;> simp [Pc.between, Pc.hasRead])
    · rw [hval j hji]
      exact h.cell j (hother j hji ▸ hj)
  · intro j new hj
    by_cases hji : j = i
    · rw [hji, hself] at hj
      exact (hnr new hj).elim
    · exact (hall (h.reduced j new (hother j hji ▸ hj)).1).elim
  · intro j new hj
    by_cases hji : j = i
    · rw [hji, hself] at hj
      exact (hnm new hj).elim
    · exact (hall (h.merged j new (hother j hji ▸ hj)).1).elim

theorem inv_of_read (h : Inv s) (hall : s.all Pc.hasRead = true) {pc : Pc}
    (hpc : s'.pc = Function.update s.pc i pc) (hval : s'.value = s.value) (hlate : s'.late = s.late)
    (hcell : ∀ j, j ≠ i → s'.cell j = s.cell j) (hbound : s'.cell i ≤ invalidRollbackPoint)
    (hbetween : pc.between = true → (s.pc i).between = true ∧ s'.cell i = s.cell i)
    (hr : ∀ new, pc = .reduced new → new = s.minRead)
    (hm : ∀ new, pc = .merged new → new = returned s.minRead (s.late i))
    (hread : pc.hasRead = true) : Inv s' := by
  have hmin : s'.minRead = s.minRead := by rw [State.minRead, hval, State.minRead]
  have hother : ∀ j, j ≠ i → s'.pc j = s.pc j := fun j hji => by
    rw [hpc, Function.update_of_ne hji]
  have hself : s'.pc i = pc := by rw [hpc, Function.update_self]
  have hread' : ∀ j, (s'.pc j).hasRead = true := by
    intro j
    by_cases hji : j = i
    · rw [hji, hself, hread]
    · rw [hother j hji]
      exact (all_iff s _).mp hall j
  have hall' : s'.all Pc.hasRead = true := (all_iff s' _).mpr hread'
  refine ⟨?_, ?_, ?_, ?_, ?_, ?_⟩
  · intro j
    by_cases hji : j = i
    · rw [hji]
      exact hbound
    · rw [hcell j hji]
      exact h.bound j
  · intro j _
    rw [hval]
    exact h.value j ((all_iff s _).mp hall j)
  · intro j hj
    rw [hread' j] at hj
    cases hj
  · intro j hj
    rw [hlate, hval]
    by_cases hji : j = i
    · subst hji
      rw [hself] at hj
      obtain ⟨hold, hsame⟩ := hbetween hj
      rw [hsame]
      exact h.cell j hold
    · rw [hcell j hji]
      exact h.cell j (hother j hji ▸ hj)
  · intro j new hj
    rw [hmin]
    by_cases hji : j = i
    · rw [hji, hself] at hj
      exact ⟨hall', hr new hj⟩
    · exact ⟨hall', (h.reduced j new (hother j hji ▸ hj)).2⟩
  · intro j new hj
    rw [hmin, hlate]
    by_cases hji : j = i
    · rw [hji, hself] at hj
      rw [hji]
      exact ⟨hall', hm new hj⟩
    · exact ⟨hall', (h.merged j new (hother j hji ▸ hj)).2⟩

theorem accumulate_inv {level : ℕ} (h : Inv s) (hstep : step s (.accumulate i level) = some s') :
    Inv s' := by
  simp only [step] at hstep
  split_ifs at hstep with hl hbetween
  · -- only the member's own log and cell change
    cases hstep
    refine ⟨?_, h.value, ?_, ?_, h.reduced, ?_⟩
    · intro j
      by_cases hji : j = i
      · subst hji
        dsimp only
        rw [Function.update_self]
        exact Nat.le_trans (Nat.min_le_right _ _) (h.bound j)
      · dsimp only
        rw [Function.update_of_ne hji]
        exact h.bound j
    · intro j hj
      have hji : j ≠ i := by
        rintro rfl
        revert hj hbetween
        dsimp only
        cases s.pc j <;> simp [Pc.hasRead, Pc.between]
      dsimp only
      rw [Function.update_of_ne hji]
      exact h.unread j hj
    · intro j hj
      by_cases hji : j = i
      · subst hji
        dsimp only
        rw [Function.update_self, Function.update_self, List.foldr_cons, h.cell j hj]
      · dsimp only
        rw [Function.update_of_ne hji, Function.update_of_ne hji]
        exact h.cell j hj
    · intro j new hj
      have hji : j ≠ i := by
        rintro rfl
        dsimp only at hj
        rw [hj] at hbetween
        cases hbetween
      dsimp only
      rw [Function.update_of_ne hji]
      exact h.merged j new hj
  · cases hstep
    refine ⟨?_, h.value, h.unread, ?_, h.reduced, h.merged⟩
    · intro j
      by_cases hji : j = i
      · subst hji
        dsimp only
        rw [Function.update_self]
        exact Nat.le_trans (Nat.min_le_right _ _) (h.bound j)
      · dsimp only
        rw [Function.update_of_ne hji]
        exact h.bound j
    · intro j hj
      have hji : j ≠ i := by
        rintro rfl
        exact hbetween hj
      dsimp only
      rw [Function.update_of_ne hji]
      exact h.cell j hj

theorem merge_inv (h : Inv s) (hstep : step s (.merge i) = some s') : Inv s' := by
  simp only [step] at hstep
  split at hstep
  · rename_i new hpc
    obtain ⟨hall, rfl⟩ := h.reduced i new hpc
    have hcell := h.cell i (by rw [hpc]; rfl)
    have hret : (setRollbackPoint (s.cell i) s.minRead).2 = returned s.minRead (s.late i) ∧
        (setRollbackPoint (s.cell i) s.minRead).1 ≤ invalidRollbackPoint := by
      have hle : s.minRead ≤ invalidRollbackPoint := foldr_min_le
      rcases Nat.eq_or_lt_of_le hle with hinv | hlt
      · rw [hinv, returned, if_pos rfl, setRollbackPoint, if_neg fun hne => hne rfl]
        exact ⟨rfl, Nat.le_refl _⟩
      · rw [RollbackCell.setRollbackPoint_valid hlt, returned, if_neg (Nat.ne_of_lt hlt), hcell,
          min_foldr_min (minRead_le s i)]
        exact ⟨rfl, Nat.le_trans foldr_min_le hle⟩
    cases hstep
    refine inv_of_read h hall rfl rfl rfl ?_ ?_ (fun hb => by cases hb) (fun new hnew => by
      cases hnew) ?_ rfl
    · intro j hji
      dsimp only
      rw [Function.update_of_ne hji]
    · dsimp only
      rw [Function.update_self]
      exact hret.2
    · intro new hnew
      cases hnew
      exact hret.1
  · cases hstep

end Step

theorem step_inv (s : State n) (a : Action n) (s' : State n) (h : Inv s)
    (hstep : step s a = some s') : Inv s' := by
  cases a with
  | accumulate i level => exact accumulate_inv h hstep
  | check i =>
      simp only [step] at hstep
      split_ifs at hstep with hpc
      cases hstep
      exact inv_of_unread h (by rw [hpc]; rfl) rfl rfl rfl (fun _ _ => rfl)
        (fun hb => by cases hb) (fun new hnew => by cases hnew) (fun new hnew => by cases hnew)
  | fence i =>
      simp only [step] at hstep
      split_ifs at hstep with hpc
      cases hstep
      exact inv_of_unread h (by rw [hpc.1]; rfl) rfl rfl rfl (fun _ _ => rfl)
        (fun hb => by cases hb) (fun new hnew => by cases hnew) (fun new hnew => by cases hnew)
  | read i =>
      simp only [step] at hstep
      split_ifs at hstep with hpc
      cases hstep
      refine inv_of_unread h (by rw [hpc]; rfl) rfl rfl rfl (fun j hji => ?_) (fun _ => ?_)
        (fun new hnew => by cases hnew) (fun new hnew => by cases hnew)
      · dsimp only
        rw [Function.update_of_ne hji]
      · dsimp only
        rw [Function.update_self]
  | reduce i =>
      simp only [step] at hstep
      split_ifs at hstep with hpc
      cases hstep
      refine inv_of_read h hpc.2 rfl rfl rfl (fun _ _ => rfl) (h.bound i) (fun _ => ?_) ?_
        (fun new hnew => by cases hnew) rfl
      · rw [hpc.1]
        exact ⟨rfl, rfl⟩
      · intro new hnew
        cases hnew
        rfl
  | merge i => exact merge_inv h hstep

theorem verdict_eq_iff {level a b : ℕ} :
    verdict level a = verdict level b ↔ a = b ∨ level < a ∧ level < b := by
  unfold verdict
  split_ifs with ha hb hb
  · rw [Option.some.injEq]
    omega
  · exact iff_of_false (fun h => by cases h) (by omega)
  · exact iff_of_false (fun h => by cases h) (by omega)
  · exact iff_of_true rfl (by omega)

theorem verdict_late {level m : ℕ} {ls ls' : List ℕ} :
    verdict level (ls.foldr min m) = verdict level (ls'.foldr min m) ↔
      (∀ l ∈ ls, l ≤ level → l < m → ∃ l' ∈ ls', l' ≤ l) ∧
        ∀ l ∈ ls', l ≤ level → l < m → ∃ l' ∈ ls, l' ≤ l := by
  have hmatched : ∀ {xs ys : List ℕ}, verdict level (xs.foldr min m) = verdict level (ys.foldr min m) →
      ∀ l ∈ xs, l ≤ level → l < m → ∃ l' ∈ ys, l' ≤ l := by
    intro xs ys hsame l hl hle hlt
    have hmin : xs.foldr min m ≤ l :=
      Nat.le_of_not_lt fun hbad => Nat.lt_irrefl _ ((lt_foldr_min.mp hbad).2 l hl)
    rcases verdict_eq_iff.mp hsame with heq | ⟨hdeep, -⟩
    · rcases foldr_min_mem ys m with hm | hmem
      · omega
      · exact ⟨_, hmem, heq ▸ hmin⟩
    · omega
  constructor
  · exact fun hsame => ⟨hmatched hsame, hmatched hsame.symm⟩
  · rintro ⟨hxy, hyx⟩
    -- neither minimum lies below the other one without being matched
    have hle : ∀ {xs ys : List ℕ}, (∀ l ∈ xs, l ≤ level → l < m → ∃ l' ∈ ys, l' ≤ l) →
        xs.foldr min m ≤ level → ys.foldr min m ≤ xs.foldr min m := by
      intro xs ys hmatch hdeep
      rcases foldr_min_mem xs m with hm | hmem
      · rw [hm]
        exact foldr_min_le
      · rcases Nat.eq_or_lt_of_le (foldr_min_le (l := xs) (a := m)) with hm | hlt
        · rw [hm]
          exact foldr_min_le
        · obtain ⟨l', hl', hll⟩ := hmatch _ hmem hdeep hlt
          refine Nat.le_trans (Nat.le_of_not_lt fun hbad => ?_) hll
          exact Nat.lt_irrefl _ ((lt_foldr_min.mp hbad).2 l' hl')
    rw [verdict_eq_iff]
    rcases Nat.lt_or_ge level (ls.foldr min m) with hlt | hge
    · rcases Nat.lt_or_ge level (ls'.foldr min m) with hlt' | hge'
      · exact Or.inr ⟨hlt, hlt'⟩
      · have := hle hyx hge'
        omega
    · have h₁ := hle hxy hge
      have h₂ := hle hyx (Nat.le_trans h₁ hge)
      exact Or.inl (Nat.le_antisymm h₂ h₁)

theorem exists_of_hasMerged {pc : Pc} (h : pc.hasMerged = true) : ∃ new, pc = .merged new := by
  cases pc with
  | merged new => exact ⟨new, rfl⟩
  | _ => cases h

theorem Inv.minRead_lt_iff {s : State n} (h : Inv s) (hall : s.all Pc.hasRead = true) :
    s.minRead < invalidRollbackPoint ↔ ∃ k, s.value k ≠ invalidRollbackPoint := by
  constructor
  · intro hlt
    rcases foldr_min_mem ((List.finRange n).map s.value) invalidRollbackPoint with hm | hmem
    · exact absurd hm (Nat.ne_of_lt hlt)
    · obtain ⟨k, -, hk⟩ := List.mem_map.mp hmem
      refine ⟨k, fun hk' => Nat.ne_of_lt hlt ?_⟩
      rw [State.minRead, ← hk, hk']
  · rintro ⟨k, hk⟩
    have hle := h.value k ((all_iff s _).mp hall k)
    have hmin := minRead_le s k
    omega

theorem agree_iff {s : State n} (h : Inv s) : Agree s ↔ LateShared s := by
  constructor
  · intro hagree hsome i j hi hj l hl hlevel hlow
    obtain ⟨new, hnew⟩ := exists_of_hasMerged hi
    obtain ⟨new', hnew'⟩ := exists_of_hasMerged hj
    obtain ⟨hall, heq⟩ := h.merged i new hnew
    obtain ⟨-, heq'⟩ := h.merged j new' hnew'
    have hlt := (h.minRead_lt_iff hall).mpr hsome
    have hvalid : l < invalidRollbackPoint :=
      Nat.lt_of_lt_of_le (hlow i) (h.value i ((all_iff s _).mp hall i))
    have hsame := hagree i j new new' hnew hnew'
    rw [heq, heq', returned, if_neg (Nat.ne_of_lt hlt), returned, if_neg (Nat.ne_of_lt hlt)] at hsame
    exact (verdict_late.mp hsame).1 l hl hlevel ((lt_minRead hvalid).mpr hlow)
  · intro hshared i j new new' hi hj
    obtain ⟨hall, rfl⟩ := h.merged i new hi
    obtain ⟨-, rfl⟩ := h.merged j new' hj
    have hle : s.minRead ≤ invalidRollbackPoint := foldr_min_le
    rcases Nat.eq_or_lt_of_le hle with hinv | hlt
    · -- nothing was requested before the reads: everybody commits, whatever came late
      rw [returned, returned, if_pos hinv, if_pos hinv]
    · have hsome := (h.minRead_lt_iff hall).mp hlt
      have hmatch : ∀ i j, (s.pc i).hasMerged → (s.pc j).hasMerged → ∀ l ∈ s.late i, l ≤ s.level →
          l < s.minRead → ∃ l' ∈ s.late j, l' ≤ l := by
        intro i j hi hj l hl hlevel hlow
        exact hshared hsome i j hi hj l hl hlevel
          ((lt_minRead (Nat.lt_trans hlow hlt)).mp hlow)
      have hi' : (s.pc i).hasMerged = true := by rw [hi]; rfl
      have hj' : (s.pc j).hasMerged = true := by rw [hj]; rfl
      rw [returned, if_neg (Nat.ne_of_lt hlt), returned, if_neg (Nat.ne_of_lt hlt)]
      exact verdict_late.mpr ⟨hmatch i j hi' hj', hmatch j i hj' hi'⟩

structure Initial (s : State n) : Prop where
  entered : ∀ i, s.pc i = .entered
  bound : ∀ i, s.cell i ≤ invalidRollbackPoint
  late : ∀ i, s.late i = []

theorem initial_inv {s : State n} (h : Initial s) : Inv s := by
  refine ⟨h.bound, ?_, fun i _ => h.late i, ?_, ?_, ?_⟩
  all_goals
    intro i
    rw [h.entered i]
  · intro hread
    cases hread
  · intro hbetween
    cases hbetween
  · intro new hnew
    cases hnew
  · intro new hnew
    cases hnew

/-- In every interleaving the members take the same branch if and only if what comes late at one
of them and would change its branch comes late at all of them. -/
theorem agree_iff_lateShared {s : State n} (h : Initial s) (actions : List (Action n)) :
    Runs.Always step Agree s actions ↔ Runs.Always step LateShared s actions := by
  have hinv : Runs.Always step Inv s actions :=
    Runs.always_of_step step_inv actions s (initial_inv h)
  exact Runs.always_congr (fun s hI => agree_iff hI) actions s hinv

/-- Two members of a CD at level 1; the first has been asked to roll back to level 1. -/
def twoMembers : State 2 where
  level := 1
  cell := ![1, invalidRollbackPoint]
  value := ![invalidRollbackPoint, invalidRollbackPoint]
  late := ![[], []]
  pc := ![.entered, .entered]

theorem twoMembers_initial : Initial twoMembers := by
  constructor
  · intro i
    match i with
    | 0 => rfl
    | 1 => rfl
  · intro i
    match i with
    | 0 => decide
    | 1 => decide
  · intro i
    match i with
    | 0 => rfl
    | 1 => rfl

def bothReduced : List (Action 2) :=
  [.check 0, .check 1, .fence 0, .fence 1, .read 0, .read 1, .reduce 0, .reduce 1]

theorem agree_of_shared_level :
    (Runs.run step twoMembers
      (bothReduced ++ [.accumulate 1 0, .accumulate 0 0, .merge 0, .merge 1])).isSome ∧
      Runs.Always step Agree twoMembers
        (bothReduced ++ [.accumulate 1 0, .accumulate 0 0, .merge 0, .merge 1]) :=
  ⟨rfl, (agree_iff_lateShared twoMembers_initial _).mpr (by decide)⟩

theorem late_level_splits :
    ¬ Runs.Always step Agree twoMembers
      (bothReduced ++ [.accumulate 1 0, .merge 0, .merge 1]) := by
  intro h
  have hagree := Runs.Always.last _ _ _ h rfl
  exact absurd (hagree 0 1 1 0 rfl rfl) (by decide)

end CDRuntime.RollbackAgreement
