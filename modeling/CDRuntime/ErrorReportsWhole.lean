import CDRuntime.ErrorReportsRuns

namespace CDRuntime.ErrorReports

/-- A CD with one task: how its executions have ended, and whether an assertion has failed in the
current one. -/
structure Whole where
  verdicts : List Bool := []
  failed : Bool := false

inductive Whole.Action
  | fail
  | decide
  deriving DecidableEq

def Whole.step (w : Whole) : Whole.Action → Option Whole
  | .fail => some { w with failed := true }
  | .decide => some { verdicts := w.verdicts ++ [w.failed] }

variable {cd : CD} {s s' : State cd} {i : Fin cd.taskSize} {t' : Task cd.taskSize}
  {e : Effect cd.taskSize}

instance (s : State cd) (k : ℕ) : Decidable (Failed s k) :=
  inferInstanceAs (Decidable (∃ j, k ∈ (s j).failures))

/-- The current execution of the task that is furthest. -/
def State.execution (s : State cd) : ℕ :=
  ((List.finRange cd.taskSize).map fun j => (s j).attempt).foldr max 0

def State.whole (s : State cd) : Whole where
  verdicts := (List.range s.execution).map fun k => decide (Failed s k)
  failed := decide (Failed s s.execution)

theorem attempt_le_execution (s : State cd) (i : Fin cd.taskSize) :
    (s i).attempt ≤ s.execution :=
  Collectives.le_foldr_max_of_mem (List.mem_map_of_mem (List.mem_finRange i))

theorem execution_le {m : ℕ} (h : ∀ i, (s i).attempt ≤ m) : s.execution ≤ m := by
  refine Collectives.foldr_max_le fun b hb => ?_
  obtain ⟨i, -, rfl⟩ := List.mem_map.mp hb
  exact h i

theorem execution_congr (h : ∀ j, (s' j).attempt = (s j).attempt) :
    s'.execution = s.execution := by
  simp only [State.execution, h]

/-- What a step of a task is for the whole: an assertion fails, or the first task leaves the
reduction that ends an execution. -/
def State.event (s : State cd) : Action cd.taskSize → Option Whole.Action
  | .next i =>
      if (s i).poll = .idle ∧ (s i).pc = .reduce .completeCD ∧ (s i).attempt = s.execution then
        some .decide
      else none
  | .assert _ test => if test then none else some .fail
  | .complete _ => none

inductive History (s : State cd) : Action cd.taskSize → Task cd.taskSize → Prop
  | quiet {a : Action cd.taskSize} {t' : Task cd.taskSize} (unseen : s.event a = none)
      (failures : t'.failures = (s a.task).failures) (attempt : t'.attempt = (s a.task).attempt) :
      History s a t'
  | failed {i : Fin cd.taskSize} {t' : Task cd.taskSize} (pc : (s i).pc = .body)
      (failures : t'.failures = insert (s i).attempt (s i).failures)
      (attempt : t'.attempt = (s i).attempt) : History s (.assert i false) t'
  | decided {i : Fin cd.taskSize} {t' : Task cd.taskSize} (poll : (s i).poll = .idle)
      (pc : (s i).pc = .reduce .completeCD) (failures : t'.failures = (s i).failures)
      (attempt : t'.attempt = (s i).attempt + 1) : History s (.next i) t'

theorem event_of_pc (hpc : (s i).pc ≠ .reduce .completeCD) : s.event (.next i) = none :=
  if_neg fun h => hpc h.2.1

theorem Inv.history_moved (h : Inv s) (hidle : (s i).poll = .idle) (hm : Move s i t' e) :
    History s (.next i) t' := by
  have hleft := (h.outer i).attempt_left
  have hquiet : ∀ pc, (s i).pc = pc → pc ≠ .reduce .completeCD → t'.failures = (s i).failures →
      t'.attempt = (s i).attempt → History s (.next i) t' := fun _ hpc hne =>
    .quiet (event_of_pc (hpc ▸ hne))
  cases hm with
  | fence site hpc =>
      rw [hpc] at hleft
      refine hquiet _ hpc (fun hs => by cases hs) rfl ?_
      cases site <;> exact hleft
  | reduce site hpc =>
      rw [hpc] at hleft
      cases site with
      | beginCD => exact hquiet _ hpc (fun hs => by cases hs) rfl hleft
      | completeCD => exact .decided hidle hpc rfl hleft
  | read site hpc => exact hquiet _ hpc (fun hs => by cases hs) rfl rfl
  | enter new hpc => exact hquiet _ hpc (fun hs => by cases hs) rfl rfl
  | decide new b hpc hb => exact hquiet _ hpc (fun hs => by cases hs) rfl rfl
  | flag hpc => exact hquiet _ hpc (fun hs => by cases hs) rfl rfl

theorem Inv.history (h : Inv s) (hfit : CountersFit s) {a : Action cd.taskSize}
    (hact : act s a = some (t', e)) :
    History s a t' := by
  cases a with
  | next i =>
      simp only [act] at hact
      split_ifs at hact with hidle
      · exact h.history_moved hidle (h.move hfit hact)
      · have hq := (h.checked hact).quiet (h.inner i)
        refine .quiet (if_neg fun hs => hidle hs.1) hq.failures ?_
        rw [Task.attempt, hq.collectives]
        rfl
  | assert i test =>
      simp only [act, ErrorReports.assert] at hact
      split_ifs at hact with hbody htest hhead
      · cases hact
        exact .quiet (if_pos htest) rfl rfl
      all_goals
        obtain rfl := Bool.eq_false_of_not_eq_true htest
        cases hact
        exact .failed hbody.1 rfl rfl
  | complete i =>
      simp only [act, ErrorReports.complete] at hact
      split_ifs at hact with hbody
      cases hact
      exact .quiet rfl rfl rfl

theorem apply_history (u : State cd) (i : Fin cd.taskSize) (e : Effect cd.taskSize)
    (j : Fin cd.taskSize) :
    (u.apply i e j).failures = (u j).failures ∧ (u.apply i e j).attempt = (u j).attempt := by
  cases e with
  | nothing => exact ⟨rfl, rfl⟩
  | increment k =>
      by_cases hj : j = k
      · subst hj
        rw [State.apply, Function.update_self]
        exact ⟨rfl, rfl⟩
      · rw [State.apply, Function.update_of_ne hj]
        exact ⟨rfl, rfl⟩
  | accumulate k =>
      by_cases hj : j = k
      · subst hj
        rw [State.apply, Function.update_self]
        exact ⟨rfl, rfl⟩
      · rw [State.apply, Function.update_of_ne hj]
        exact ⟨rfl, rfl⟩

theorem Inv.execution_of_body (h : Inv s) (hpc : (s i).pc = .body) :
    s.execution = (s i).attempt := by
  refine Nat.le_antisymm (execution_le fun j => ?_) (attempt_le_execution s i)
  exact Nat.div_le_div_right (h.outside (by rw [hpc]; rfl) j).1

theorem Inv.not_failed (h : Inv s) {k : ℕ} (hk : s.execution < k) : ¬ Failed s k := by
  rintro ⟨j, hj⟩
  have hpast := (h.outer j).past k hj
  have hle := attempt_le_execution s j
  unfold Task.attempt at hle
  omega

theorem map_failed_congr {m : ℕ} (h : ∀ k < m, (Failed s' k ↔ Failed s k)) :
    (List.range m).map (fun k => decide (Failed s' k)) =
      (List.range m).map fun k => decide (Failed s k) :=
  List.map_congr_left fun k hk => decide_eq_decide.mpr (h k (List.mem_range.mp hk))

theorem whole_congr (hexecution : s'.execution = s.execution)
    (hfailures : ∀ j, (s' j).failures = (s j).failures) : s'.whole = s.whole := by
  have hfailed : ∀ k, Failed s' k ↔ Failed s k := fun k => by rw [failed_congr hfailures]
  unfold State.whole
  rw [hexecution, map_failed_congr fun k _ => hfailed k, decide_eq_decide.mpr (hfailed _)]

theorem execution_of_next (hself : (s' i).attempt = (s i).attempt + 1)
    (hother : ∀ j, j ≠ i → (s' j).attempt = (s j).attempt) :
    s'.execution = max s.execution ((s i).attempt + 1) := by
  apply Nat.le_antisymm
  · refine execution_le fun j => ?_
    by_cases hj : j = i
    · rw [hj, hself]
      exact Nat.le_max_right _ _
    · rw [hother j hj]
      exact Nat.le_trans (attempt_le_execution s j) (Nat.le_max_left _ _)
  · have hi := attempt_le_execution s' i
    rw [hself] at hi
    refine Nat.max_le.mpr ⟨execution_le fun j => ?_, hi⟩
    by_cases hj : j = i
    · rw [hj]
      exact Nat.le_of_succ_le hi
    · rw [← hother j hj]
      exact attempt_le_execution s' j

theorem Inv.whole_step (h : Inv s) (hfit : CountersFit s) {a : Action cd.taskSize}
    (hstep : step s a = some s') :
    Runs.run Whole.step s.whole (s.event a).toList = some s'.whole := by
  obtain ⟨⟨t', e⟩, hact, hs'⟩ := Option.map_eq_some_iff.mp hstep
  have hself : (s' a.task).failures = t'.failures ∧ (s' a.task).attempt = t'.attempt := by
    have happly := apply_history (Function.update s a.task t') a.task e a.task
    rw [Function.update_self] at happly
    exact hs' ▸ happly
  have hother : ∀ j, j ≠ a.task →
      (s' j).failures = (s j).failures ∧ (s' j).attempt = (s j).attempt := by
    intro j hj
    have happly := apply_history (Function.update s a.task t') a.task e j
    rw [Function.update_of_ne hj] at happly
    exact hs' ▸ happly
  have hfailures : t'.failures = (s a.task).failures → ∀ j, (s' j).failures = (s j).failures := by
    intro heq j
    by_cases hj : j = a.task
    · rw [hj, hself.1, heq]
    · exact (hother j hj).1
  have hexecution : t'.attempt = (s a.task).attempt → s'.execution = s.execution := by
    intro heq
    refine execution_congr fun j => ?_
    by_cases hj : j = a.task
    · rw [hj, hself.2, heq]
    · exact (hother j hj).2
  cases h.history hfit hact with
  | quiet hnone hsame hattempt =>
      rw [hnone]
      exact congrArg some (whole_congr (hexecution hattempt) (hfailures hsame)).symm
  | @failed i _ hpc hinsert hattempt =>
      change Whole.step s.whole .fail = _
      have hfailed : ∀ k, Failed s' k ↔ k = (s i).attempt ∨ Failed s k :=
        failed_insert (hself.1.trans hinsert) fun j hj => (hother j hj).1
      have hbody := h.execution_of_body hpc
      have hnow : Failed s' s.execution := (hfailed _).mpr (Or.inl hbody)
      -- the executions before this one keep their ends
      have hbefore : ∀ k < s.execution, (Failed s' k ↔ Failed s k) := fun k hk => by
        rw [hfailed, or_iff_right (by omega)]
      unfold State.whole Whole.step
      rw [hexecution hattempt, map_failed_congr hbefore, decide_eq_true hnow]
  | @decided i _ hidle hpc hsame hattempt =>
      have hmax := execution_of_next (hself.2.trans hattempt) fun j hj => (hother j hj).2
      have hle := attempt_le_execution s i
      change s'.execution = max s.execution ((s i).attempt + 1) at hmax
      by_cases hlast : (s i).attempt = s.execution
      · -- the first task that leaves an execution ends it
        rw [show s.event (.next i) = some .decide from if_pos ⟨hidle, hpc, hlast⟩]
        change Whole.step s.whole .decide = _
        have hsucc : s'.execution = s.execution + 1 := by omega
        have hfailed : ∀ k, Failed s' k ↔ Failed s k := fun k => by
          rw [failed_congr (hfailures hsame)]
        have hnone : ¬ Failed s' (s.execution + 1) := fun hf =>
          h.not_failed (Nat.lt_succ_self _) ((hfailed _).mp hf)
        unfold State.whole Whole.step
        rw [hsucc, map_failed_congr fun k _ => hfailed k, decide_eq_false hnone, List.range_succ,
          List.map_append]
        rfl
      · rw [show s.event (.next i) = none from if_neg fun hs => hlast hs.2.2]
        exact congrArg some (whole_congr (by omega) (hfailures hsame)).symm

theorem Inv.verdicts_begin (h : Inv s) (i : Fin cd.taskSize) :
    (s i).verdicts <+: s.whole.verdicts := by
  rw [List.prefix_iff_getElem?]
  intro k hk
  have hlt : k < s.execution := by
    have hdecided := (h.outer i).decided
    have hle := attempt_le_execution s i
    omega
  have hverdict := h.verdict i k _ (List.getElem?_eq_getElem hk)
  change ((List.range s.execution).map fun k => decide (Failed s k))[k]? = _
  rw [List.getElem?_map, List.getElem?_range hlt, Option.map_some]
  exact congrArg some (Bool.eq_iff_iff.mpr (decide_eq_true_iff.trans hverdict.symm))

theorem start_whole (cd : CD) : (start cd).whole = {} := by
  have hexecution : (start cd).execution = 0 :=
    Nat.le_zero.mp (execution_le fun _ => Nat.le_of_eq (Nat.zero_div 4))
  have hnone : ¬ Failed (start cd) 0 := fun ⟨j, hj⟩ => Finset.notMem_empty 0 hj
  unfold State.whole
  rw [hexecution, decide_eq_false hnone]
  rfl

/-- The whole takes the step that it sees in a step of a task. -/
def Seen (s : State cd) (a : Action cd.taskSize) : Prop :=
  ∀ s', step s a = some s' → Runs.run Whole.step s.whole (s.event a).toList = some s'.whole

/-- In every interleaving the tasks together do, step by step, what one task does alone. -/
theorem refines_whole (cd : CD) (actions : List (Action cd.taskSize))
    (hfit : Runs.Guarded step (fun s _ => CountersFit s) (start cd) actions) :
    Runs.Guarded step Seen (start cd) actions ∧
      (∀ s, Runs.run step (start cd) actions = some s →
        Runs.run Whole.step {} (Runs.shown step State.event (start cd) actions) = some s.whole) ∧
      Runs.Always step (fun s => ∀ i, (s i).verdicts <+: s.whole.verdicts) (start cd) actions := by
  have hseen : Runs.Guarded step Seen (start cd) actions := by
    refine Runs.guarded_of_guarded (I := Inv) (G := fun s _ => CountersFit s) ?_ actions _
      (start_inv cd) hfit
    exact fun s a s' h hfit hstep =>
      ⟨step_inv s a s' h hfit hstep, fun _ => h.whole_step hfit⟩
  refine ⟨hseen, fun s hrun => ?_, ?_⟩
  · rw [← start_whole cd]
    exact Runs.run_shown actions _ _ hseen hrun
  · exact Runs.Always.mono (fun _ h => h.verdicts_begin) actions _ (reached_inv actions hfit)

theorem refines_whole_late_report :
    Runs.shown step State.event (start two) (lateReport ++ turns answer) = [.fail, .decide] ∧
      (Runs.run step (start two) (lateReport ++ turns answer)).any
        (fun s => s.whole.verdicts = [true] ∧ s.whole.failed = false) = true ∧
      Runs.Guarded step Seen (start two) (lateReport ++ turns answer) :=
  ⟨by decide +kernel, by decide +kernel, (refines_whole two _ (by decide +kernel)).1⟩

end CDRuntime.ErrorReports
