import CDRuntime.ErrorReportsSteps
import CDRuntime.Runs

namespace CDRuntime.ErrorReports

variable {cd : CD} {s s' : State cd} {i : Fin cd.taskSize}

/-- No counter is about to overflow. -/
def CountersFit (s : State cd) : Prop := ∀ j, (s j).pendingFlag + 1 < 2 ^ 32

instance (s : State cd) : Decidable (CountersFit s) :=
  inferInstanceAs (Decidable (∀ j, (s j).pendingFlag + 1 < 2 ^ 32))

/-- Whoever has decided about an execution has rolled it back exactly when an assertion has failed
in it. -/
def Answered (s : State cd) : Prop :=
  ∀ i k b, (s i).verdicts[k]? = some b → (b = true ↔ ∃ j, k ∈ (s j).failures)

theorem start_inv (cd : CD) : Inv (start cd) := by
  have hnone : ∀ k, ¬ Failed (start cd) k := by
    rintro k ⟨j, hj⟩
    exact Finset.notMem_empty k hj
  constructor
  · intro i
    constructor
    · rfl
    · simp [start, Task.round, Pc.gave]
    · exact fun r v hv => by cases hv
    · exact fun k hk => (Finset.notMem_empty k hk).elim
    · exact fun hs => by cases hs
    · simp [start, Task.attempt, Pc.undecided]
  · intro i
    constructor
    · exact fun _ => rfl
    · exact fun hp => by cases hp
    · exact fun _ => ⟨rfl, rfl⟩
    · rfl
    · exact fun hocc => by cases hocc
    · exact fun _ hs => by cases hs
    · exact fun _ _ _ hs => by cases hs
    · exact fun _ hs => by cases hs
    · exact fun _ => List.not_mem_nil
    · exact fun hs => by cases hs
    · exact fun hq => (hq rfl).elim
    · exact fun _ x hx => (Finset.notMem_empty x hx).elim
    · exact Or.inl rfl
    · exact fun _ hs => by cases hs
  · exact Collectives.Meeting.start fun _ => rfl
  · intro j
    have hflight : inFlight (start cd) j = 0 := by
      apply Finset.card_eq_zero.mpr
      apply Finset.filter_eq_empty_iff.mpr
      intro i _ htarget
      cases htarget
    rw [hflight]
    exact Nat.le_refl _
  · exact fun x hx => (Finset.notMem_empty x hx).elim
  · exact fun x hx => (Finset.notMem_empty _ hx).elim
  · exact fun r v hv => by cases hv
  · exact fun i site new hm => by cases hm
  · exact fun i k b hk => by cases hk

theorem Inv.asserted_head (h : Inv s) (hpc : (s cd.head).pc = .body)
    (hidle : (s cd.head).poll = .idle) :
    Asserted s cd.head { s cd.head with
      rollbackPoint := (setRollbackPoint (s cd.head).rollbackPoint cd.level).1
      poll := .entered
      failures := insert (s cd.head).attempt (s cd.head).failures } .nothing := by
  have hinner := h.inner cd.head
  obtain ⟨hempty, hhandled⟩ := hinner.busy (by rw [hidle]; rfl)
  constructor
  · exact hpc
  · exact hidle
  · rfl
  · rfl
  · rfl
  · rfl
  · exact Or.inl hpc
  · intro failed _ hfailed
    constructor
    · intro _
      change (s cd.head).pc.polls = true
      rw [hpc]
      rfl
    · exact fun hp => by cases hp
    · exact fun _ => ⟨hempty, hhandled⟩
    · rfl
    · exact hinner.error
    · exact fun _ hs => by cases hs
    · exact fun _ _ _ hs => by cases hs
    · exact fun _ hs => by cases hs
    · exact hinner.member
    · exact hinner.sent
    · exact fun hq => (hq hempty).elim
    · exact fun hne => (hne rfl).elim
    · exact Or.inr ⟨hinner.reexecuted, Or.inl hfailed⟩
    · intro _ hs
      change (s cd.head).pc.slot = 3 at hs
      rw [hpc] at hs
      cases hs
  · rfl
  · rfl
  · rfl
  · exact fun _ hc => by cases hc
  · exact fun _ ho => by cases ho
  · refine target_of_ne_flagging (fun _ _ _ hs => by cases hs) ?_
    change (s cd.head).pc ≠ .sent
    rw [hpc]
    exact fun hs => by cases hs
  · exact fun _ => Or.inr hinner.reexecuted
  · exact fun hne => (hne rfl).elim

theorem Inv.asserted_member (h : Inv s) (hi : i ≠ cd.head) (hpc : (s i).pc = .body)
    (hidle : (s i).poll = .idle) :
    Asserted s i { s i with pc := .sent, failures := insert (s i).attempt (s i).failures }
      (.increment cd.head) := by
  have hinner := h.inner i
  obtain ⟨hempty, hhandled⟩ := hinner.busy (by rw [hidle]; rfl)
  constructor
  · exact hpc
  · exact hidle
  · rfl
  · rfl
  · rfl
  · rfl
  · exact Or.inr rfl
  · intro failed hmono hfailed
    constructor
    · exact fun hne => (hne hidle).elim
    · exact fun _ hp => by cases hp
    · exact fun _ => ⟨hempty, hhandled⟩
    · exact hinner.subtracts
    · exact hinner.error
    · exact hinner.sending
    · exact hinner.remote
    · exact hinner.copied
    · exact hinner.member
    · exact fun _ => hi
    · exact fun hq => (hq hempty).elim
    · exact fun _ x _ => Or.inl hfailed
    · exact hinner.cell.imp_right fun hl => ⟨hl.1, Or.inl hfailed⟩
    · exact fun heq => (hi heq).elim
  · rfl
  · rfl
  · rfl
  · exact fun _ hc => by cases hc
  · intro j ho
    cases ho
    exact hi.symm
  · change Task.target cd { s i with pc := .sent } = some cd.head
    rw [Task.target]
    dsimp only
    rw [hidle]
    exact if_pos rfl
  · exact fun heq => (hi heq).elim
  · exact fun _ => rfl

theorem stepped_nothing (s : State cd) (i : Fin cd.taskSize) (t' : Task cd.taskSize) :
    Stepped s (State.apply (Function.update s i t') i .nothing) i t' .nothing :=
  apply_stepped s i t' .nothing fun j hj => by rcases hj with hj | hj <;> cases hj

theorem Outer.attempt_left {n : ℕ} {failed : ℕ → Prop} {t : Task n} (h : Outer cd failed t) :
    (t.collectives + 1) / 4 = t.attempt + if t.pc.slot = 3 then 1 else 0 := by
  have hslot := h.slot
  unfold Task.attempt
  split_ifs <;> omega

inductive Move (s : State cd) (i : Fin cd.taskSize) :
    Task cd.taskSize → Effect cd.taskSize → Prop
  | fence (site : Site) (hpc : (s i).pc = .fence site) (hall : s.entered (s i).collectives) :
      Move s i { s i with
        pc := .check3 site, poll := .entered, collectives := (s i).collectives + 1 } .nothing
  | read (site : Site) (hpc : (s i).pc = .read site) :
      Move s i { s i with pc := .reduce site, given := (s i).given ++ [(s i).rollbackPoint] }
        .nothing
  | reduce (site : Site) (hpc : (s i).pc = .reduce site)
      (hall : s.entered (s i).collectives) :
      Move s i { s i with
        pc := .merge site (s.minGiven (s i).round), collectives := (s i).collectives + 1 } .nothing
  | enter (new : ℕ) (hpc : (s i).pc = .merge .beginCD new) :
      Move s i { s i with rollbackPoint := invalidRollbackPoint, pc := .body, poll := .idle }
        .nothing
  | decide (new : ℕ) (b : Bool) (hpc : (s i).pc = .merge .completeCD new)
      (hb : b = true ↔ Failed s ((s i).attempt - 1)) :
      Move s i { s i with
        rollbackPoint := invalidRollbackPoint, pc := .check1 .beginCD, poll := .entered
        verdicts := (s i).verdicts ++ [b] } .nothing
  | flag (hpc : (s i).pc = .sent) :
      Move s i { s i with pc := .body, poll := .entered } (.accumulate cd.head)

theorem Inv.move (h : Inv s) (hfit : CountersFit s) {t' : Task cd.taskSize}
    {e : Effect cd.taskSize} (hact : proceed s i = some (t', e)) : Move s i t' e := by
  unfold proceed at hact
  dsimp only at hact
  split at hact <;> rename_i hpc
  · split_ifs at hact with hall
    cases hact
    exact .fence _ hpc hall
  · cases hact
    exact .read _ hpc
  · split_ifs at hact with hall
    cases hact
    exact .reduce _ hpc hall
  · obtain ⟨t, hmerged, heq⟩ := Option.map_eq_some_iff.mp hact
    cases heq
    unfold beginMerged at hmerged
    split_ifs at hmerged
    cases hmerged
    exact .enter _ hpc
  · obtain ⟨t, hmerged, heq⟩ := Option.map_eq_some_iff.mp hact
    cases heq
    obtain ⟨b, hb, hcases⟩ := h.completeMerged_cases hpc (by have := hfit i; omega)
    rw [hcases] at hmerged
    cases hmerged
    exact .decide _ b hpc hb
  · cases hact
    exact .flag hpc
  · cases hact

theorem Inv.moved (h : Inv s) (hfit : CountersFit s) {t' : Task cd.taskSize}
    {e : Effect cd.taskSize} (hm : Move s i t' e) :
    Inv (State.apply (Function.update s i t') i e) := by
  have hst := stepped_nothing s i
  cases hm with
  | fence site hpc hall => exact h.alone (hst _) (h.alone_fence hpc hall (hst _)) hfit
  | read site hpc => exact h.alone (hst _) (h.alone_read hpc (hst _)) hfit
  | reduce site hpc hall => exact h.alone (hst _) (h.alone_reduce hpc hall (hst _)) hfit
  | enter new hpc => exact h.alone (hst _) (h.alone_beginMerged hpc (hst _)) hfit
  | decide new b hpc hb => exact h.alone (hst _) (h.alone_completeMerged hpc hb (hst _)) hfit
  | flag hpc =>
      have hp := h.polite_sent hpc
      exact h.polite hp (apply_stepped s i _ _ hp.other) hfit

theorem step_inv (s : State cd) (a : Action cd.taskSize) (s' : State cd) (h : Inv s)
    (hfit : CountersFit s) (hstep : step s a = some s') : Inv s' := by
  obtain ⟨⟨t', e⟩, hact, rfl⟩ := Option.map_eq_some_iff.mp hstep
  cases a with
  | next i =>
      simp only [act] at hact
      split_ifs at hact with hidle
      · exact h.moved hfit (h.move hfit hact)
      · have hp := h.polite_check (hfit i) hact
        exact h.polite hp (apply_stepped s i t' e hp.other) hfit
  | assert i test =>
      simp only [act, ErrorReports.assert] at hact
      split_ifs at hact with hbody htest hhead
      · cases hact
        have hp := h.polite_body hbody.1 hbody.2 (Or.inl rfl)
        rw [← hbody.1] at hp
        exact h.polite hp (stepped_nothing s i _) hfit
      · cases hact
        subst hhead
        exact h.asserted (h.asserted_head hbody.1 hbody.2) (stepped_nothing s _ _) hfit
      · cases hact
        have ha := h.asserted_member hhead hbody.1 hbody.2
        refine h.asserted ha (apply_stepped s i _ _ fun j hj => ?_) hfit
        rcases hj with hj | hj
        · exact ha.opens j hj
        · cases hj
  | complete i =>
      simp only [act, ErrorReports.complete] at hact
      split_ifs at hact with hbody
      cases hact
      exact h.polite (h.polite_body hbody.1 hbody.2 (Or.inr rfl)) (stepped_nothing s i _) hfit

theorem reached_inv (actions : List (Action cd.taskSize))
    (hfit : Runs.Guarded step (fun s _ => CountersFit s) (start cd) actions) :
    Runs.Always step Inv (start cd) actions :=
  Runs.always_of_guarded step_inv actions _ (start_inv cd) hfit

theorem rolled_back_iff_failed (cd : CD) (actions : List (Action cd.taskSize))
    (hfit : Runs.Guarded step (fun s _ => CountersFit s) (start cd) actions) :
    Runs.Always step Answered (start cd) actions :=
  Runs.Always.mono (fun _ h => h.verdict) actions _ (reached_inv actions hfit)

/-- The steps that the tasks take without calls from their bodies. -/
def turns {n : ℕ} (tasks : List (Fin n)) : List (Action n) := tasks.map .next

def two : CD := ⟨2, ⟨0, Nat.zero_lt_two⟩, 1, Nat.one_lt_two, by decide⟩

/-- Task 1 reports a failure while the head is already in `Complete`, and completes. -/
def lateReport : List (Action two.taskSize) :=
  let zero : Fin 2 := ⟨0, Nat.zero_lt_two⟩
  let one : Fin 2 := ⟨1, Nat.one_lt_two⟩
  turns (.replicate 2 zero ++ .replicate 5 one ++ .replicate 5 zero ++ .replicate 2 one) ++
    [.assert one false, .complete zero] ++ turns (.replicate 6 zero ++ .replicate 2 one) ++
    [.complete one]

def answer : List (Fin two.taskSize) :=
  let zero : Fin 2 := ⟨0, Nat.zero_lt_two⟩
  let one : Fin 2 := ⟨1, Nat.one_lt_two⟩
  .replicate 5 one ++ .replicate 17 zero ++ .replicate 12 one ++ .replicate 5 zero ++
    .replicate 2 one

theorem rolled_back_late_report :
    (Runs.run step (start two) (lateReport ++ turns answer)).any
      (fun s => ∀ i, (s i).verdicts = [true]) = true ∧
      Runs.Always step Answered (start two) (lateReport ++ turns answer) :=
  ⟨by decide +kernel, rolled_back_iff_failed two _ (by decide +kernel)⟩

end CDRuntime.ErrorReports
