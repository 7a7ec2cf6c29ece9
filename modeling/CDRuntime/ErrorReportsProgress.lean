import Mathlib.Algebra.Order.BigOperators.Group.Finset
import Mathlib.Data.Fintype.EquivFin
import CDRuntime.ErrorReportsRuns

namespace CDRuntime.ErrorReports

variable {cd : CD} {n : ℕ} {s s' : State cd} {i : Fin cd.taskSize}

/-- The steps from a place to the body, checks counting as one. -/
def Pc.ahead : Pc → ℕ
  | .check1 .completeCD => 15
  | .check2 .completeCD => 14
  | .fence .completeCD => 13
  | .check3 .completeCD => 12
  | .read .completeCD => 11
  | .reduce .completeCD => 10
  | .merge .completeCD _ => 9
  | .check1 .beginCD => 8
  | .check2 .beginCD => 7
  | .fence .beginCD => 6
  | .check3 .beginCD => 5
  | .read .beginCD => 4
  | .reduce .beginCD => 3
  | .merge .beginCD _ => 2
  | .sent => 1
  | .body => 0

/-- The handler of an error sends two accesses to every task and adds a handler. -/
def Handler.work (n : ℕ) : Handler → ℕ
  | .allReexecute => 1
  | .errorOccurred => 3 * n + 3

def queueWork (n : ℕ) : List Handler → ℕ
  | [] => 0
  | handler :: queue => handler.work n + queueWork n queue

/-- More than any check can take. -/
def checkWork (n : ℕ) : ℕ := n * (3 * n + 4) + 4

def Poll.work (queue : List Handler) : Poll n → ℕ
  | .idle => 0
  | .entered => checkWork n
  | .counted => checkWork n - 1
  | .reading senders => senders.length * (3 * n + 4) + queueWork n queue + 2
  | .invoking _ => queueWork n queue + 1
  | .sending _ tasks => queueWork n queue.tail + 3 * tasks.length + 2
  | .flagging _ _ tasks => queueWork n queue.tail + 3 * tasks.length + 3

def Task.work (t : Task n) : ℕ := t.pc.ahead * (checkWork n + 1) + t.poll.work t.cdEvent

def work (s : State cd) : ℕ := ∑ j, (s j).work

@[simp] theorem queueWork_nil (n : ℕ) : queueWork n [] = 0 := rfl

@[simp] theorem queueWork_cons (n : ℕ) (handler : Handler) (queue : List Handler) :
    queueWork n (handler :: queue) = handler.work n + queueWork n queue := rfl

@[simp] theorem queueWork_append (n : ℕ) (a b : List Handler) :
    queueWork n (a ++ b) = queueWork n a + queueWork n b := by
  induction a with
  | nil => exact (Nat.zero_add _).symm
  | cons handler a ih => rw [List.cons_append, queueWork_cons, ih, queueWork_cons, Nat.add_assoc]

/-- Whether a task is in `SyncCDs` of a `Complete`. -/
def Pc.completing : Pc → Bool
  | .check1 site => site = .completeCD
  | .check2 site => site = .completeCD
  | .fence site => site = .completeCD
  | .check3 site => site = .completeCD
  | .read site => site = .completeCD
  | .reduce site => site = .completeCD
  | _ => false

def Task.called (t : Task n) : ℕ := t.attempt + t.pc.completing.toNat

theorem Task.called_congr {t t' : Task n} (hcollectives : t'.collectives = t.collectives)
    (hpc : t'.pc.completing = t.pc.completing) : t'.called = t.called := by
  unfold Task.called Task.attempt
  rw [hcollectives, hpc]

@[simp] theorem Pc.completing_polled (pc : Pc) : pc.polled.completing = pc.completing := by
  cases pc <;> rfl

theorem Pc.ahead_polled {pc : Pc} (h : pc.polls = true) :
    pc.polled.ahead + 1 = pc.ahead ∨ pc.polled = pc ∧ (pc.pollAgain : Poll n) = .idle := by
  cases pc with
  | check1 site => cases site <;> exact Or.inl rfl
  | check2 site => cases site <;> exact Or.inl rfl
  | check3 site => cases site <;> exact Or.inl rfl
  | body => exact Or.inr ⟨rfl, rfl⟩
  | _ => cases h

theorem Pc.work_pollAgain (pc : Pc) (queue : List Handler) :
    (pc.pollAgain : Poll n).work queue ≤ checkWork n := by
  cases pc with
  | check1 site => exact Nat.le_refl _
  | _ => exact Nat.zero_le _

theorem Task.work_of_ahead {t t' : Task n} (hahead : t'.pc.ahead < t.pc.ahead)
    (hpoll : t'.poll.work t'.cdEvent ≤ checkWork n) : t'.work < t.work := by
  have hmul : (t'.pc.ahead + 1) * (checkWork n + 1) ≤ t.pc.ahead * (checkWork n + 1) :=
    Nat.mul_le_mul_right _ hahead
  unfold Task.work
  rw [Nat.add_mul] at hmul
  omega

/-- A step inside a check. -/
theorem Task.work_of_poll {t t' : Task n} (hpc : t'.pc = t.pc)
    (hpoll : t'.poll.work t'.cdEvent < t.poll.work t.cdEvent) : t'.work < t.work := by
  unfold Task.work
  rw [hpc]
  exact Nat.add_lt_add_left hpoll _

theorem Task.work_returned {t t' : Task n} (hpolls : t.pc.polls = true)
    (hpoll : 0 < t.poll.work t.cdEvent) (hpc : t'.pc = t.pc.polled)
    (hpoll' : t'.poll = t.pc.pollAgain) : t'.work < t.work := by
  rcases Pc.ahead_polled (n := n) hpolls with hahead | ⟨hbody, hidle⟩
  · refine Task.work_of_ahead ?_ ?_
    · rw [hpc, ← hahead]
      exact Nat.lt_succ_self _
    · rw [hpoll']
      exact t.pc.work_pollAgain _
  · refine Task.work_of_poll (hpc.trans hbody) ?_
    rw [hpoll', hidle]
    exact hpoll

section Check

variable {failed : ℕ → Prop} {t t' : Task cd.taskSize} {e : Effect cd.taskSize}

theorem Task.queueWork_readMailBox (t : Task n) (isHead : Bool) :
    queueWork n (t.readMailBox isHead).cdEvent ≤ queueWork n t.cdEvent + (3 * n + 3) := by
  unfold Task.readMailBox
  split_ifs
  · exact Nat.le_add_right _ _
  · simp [Handler.work]
  · simp [Handler.work]

theorem Check.work (hc : Check cd i t t' e) (h : Inner cd failed i t) : t'.work < t.work := by
  have hpolls : t.pc.polls = true := h.polling hc.poll_ne_idle
  cases hc with
  | count hpoll =>
      refine Task.work_of_poll rfl ?_
      rw [hpoll]
      exact Nat.sub_lt (Nat.succ_pos _) Nat.one_pos
  | skip hpoll hflags hqueue hhandled =>
      refine Task.work_returned hpolls ?_ rfl rfl
      rw [hpoll]
      exact Nat.succ_pos _
  | copy hpoll =>
      -- the queue is empty, and no task is twice in the copy
      refine Task.work_of_poll rfl ?_
      have hempty := (h.busy (by rw [hpoll]; rfl)).1
      have hlength : ((List.finRange cd.taskSize).filter (· ∈ t.eventFlag)).length ≤ cd.taskSize :=
        (List.length_filter_le _ _).trans_eq (List.length_finRange)
      have hmul := Nat.mul_le_mul_right (3 * cd.taskSize + 4) hlength
      rw [hpoll, hempty]
      simp only [Poll.work, checkWork, queueWork_nil]
      omega
  | read x senders hpoll =>
      refine Task.work_of_poll ?_ ?_
      · unfold Task.readMailBox
        split_ifs <;> rfl
      · have hqueue := t.queueWork_readMailBox (i = cd.head)
        rw [hpoll]
        simp only [Poll.work, List.length_cons, Nat.add_mul]
        omega
  | judge hpoll hqueue =>
      refine Task.work_of_poll rfl ?_
      rw [hpoll]
      simp only [Poll.work]
      omega
  | noEvent hpoll hqueue hhandled =>
      refine Task.work_returned hpolls ?_ rfl rfl
      rw [hpoll]
      exact Nat.succ_pos _
  | finish hpoll hqueue =>
      refine Task.work_returned hpolls ?_ rfl rfl
      rw [hpoll]
      exact Nat.succ_pos _
  | reexecute queue hpoll hqueue =>
      refine Task.work_of_poll rfl ?_
      change t.poll.work queue < t.poll.work t.cdEvent
      rw [hpoll, hqueue]
      simp only [Poll.work, queueWork_cons, Handler.work]
      omega
  | occurred queue hpoll hqueue =>
      refine Task.work_of_poll rfl ?_
      rw [hpoll]
      dsimp only
      rw [hqueue]
      simp only [Poll.work, queueWork_cons, Handler.work, List.tail_cons, List.length_finRange]
      omega
  | sendLocal tasks hpoll =>
      obtain ⟨queue, hqueue, -⟩ := h.sending (i :: tasks) (by rw [hpoll]; rfl)
      refine Task.work_of_poll rfl ?_
      change (Poll.sending true tasks).work (t.cdEvent ++ [.allReexecute]) < _
      rw [hpoll, hqueue]
      simp only [Poll.work, List.cons_append, List.tail_cons, queueWork_append, queueWork_cons,
        queueWork_nil, Handler.work, List.length_cons]
      omega
  | sendRemote j tasks hj hpoll =>
      refine Task.work_of_poll rfl ?_
      rw [hpoll]
      simp only [Poll.work, List.length_cons]
      omega
  | flag j tasks hpoll =>
      refine Task.work_of_poll rfl ?_
      rw [hpoll]
      simp only [Poll.work]
      omega
  | informed hpoll =>
      refine Task.work_of_poll rfl ?_
      rw [hpoll]
      simp only [Poll.work]
      omega

theorem Check.pc (hc : Check cd i t t' e) : t'.pc = t.pc ∨ t'.pc = t.pc.polled := by
  cases hc with
  | skip => exact Or.inr rfl
  | noEvent => exact Or.inr rfl
  | finish => exact Or.inr rfl
  | read x senders hpoll =>
      left
      unfold Task.readMailBox
      split_ifs <;> rfl
  | _ => exact Or.inl rfl

theorem Check.called (hc : Check cd i t t' e) (h : Inner cd failed i t) : t'.called = t.called := by
  refine Task.called_congr (hc.quiet h).collectives ?_
  rcases hc.pc with hpc | hpc
  · rw [hpc]
  · rw [hpc, Pc.completing_polled]

theorem Inner.checks_on (h : Inner cd failed i t) (hpoll : t.poll ≠ .idle) :
    ∃ r, checkMailBox cd i t = some r := by
  unfold checkMailBox
  split <;> rename_i hp
  · exact (hpoll hp).elim
  · rw [if_neg (fun hne => hne (h.busy (by rw [hp]; rfl)).2)]
    split_ifs <;> exact ⟨_, rfl⟩
  · exact ⟨_, rfl⟩
  · exact ⟨_, rfl⟩
  · split_ifs <;> exact ⟨_, rfl⟩
  · split <;> exact ⟨_, rfl⟩
  · split_ifs <;> exact ⟨_, rfl⟩
  · exact ⟨_, rfl⟩
  · exact ⟨_, rfl⟩

end Check

section Proceed

variable {t' : Task cd.taskSize} {e : Effect cd.taskSize}

/-- What a step outside the checks does to its task, and to whom it is sent. -/
structure Onward (t t' : Task cd.taskSize) (i : Fin cd.taskSize) (e : Effect cd.taskSize) :
    Prop where
  ahead : t'.pc.ahead < t.pc.ahead
  poll : t'.poll.work t'.cdEvent ≤ checkWork cd.taskSize
  called : t'.called = t.called
  other : ∀ j, e.opens = some j ∨ e.closes = some j → j ≠ i

theorem Inv.onward (h : Inv s) (hidle : (s i).poll = .idle) (hm : Move s i t' e) :
    Onward (s i) t' i e := by
  have hleft := (h.outer i).attempt_left
  have hnothing : ∀ j, (Effect.nothing : Effect cd.taskSize).opens = some j ∨
      (Effect.nothing : Effect cd.taskSize).closes = some j → j ≠ i :=
    fun j hj => by rcases hj with hj | hj <;> cases hj
  cases hm with
  | fence site hpc =>
      refine ⟨?_, Nat.le_refl _, ?_, hnothing⟩
      · rw [hpc]
        cases site <;> exact Nat.lt_succ_self _
      · unfold Task.called
        rw [hpc] at hleft ⊢
        cases site <;> exact congrArg (· + _) hleft
  | read site hpc =>
      refine ⟨?_, ?_, ?_, hnothing⟩
      · rw [hpc]
        cases site <;> exact Nat.lt_succ_self _
      · rw [hidle]
        exact Nat.zero_le _
      · refine Task.called_congr rfl ?_
        rw [hpc]
        rfl
  | reduce site hpc =>
      refine ⟨?_, ?_, ?_, hnothing⟩
      · rw [hpc]
        cases site <;> exact Nat.lt_succ_self _
      · rw [hidle]
        exact Nat.zero_le _
      · -- the reduction of `Complete` ends the attempt
        unfold Task.called
        rw [hpc] at hleft ⊢
        cases site <;> exact hleft
  | enter new hpc =>
      refine ⟨?_, Nat.zero_le _, ?_, hnothing⟩
      · rw [hpc]
        exact Nat.succ_pos _
      · refine Task.called_congr rfl ?_
        rw [hpc]
        rfl
  | decide new b hpc =>
      refine ⟨?_, Nat.le_refl _, ?_, hnothing⟩
      · rw [hpc]
        exact Nat.lt_succ_self _
      · refine Task.called_congr rfl ?_
        rw [hpc]
        rfl
  | flag hpc =>
      refine ⟨?_, Nat.le_refl _, ?_, (h.polite_sent hpc).other⟩
      · rw [hpc]
        exact Nat.succ_pos _
      · refine Task.called_congr rfl ?_
        rw [hpc]
        rfl

/-- `i` is in its body, or at a fence or reduction that another task has still to enter. -/
def Waiting (s : State cd) (i : Fin cd.taskSize) : Prop :=
  (s i).poll = .idle ∧
    ((s i).pc = .body ∨ (s i).pc.waits = true ∧ ¬ s.entered (s i).collectives)

theorem Inv.stuck (h : Inv s) (hstuck : step s (.next i) = none) : Waiting s i := by
  have hact : act s (.next i) = none := Option.map_eq_none_iff.mp hstuck
  simp only [act] at hact
  split_ifs at hact with hidle
  · refine ⟨hidle, ?_⟩
    have hbody := (h.inner i).checks hidle
    cases hpc : (s i).pc with
    | fence site =>
        simp only [proceed, hpc] at hact
        split_ifs at hact with hall
        exact Or.inr ⟨rfl, hall⟩
    | reduce site =>
        simp only [proceed, hpc] at hact
        split_ifs at hact with hall
        exact Or.inr ⟨rfl, hall⟩
    | merge site new =>
        cases site with
        | beginCD =>
            simp only [proceed, hpc, beginMerged,
              if_neg (Nat.not_lt_of_le (h.level_le_reduced hpc))] at hact
            cases hact
        | completeCD =>
            obtain ⟨b, -, hmerged⟩ := h.completeMerged_eq hpc
            simp only [proceed, hpc, hmerged] at hact
            cases hact
    | body => exact Or.inl rfl
    | read site =>
        simp only [proceed, hpc] at hact
        cases hact
    | sent =>
        simp only [proceed, hpc] at hact
        cases hact
    | _ =>
        -- a task that is about to check its mailbox is not idle
        rw [hpc] at hbody
        cases hbody rfl
  · obtain ⟨r, hr⟩ := (h.inner i).checks_on hidle
    rw [hr] at hact
    cases hact

end Proceed

theorem Inv.turn (h : Inv s) (hfit : CountersFit s) (hstep : step s (.next i) = some s') :
    work s' < work s ∧ ∀ j, (s' j).called = (s j).called := by
  obtain ⟨⟨t', e⟩, hact, hs'⟩ := Option.map_eq_some_iff.mp hstep
  have hturn : (∀ j, e.opens = some j ∨ e.closes = some j → j ≠ i) ∧ t'.work < (s i).work ∧
      t'.called = (s i).called := by
    simp only [act] at hact
    split_ifs at hact with hidle
    · have ho := h.onward hidle (h.move hfit hact)
      exact ⟨ho.other, Task.work_of_ahead ho.ahead ho.poll, ho.called⟩
    · have hc := h.checked hact
      exact ⟨(h.polite_check (hfit i) hact).other, hc.work (h.inner i), hc.called (h.inner i)⟩
  obtain ⟨hother, hwork, hcalled⟩ := hturn
  have hst : Stepped s s' i t' e := hs' ▸ apply_stepped s i t' e hother
  -- a counter or a flag that the others get is no work for them yet
  refine ⟨Finset.sum_lt_sum (fun j _ => ?_) ⟨i, Finset.mem_univ i, ?_⟩, fun j => ?_⟩
  · by_cases hj : j = i
    · rw [hj, hst.self]
      exact Nat.le_of_lt hwork
    · rw [hst.other j hj]
      exact Nat.le_refl _
  · rw [hst.self]
    exact hwork
  · by_cases hj : j = i
    · rw [hj, hst.self, hcalled]
    · rw [hst.other j hj]
      rfl

/-- All tasks are in the same execution of the CD and have decided alike about those before it;
each is in its body, or waits in `Complete` for one that is. -/
structure Resting (s : State cd) : Prop where
  idle : ∀ i, (s i).poll = .idle
  place : ∀ i, (s i).pc = .body ∨ (s i).pc = .fence .completeCD
  body : ∃ i, (s i).pc = .body
  attempt : ∀ i j, (s i).attempt = (s j).attempt
  verdicts : ∀ i j, (s i).verdicts = (s j).verdicts

theorem Pc.fence_of_slot {pc : Pc} (hwaits : pc.waits = true) (hslot : pc.slot = 2) :
    pc = .fence .completeCD := by
  cases pc with
  | fence site =>
      cases site with
      | beginCD => cases hslot
      | completeCD => rfl
  | reduce site => cases site <;> cases hslot
  | _ => cases hwaits

theorem Inv.verdicts_eq (h : Inv s) {i j : Fin cd.taskSize}
    (hlength : (s i).verdicts.length = (s j).verdicts.length) :
    (s i).verdicts = (s j).verdicts := by
  apply List.ext_getElem hlength
  intro k hi hj
  have hki := h.verdict i k _ (List.getElem?_eq_getElem hi)
  have hkj := h.verdict j k _ (List.getElem?_eq_getElem hj)
  exact Bool.eq_iff_iff.mpr (hki.trans hkj.symm)

theorem Inv.resting (h : Inv s) (hstuck : ∀ i, step s (.next i) = none) : Resting s := by
  have hone : ∃ j, (s j).pc = .body := by
    -- otherwise all wait, and somebody who is behind nobody could go on
    by_contra hnone
    have hall : ∀ i, (s i).pc.waits = true ∧ ¬ s.entered (s i).collectives := fun i =>
      (h.stuck (hstuck i)).2.resolve_left fun hbody => hnone ⟨i, hbody⟩
    have : Nonempty (Fin cd.taskSize) := ⟨cd.head⟩
    obtain ⟨i, hi⟩ : ∃ i, s.entered (s i).collectives :=
      Collectives.exists_entered fun j => (hall j).1
    exact (hall i).2 hi
  obtain ⟨j, hj⟩ := hone
  have hw : (s j).pc.waits = false := by rw [hj]; rfl
  have hequal : ∀ i, (s i).collectives = (s j).collectives := by
    intro i
    -- who is behind a task in its body waits where all have arrived
    apply Nat.le_antisymm (h.outside hw i).1
    by_contra hlt
    have hlt : (s i).collectives < (s j).collectives := Nat.lt_of_not_le hlt
    have hin := (h.meeting.ahead j i hlt).2
    rcases (h.stuck (hstuck i)).2 with hbody | ⟨-, hwaits⟩
    · rw [hbody] at hin
      cases hin
    · exact hwaits (h.meeting.entered_of_behind hlt)
  -- so all are at the same collective, the fence of `Complete`
  have hslot : ∀ i, (s i).pc.slot = 2 := by
    intro i
    rw [← (h.outer i).slot, hequal, (h.outer j).slot, hj]
    rfl
  have hplace : ∀ i, (s i).pc = .body ∨ (s i).pc = .fence .completeCD := fun i =>
    (h.stuck (hstuck i)).2.imp_right fun hwaits => Pc.fence_of_slot hwaits.1 (hslot i)
  have hattempt : ∀ a b, (s a).attempt = (s b).attempt := fun a b => by
    rw [Task.attempt, Task.attempt, hequal a, hequal b]
  have hdecided : ∀ i, (s i).verdicts.length = (s i).attempt := by
    intro i
    have hdecided := (h.outer i).decided
    rcases hplace i with hpc | hpc <;> rw [hpc] at hdecided <;> exact hdecided
  refine ⟨fun i => (h.stuck (hstuck i)).1, hplace, ⟨j, hj⟩, hattempt, fun a b => ?_⟩
  exact h.verdicts_eq (by rw [hdecided, hdecided, hattempt a b])

theorem Resting.body_of_called (h : Resting s) (hcalled : ∀ i j, (s i).called = (s j).called)
    (i : Fin cd.taskSize) : (s i).pc = .body := by
  obtain ⟨j, hj⟩ := h.body
  refine (h.place i).resolve_right fun hi => ?_
  have heq := hcalled i j
  unfold Task.called at heq
  rw [h.attempt i j, hi, hj] at heq
  exact Nat.succ_ne_self _ heq

theorem never_stuck (cd : CD) (actions : List (Action cd.taskSize))
    (hfit : Runs.Guarded step (fun s _ => CountersFit s) (start cd) actions) :
    Runs.Always step (fun s => (∀ i, step s (.next i) = none → Waiting s i) ∧
      ((∀ i, step s (.next i) = none) → Resting s)) (start cd) actions :=
  Runs.Always.mono (fun _ h => ⟨fun _ => h.stuck, h.resting⟩) actions _ (reached_inv actions hfit)

theorem never_stuck_late_report :
    (∀ i, (Runs.run step (start two) ((lateReport ++ turns answer) ++ [.next i])).isNone = true) ∧
      Runs.Always step (fun s => (∀ i, step s (.next i) = none → Waiting s i) ∧
        ((∀ i, step s (.next i) = none) → Resting s)) (start two) (lateReport ++ turns answer) :=
  ⟨by decide +kernel, never_stuck two _ (by decide +kernel)⟩

theorem turns_spec (tasks : List (Fin cd.taskSize)) :
    ∀ s : State cd, Inv s → Runs.Guarded step (fun s _ => CountersFit s) s (turns tasks) →
      ∀ s', Runs.run step s (turns tasks) = some s' →
        Inv s' ∧ tasks.length + work s' ≤ work s ∧ ∀ j, (s' j).called = (s j).called := by
  induction tasks with
  | nil =>
      intro s h _ s' hrun
      obtain rfl := Option.some.inj hrun
      exact ⟨h, Nat.le_of_eq (Nat.zero_add _), fun _ => rfl⟩
  | cons i tasks ih =>
      intro s h hfit s' hrun
      obtain ⟨s₁, hstep, hrest⟩ := Option.bind_eq_some_iff.mp hrun
      obtain ⟨hfit₀, hfit⟩ := hfit s₁ hstep
      obtain ⟨hwork, hcalled⟩ := h.turn hfit₀ hstep
      obtain ⟨hinv, hlength, hcalled'⟩ := ih s₁ (step_inv s _ s₁ h hfit₀ hstep) hfit s' hrest
      refine ⟨hinv, ?_, fun j => (hcalled' j).trans (hcalled j)⟩
      rw [List.length_cons]
      omega

/-- After all tasks have called `Complete` equally often, they take only so many steps, and when
they can take no more all are in their bodies, after the same decisions. -/
theorem completions_end (cd : CD) (actions : List (Action cd.taskSize))
    (tasks : List (Fin cd.taskSize)) (s s' : State cd)
    (hrun : Runs.run step (start cd) actions = some s)
    (hturns : Runs.run step s (turns tasks) = some s')
    (hfit : Runs.Guarded step (fun s _ => CountersFit s) (start cd) (actions ++ turns tasks)) :
    tasks.length + work s' ≤ work s ∧ ((∀ i, step s' (.next i) = none) →
      (∀ i j, (s i).called = (s j).called) → ∀ i j, (s' i).pc = .body ∧
        (s' i).verdicts = (s' j).verdicts) := by
  have hinv := (reached_inv actions (hfit.append_left _ _)).last _ _ _ hrun
  obtain ⟨hinv', hlength, hcalled⟩ := turns_spec tasks s hinv
    (Runs.Guarded.of_append _ _ _ _ hfit hrun) s' hturns
  refine ⟨hlength, fun hstuck hequal i j => ?_⟩
  have hrest := hinv'.resting hstuck
  refine ⟨hrest.body_of_called (fun a b => ?_) i, hrest.verdicts i j⟩
  rw [hcalled, hcalled, hequal]

theorem completions_end_late_report :
    ∃ s s', Runs.run step (start two) lateReport = some s ∧
      Runs.run step s (turns answer) = some s' ∧ answer.length + work s' ≤ work s ∧
        ∀ i j, (s' i).pc = .body ∧ (s' i).verdicts = (s' j).verdicts := by
  obtain ⟨s, hs⟩ := Option.isSome_iff_exists.mp
    (show (Runs.run step (start two) lateReport).isSome = true by decide +kernel)
  obtain ⟨s', hs'⟩ := Option.isSome_iff_exists.mp
    (show (Runs.run step (start two) (lateReport ++ turns answer)).isSome = true by
      decide +kernel)
  have hturns : Runs.run step s (turns answer) = some s' := by
    rw [Runs.run_append, hs, Option.bind_some] at hs'
    exact hs'
  have hstuck : ∀ i, step s' (.next i) = none := by
    intro i
    have hnone : ∀ i, (Runs.run step (start two)
        ((lateReport ++ turns answer) ++ [.next i])).isNone = true := by decide +kernel
    have hi := hnone i
    rw [Runs.run_concat, hs', Option.bind_some] at hi
    exact Option.isNone_iff_eq_none.mp hi
  have hcalled : ∀ i j, (s i).called = (s j).called := by
    have hall : (Runs.run step (start two) lateReport).all
        (fun s => decide (∀ i j, (s i).called = (s j).called)) = true := by decide +kernel
    rw [hs] at hall
    exact of_decide_eq_true hall
  obtain ⟨hlength, hbody⟩ :=
    completions_end two lateReport answer s s' hs hturns (by decide +kernel)
  exact ⟨s, s', hs, hturns, hlength, hbody hstuck hcalled⟩

end CDRuntime.ErrorReports
