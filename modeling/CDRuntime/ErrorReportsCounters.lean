import CDRuntime.ErrorReportsRuns

namespace CDRuntime.ErrorReports

variable {cd : CD} {n : ℕ} {s s' : State cd} {i j : Fin cd.taskSize} {t t' : Task cd.taskSize}
  {e : Effect cd.taskSize}

/-- How often the handlers in the queue of a task are still going to count a request at `j`. -/
def Task.requests (t : Task n) (j : Fin n) : ℕ :=
  match t.poll.uninformed with
  | some tasks => tasks.count j + t.cdEvent.tail.count .errorOccurred
  | none => t.cdEvent.count .errorOccurred

def reports (s : State cd) : ℕ := (Finset.univ.filter fun i => (s i).pc = .sent).card

/-- The counter of `j` with all that is going to be added to it. -/
def debt (s : State cd) (j : Fin cd.taskSize) : ℕ :=
  (s j).pendingFlag + reports s + ((s cd.head).eventFlag.card + (s cd.head).requests j)

theorem Task.requests_of_uninformed {tasks : List (Fin n)} {t : Task n}
    (h : t.poll.uninformed = some tasks) (j : Fin n) :
    t.requests j = tasks.count j + t.cdEvent.tail.count .errorOccurred := by
  unfold Task.requests
  rw [h]

theorem Task.requests_of_none {t : Task n} (h : t.poll.uninformed = none) (j : Fin n) :
    t.requests j = t.cdEvent.count .errorOccurred := by
  unfold Task.requests
  rw [h]

theorem Task.requests_congr {t t' : Task n} (hqueue : t'.cdEvent = t.cdEvent)
    (hpoll : t'.poll.uninformed = t.poll.uninformed) (j : Fin n) :
    t'.requests j = t.requests j := by
  unfold Task.requests
  rw [hpoll, hqueue]

/-- The part of task `i` in the counter of `j`. -/
def share (cd : CD) (i j : Fin cd.taskSize) (t : Task cd.taskSize) : ℕ :=
  (if j = i then t.pendingFlag else 0) + (if t.pc = .sent then 1 else 0) +
    if i = cd.head then t.eventFlag.card + t.requests j else 0

def Effect.share (cd : CD) (e : Effect cd.taskSize) (j : Fin cd.taskSize) : ℕ :=
  (if e.opens = some j then 1 else 0) + if e.closes = some cd.head then 1 else 0

theorem debt_step (hst : Stepped s s' i t' e) {m : ℕ}
    (hshare : share cd i j t' + e.share cd j ≤ share cd i j (s i) + m) :
    debt s' j ≤ debt s j + m := by
  -- only task `i` starts or ends a report
  have hreports : reports s' + (if (s i).pc = .sent then 1 else 0) =
      reports s + if t'.pc = .sent then 1 else 0 := by
    have hsplit : ∀ u : State cd, reports u = (if (u i).pc = .sent then 1 else 0) +
        ∑ k ∈ Finset.univ.erase i, if (u k).pc = .sent then 1 else 0 := by
      intro u
      rw [reports, Finset.card_filter]
      exact (Finset.add_sum_erase _ (fun k => if (u k).pc = .sent then 1 else 0)
        (Finset.mem_univ i)).symm
    have hrest : ∀ k ∈ Finset.univ.erase i,
        (if (s' k).pc = .sent then 1 else 0) = if (s k).pc = .sent then 1 else 0 := by
      intro k hk
      rw [hst.other k (Finset.ne_of_mem_erase hk)]
      rfl
    rw [hsplit s', hsplit s, Finset.sum_congr rfl hrest, hst.self]
    omega
  have hpending : (s' j).pendingFlag + (if j = i then (s i).pendingFlag else 0) ≤
      (s j).pendingFlag + (if j = i then t'.pendingFlag else 0) +
        if e.opens = some j then 1 else 0 := by
    by_cases hj : j = i
    · rw [if_pos hj, if_pos hj, hj, hst.self]
      omega
    · rw [if_neg hj, if_neg hj, hst.other j hj]
      change (if e.opens = some j then ((s j).pendingFlag + 1) % 2 ^ 32 else _) + 0 ≤ _
      have hmod := Nat.mod_le ((s j).pendingFlag + 1) (2 ^ 32)
      split_ifs <;> omega
  have hhead : (s' cd.head).eventFlag.card + (s' cd.head).requests j +
      (if i = cd.head then (s i).eventFlag.card + (s i).requests j else 0) ≤
        (s cd.head).eventFlag.card + (s cd.head).requests j +
          (if i = cd.head then t'.eventFlag.card + t'.requests j else 0) +
            if e.closes = some cd.head then 1 else 0 := by
    by_cases hi : i = cd.head
    · rw [if_pos hi, if_pos hi, ← hi, hst.self]
      omega
    · rw [if_neg hi, if_neg hi, hst.other _ (Ne.symm hi)]
      change (if e.closes = some cd.head then insert i (s cd.head).eventFlag
        else (s cd.head).eventFlag).card + (s cd.head).requests j + 0 ≤ _
      have hcard := Finset.card_insert_le i (s cd.head).eventFlag
      split_ifs <;> omega
  unfold share Effect.share at hshare
  unfold debt
  omega

theorem share_congr (hpending : t'.pendingFlag = t.pendingFlag)
    (hflags : t'.eventFlag = t.eventFlag) (hqueue : t'.cdEvent = t.cdEvent)
    (hpoll : t'.poll.uninformed = t.poll.uninformed) :
    share cd i j t' + (if t.pc = .sent then 1 else 0) =
      share cd i j t + if t'.pc = .sent then 1 else 0 := by
  unfold share
  rw [hpending, hflags, Task.requests_congr hqueue hpoll]
  omega

section Check

variable {failed : ℕ → Prop}

theorem Task.pendingFlag_readMailBox (t : Task n) (isHead : Bool) :
    (t.readMailBox isHead).pendingFlag = t.pendingFlag := by
  unfold Task.readMailBox
  split_ifs <;> rfl

theorem Task.count_readMailBox (t : Task n) (isHead : Bool) :
    (t.readMailBox isHead).cdEvent.count .errorOccurred ≤ t.cdEvent.count .errorOccurred + 1 := by
  unfold Task.readMailBox
  split_ifs
  · exact Nat.le_succ _
  · rw [List.count_append]
    exact Nat.le_refl _
  · rw [List.count_append]
    exact Nat.le_succ _

theorem Task.decPendingCounter_le (howed : t.owed ≤ t.pendingFlag)
    (hfit : t.pendingFlag < 2 ^ 32) : t.decPendingCounter.pendingFlag ≤ t.pendingFlag := by
  unfold Task.owed at howed
  exact (dec_of_le (by omega) hfit).trans_le (Nat.sub_le _ _)

/-- A step of a check that leaves the flags and the queue alone. -/
theorem balance_of_same (hopens : e.opens ≠ some j) (hpending : t'.pendingFlag ≤ t.pendingFlag)
    (hflags : t'.eventFlag = t.eventFlag) (hqueue : t'.cdEvent = t.cdEvent)
    (hpoll : t'.poll.uninformed = t.poll.uninformed) :
    (if j = i then t'.pendingFlag else 0) + (t'.eventFlag.card + t'.requests j) +
        (if e.opens = some j then 1 else 0) ≤
      (if j = i then t.pendingFlag else 0) + (t.eventFlag.card + t.requests j) := by
  rw [if_neg hopens, hflags, Task.requests_congr hqueue hpoll]
  split_ifs <;> omega

theorem Check.balance (hc : Check cd i t t' e) (h : Inner cd failed i t)
    (hfit : t.pendingFlag < 2 ^ 32) (howed : t.owed ≤ t.pendingFlag) (j : Fin cd.taskSize) :
    (if j = i then t'.pendingFlag else 0) + (t'.eventFlag.card + t'.requests j) +
        (if e.opens = some j then 1 else 0) ≤
      (if j = i then t.pendingFlag else 0) + (t.eventFlag.card + t.requests j) := by
  have hnothing : (Effect.nothing : Effect cd.taskSize).opens ≠ some j := fun hn => by cases hn
  have hreturned : t.poll.uninformed = none →
      (t.pc.pollAgain : Poll cd.taskSize).uninformed = t.poll.uninformed :=
    fun hnone => (Pc.uninformed_pollAgain _).trans hnone.symm
  cases hc with
  | count hpoll =>
      exact balance_of_same hnothing (Nat.le_refl _) rfl rfl (by rw [hpoll]; rfl)
  | skip hpoll =>
      exact balance_of_same hnothing (Nat.le_refl _) rfl rfl (hreturned (by rw [hpoll]; rfl))
  | copy hpoll =>
      exact balance_of_same hnothing (Nat.le_refl _) rfl rfl (by rw [hpoll]; rfl)
  | read x senders hpoll =>
      have hx : x ∈ t.eventFlag := (h.copied _ hpoll).2.1 x List.mem_cons_self
      have hcard := Finset.card_erase_add_one hx
      have hcount := t.count_readMailBox (i = cd.head)
      -- a flag that is gone pays for the handler
      rw [if_neg hnothing, Task.requests_of_none (t := t) (by rw [hpoll]; rfl)]
      change (if j = i then (t.readMailBox (i = cd.head)).pendingFlag else 0) +
        ((t.eventFlag.erase x).card + (t.readMailBox (i = cd.head)).cdEvent.count .errorOccurred)
          + 0 ≤ _
      rw [Task.pendingFlag_readMailBox]
      omega
  | judge hpoll hqueue =>
      exact balance_of_same hnothing (Nat.le_refl _) rfl rfl (by rw [hpoll]; rfl)
  | noEvent hpoll hqueue hhandled =>
      exact balance_of_same hnothing (Nat.le_refl _) rfl rfl (hreturned (by rw [hpoll]; rfl))
  | finish hpoll hqueue =>
      exact balance_of_same hnothing (Task.decPendingCounter_le howed hfit) rfl rfl
        (hreturned (by rw [hpoll]; rfl))
  | reexecute queue hpoll hqueue =>
      rw [if_neg hnothing, Task.requests_of_none (t := t) (by rw [hpoll]; rfl),
        Task.requests_of_none (t := { t.handleAllReexecute cd with cdEvent := queue })
          (by change t.poll.uninformed = none; rw [hpoll]; rfl), hqueue,
        List.count_cons_of_ne (by decide)]
      exact Nat.le_refl _
  | occurred queue hpoll hqueue =>
      -- the handler informs every task once
      have hone : (List.finRange cd.taskSize).count j = 1 :=
        List.count_eq_one_of_mem (List.nodup_finRange _) (List.mem_finRange j)
      rw [if_neg hnothing, Task.requests_of_none (t := t) (by rw [hpoll]; rfl),
        Task.requests_of_uninformed rfl, hone]
      dsimp only
      rw [hqueue, List.count_cons_self, List.tail_cons]
      omega
  | sendLocal tasks hpoll =>
      obtain ⟨queue, hqueue, -⟩ := h.sending (i :: tasks) (by rw [hpoll]; rfl)
      have hmod := Nat.mod_le (t.pendingFlag + 1) (2 ^ 32)
      rw [if_neg hnothing, Task.requests_of_uninformed (t := t) (by rw [hpoll]; rfl),
        Task.requests_of_uninformed rfl]
      change (if j = i then (t.pendingFlag + 1) % 2 ^ 32 else 0) + (t.eventFlag.card +
        (tasks.count j + (t.cdEvent ++ [Handler.allReexecute]).tail.count .errorOccurred)) + 0 ≤ _
      have hzero : [Handler.allReexecute].count .errorOccurred = 0 := rfl
      rw [hqueue, List.cons_append, List.tail_cons, List.tail_cons, List.count_append, hzero]
      by_cases hj : j = i
      · rw [if_pos hj, if_pos hj, hj, List.count_cons_self]
        omega
      · rw [if_neg hj, if_neg hj, List.count_cons_of_ne (Ne.symm hj)]
        omega
  | sendRemote k tasks hk hpoll =>
      rw [Task.requests_of_uninformed (t := t) (by rw [hpoll]; rfl),
        Task.requests_of_uninformed rfl]
      dsimp only
      by_cases hj : k = j
      · rw [if_pos (show (Effect.increment k).opens = some j from congrArg some hj), hj,
          List.count_cons_self]
        omega
      · have hopens : (Effect.increment k).opens ≠ some j := fun heq => hj (Option.some.inj heq)
        rw [if_neg hopens, List.count_cons_of_ne hj]
        omega
  | flag k tasks hpoll =>
      exact balance_of_same (fun hn => by cases hn) (Nat.le_refl _) rfl rfl (by rw [hpoll]; rfl)
  | informed hpoll =>
      rw [if_neg hnothing, Task.requests_of_uninformed (t := t) (by rw [hpoll]; rfl),
        Task.requests_of_none rfl, List.count_nil, Nat.zero_add]
      exact Nat.le_refl _

theorem Check.pendingFlag_le (hc : Check cd i t t' e) (h : Inner cd failed i t)
    (hfit : t.pendingFlag < 2 ^ 32) (howed : t.owed ≤ t.pendingFlag) (hi : i ≠ cd.head) :
    t'.pendingFlag ≤ t.pendingFlag := by
  cases hc with
  | read x senders hpoll => exact Nat.le_of_eq (t.pendingFlag_readMailBox _)
  | finish hpoll hqueue => exact Task.decPendingCounter_le howed hfit
  | sendLocal tasks hpoll =>
      -- only the head sends requests
      obtain ⟨queue, hqueue, -⟩ := h.sending (i :: tasks) (by rw [hpoll]; rfl)
      refine (h.member hi ?_).elim
      rw [hqueue]
      exact List.mem_cons_self
  | _ => exact Nat.le_refl _

theorem Check.share (hc : Check cd i t t' e) (h : Inner cd failed i t)
    (hfit : t.pendingFlag < 2 ^ 32) (howed : t.owed ≤ t.pendingFlag) (j : Fin cd.taskSize) :
    share cd i j t' + e.share cd j ≤ share cd i j t := by
  have hpolls : t.pc.polls = true := h.polling hc.poll_ne_idle
  have hsent : t.pc ≠ .sent := by
    intro hs
    rw [hs] at hpolls
    cases hpolls
  have hsent' : t'.pc ≠ .sent := fun hs => hsent ((hc.quiet h).sent hs)
  have hsender : ∀ k, e.opens = some k ∨ e.closes = some k → i = cd.head ∧ k ≠ i := fun k hk =>
    ⟨(hc.sender h hk).1, (hc.sender h hk).2.1⟩
  unfold ErrorReports.share Effect.share
  rw [if_neg hsent, if_neg hsent']
  have hcloses : e.closes ≠ some cd.head := fun he =>
    (hsender _ (Or.inr he)).2 (hsender _ (Or.inr he)).1.symm
  rw [if_neg hcloses]
  by_cases hi : i = cd.head
  · have hbalance := hc.balance h hfit howed j
    rw [if_pos hi, if_pos hi]
    omega
  · have hopens : e.opens ≠ some j := fun he => hi (hsender _ (Or.inl he)).1
    have hle := hc.pendingFlag_le h hfit howed hi
    rw [if_neg hi, if_neg hi, if_neg hopens]
    split_ifs <;> omega

end Check

/-- Whether a call is an assertion that fails. -/
def Action.fails : Action n → Bool
  | .assert _ test => !test
  | _ => false

/-- A step outside the checks that leaves the mailbox alone. -/
theorem debt_alone (hpending : t'.pendingFlag = (s i).pendingFlag)
    (hflags : t'.eventFlag = (s i).eventFlag) (hqueue : t'.cdEvent = (s i).cdEvent)
    (hpoll : t'.poll.uninformed = (s i).poll.uninformed)
    (hpc : (s i).pc ≠ .sent) (hpc' : t'.pc ≠ .sent) :
    debt (State.apply (Function.update s i t') i .nothing) j ≤ debt s j := by
  have hshare := share_congr (i := i) (j := j) hpending hflags hqueue hpoll
  rw [if_neg hpc, if_neg hpc'] at hshare
  exact debt_step (m := 0) (stepped_nothing s i t') (Nat.le_of_eq hshare)

theorem quiet_of_body (h : t.pc = .body ∧ t.poll = .idle) :
    t.pc ≠ .sent ∧ t.poll.uninformed = none := by
  rw [h.1, h.2]
  exact ⟨(fun hs => by cases hs), rfl⟩

theorem share_asserted (hbody : t.pc = .body ∧ t.poll = .idle) (failures : Finset ℕ) :
    share cd i j { t with pc := .sent, failures := failures } +
      (Effect.increment cd.head).share cd j ≤ share cd i j t + 2 := by
  have hshare : share cd i j { t with pc := .sent, failures := failures } +
      (if t.pc = .sent then 1 else 0) = share cd i j t + if Pc.sent = .sent then 1 else 0 :=
    share_congr rfl rfl rfl rfl
  have hcloses : (Effect.increment cd.head).closes ≠ some cd.head := fun hn => by cases hn
  rw [if_neg (quiet_of_body hbody).1, if_pos rfl] at hshare
  unfold Effect.share
  rw [if_neg hcloses]
  split_ifs <;> omega

theorem Inv.debt_moved (h : Inv s) (hidle : (s i).poll = .idle) (hm : Move s i t' e)
    (j : Fin cd.taskSize) : debt (State.apply (Function.update s i t') i e) j ≤ debt s j := by
  have hnone : (s i).poll.uninformed = none := by rw [hidle]; rfl
  have hsent : ∀ pc : Pc, (s i).pc = pc → pc ≠ .sent → (s i).pc ≠ .sent := fun _ h hne => h ▸ hne
  cases hm with
  | fence site hpc =>
      exact debt_alone rfl rfl rfl hnone.symm (hsent _ hpc fun hs => by cases hs)
        fun hs => by cases hs
  | read site hpc =>
      exact debt_alone rfl rfl rfl rfl (hsent _ hpc fun hs => by cases hs) fun hs => by cases hs
  | reduce site hpc =>
      exact debt_alone rfl rfl rfl rfl (hsent _ hpc fun hs => by cases hs) fun hs => by cases hs
  | enter new hpc =>
      exact debt_alone rfl rfl rfl hnone.symm (hsent _ hpc fun hs => by cases hs)
        fun hs => by cases hs
  | decide new b hpc =>
      exact debt_alone rfl rfl rfl hnone.symm (hsent _ hpc fun hs => by cases hs)
        fun hs => by cases hs
  | flag hpc =>
      -- the flag takes the place of the report
      have hp := h.polite_sent hpc
      refine debt_step (m := 0) (apply_stepped s i _ _ hp.other) ?_
      have hi := (h.inner i).sent hpc
      have hbody : Pc.body ≠ .sent := fun hs => by cases hs
      have hopens : (Effect.accumulate cd.head).opens ≠ some j := fun hn => by cases hn
      have hcloses : (Effect.accumulate cd.head).closes = some cd.head := rfl
      unfold share Effect.share
      rw [if_neg hi, if_neg hi, if_pos hpc, if_neg hbody, if_neg hopens, if_pos hcloses]

theorem Inv.debt_step (h : Inv s) (hfit : CountersFit s) {a : Action cd.taskSize}
    (hstep : step s a = some s') (j : Fin cd.taskSize) :
    debt s' j ≤ debt s j + if a.fails then 2 else 0 := by
  obtain ⟨⟨t', e⟩, hact, rfl⟩ := Option.map_eq_some_iff.mp hstep
  cases a with
  | next i =>
      simp only [act] at hact
      split_ifs at hact with hidle
      · exact h.debt_moved hidle (h.move hfit hact) j
      · have hroom := hfit i
        have howed := h.owed i
        have hshare := (h.checked hact).share (h.inner i) (by omega) (by omega) j
        exact ErrorReports.debt_step (apply_stepped s i t' e (h.polite_check hroom hact).other)
          hshare
  | assert i test =>
      simp only [act, ErrorReports.assert] at hact
      split_ifs at hact with hbody htest hhead
      · cases hact
        obtain ⟨hsent, hnone⟩ := quiet_of_body hbody
        exact Nat.le_add_right_of_le (debt_alone rfl rfl rfl hnone.symm hsent hsent)
      · cases hact
        obtain ⟨hsent, hnone⟩ := quiet_of_body hbody
        exact Nat.le_add_right_of_le (debt_alone rfl rfl rfl hnone.symm hsent hsent)
      · -- the report is counted, and its flag is still to come
        cases hact
        have ha := h.asserted_member hhead hbody.1 hbody.2
        have hfails : (Action.assert i test).fails = true := by
          cases test with
          | true => exact (htest rfl).elim
          | false => rfl
        rw [if_pos hfails]
        refine ErrorReports.debt_step (apply_stepped s i _ _ fun k hk => ?_)
          (share_asserted hbody _)
        exact hk.elim (ha.opens k) fun hk => by cases hk
  | complete i =>
      simp only [act, ErrorReports.complete] at hact
      split_ifs at hact with hbody
      cases hact
      obtain ⟨hsent, hnone⟩ := quiet_of_body hbody
      exact debt_alone rfl rfl rfl hnone.symm hsent fun hs => by cases hs

theorem fit_of_debt (h : ∀ j, debt s j + 1 < 2 ^ 32) : CountersFit s := by
  intro j
  have hj := h j
  unfold debt at hj
  omega

theorem guarded_of_debt (actions : List (Action cd.taskSize)) :
    ∀ s : State cd, Inv s → (∀ j, debt s j + 2 * actions.countP Action.fails + 1 < 2 ^ 32) →
      Runs.Guarded step (fun s _ => CountersFit s) s actions := by
  induction actions with
  | nil => exact fun _ _ _ => trivial
  | cons a actions ih =>
      intro s h hdebt s' hstep
      have hfit : CountersFit s := fit_of_debt fun j => by have := hdebt j; omega
      refine ⟨hfit, ih s' (step_inv s a s' h hfit hstep) fun j => ?_⟩
      -- a failed assertion takes its two from what the rest of the run may add
      have hj := hdebt j
      have hle := h.debt_step hfit hstep j
      rw [List.countP_cons] at hj
      split_ifs at hj hle <;> omega

/-- No counter overflows in a run with less than `2 ^ 31` failed assertions. -/
theorem counters_fit (cd : CD) (actions : List (Action cd.taskSize))
    (hfew : actions.countP Action.fails < 2 ^ 31) :
    Runs.Guarded step (fun s _ => CountersFit s) (start cd) actions := by
  refine guarded_of_debt actions _ (start_inv cd) fun j => ?_
  have hreports : reports (start cd) = 0 :=
    Finset.card_eq_zero.mpr (Finset.filter_eq_empty_iff.mpr fun i _ hs => by cases hs)
  have hdebt : debt (start cd) j = 0 := by
    unfold debt
    rw [hreports]
    rfl
  omega

theorem counters_fit_late_report :
    Runs.Guarded step (fun s _ => CountersFit s) (start two) (lateReport ++ turns answer) :=
  counters_fit two _ (by decide)

end CDRuntime.ErrorReports
