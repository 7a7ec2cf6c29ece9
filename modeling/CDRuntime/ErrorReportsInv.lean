import Mathlib.Algebra.BigOperators.Group.Finset.Piecewise
import CDRuntime.ErrorReportsTask

namespace CDRuntime.ErrorReports

variable {cd : CD} {n : ℕ}

/-- An assertion of some task failed in attempt `k`. -/
def Failed (s : State cd) (k : ℕ) : Prop := ∃ j, k ∈ (s j).failures

/-- How many reports and requests have been counted at `j` and are not in its mailbox yet. -/
def inFlight (s : State cd) (j : Fin cd.taskSize) : ℕ :=
  (Finset.univ.filter fun i => (s i).target cd = some j).card

structure Inv (s : State cd) : Prop where
  outer : ∀ i, Outer cd (Failed s) (s i)
  inner : ∀ i, Inner cd (Failed s) i (s i)
  meeting : Collectives.Meeting (fun j => (s j).collectives) (fun j => (s j).pc.waits = true)
  owed : ∀ j, (s j).owed + inFlight s j ≤ (s j).pendingFlag
  reported : ∀ x ∈ (s cd.head).eventFlag, (s cd.head).attempt ∈ (s x).failures
  kept : ∀ x, (s cd.head).attempt ∈ (s x).failures →
    (s x).pc = .sent ∨ x ∈ (s cd.head).eventFlag ∨
      (s cd.head).pc.beginning = false ∧ Alert cd (s cd.head)
  headGiven : ∀ r v, (s cd.head).given[r]? = some v → r % 2 = 1 → Failed s (r / 2) → v = cd.level
  reduced : ∀ i site new, (s i).pc = .merge site new → new = s.minGiven ((s i).round - 1)
  verdict : ∀ i k b, (s i).verdicts[k]? = some b → (b = true ↔ Failed s k)

/-- What becomes of task `j` when `i` has an effect. -/
def Effect.on (e : Effect n) (i j : Fin n) (t : Task n) : Task n :=
  { t with
    pendingFlag := if e.opens = some j then (t.pendingFlag + 1) % 2 ^ 32 else t.pendingFlag
    eventFlag := if e.closes = some j then insert i t.eventFlag else t.eventFlag }

/-- A step of `i` leads from `s` to `s'`. -/
structure Stepped (s s' : State cd) (i : Fin cd.taskSize) (t' : Task cd.taskSize)
    (e : Effect cd.taskSize) : Prop where
  self : s' i = t'
  other : ∀ j, j ≠ i → s' j = e.on i j (s j)

theorem apply_stepped (s : State cd) (i : Fin cd.taskSize) (t' : Task cd.taskSize)
    (e : Effect cd.taskSize) (hself : ∀ j, e.opens = some j ∨ e.closes = some j → j ≠ i) :
    Stepped s (State.apply (Function.update s i t') i e) i t' e := by
  cases e with
  | nothing =>
      refine ⟨Function.update_self _ _ _, fun j hj => ?_⟩
      exact Function.update_of_ne hj _ _
  | increment k =>
      have hk : k ≠ i := hself k (Or.inl rfl)
      refine ⟨?_, fun j hj => ?_⟩
      · rw [State.apply, Function.update_of_ne hk.symm, Function.update_self]
      · by_cases hjk : j = k
        · subst hjk
          simp [State.apply, Function.update_of_ne hj, Effect.on, Effect.opens, Effect.closes,
            Task.incPendingCounter]
        · simp [State.apply, Function.update_of_ne hj, Function.update_of_ne hjk, Effect.on,
            Effect.opens, Effect.closes, Ne.symm hjk]
  | accumulate k =>
      have hk : k ≠ i := hself k (Or.inr rfl)
      refine ⟨?_, fun j hj => ?_⟩
      · rw [State.apply, Function.update_of_ne hk.symm, Function.update_self]
      · by_cases hjk : j = k
        · subst hjk
          simp [State.apply, Function.update_of_ne hj, Effect.on, Effect.opens, Effect.closes]
        · simp [State.apply, Function.update_of_ne hj, Function.update_of_ne hjk, Effect.on,
            Effect.opens, Effect.closes, Ne.symm hjk]

section Effects

variable {failed : ℕ → Prop}

theorem Outer.on {i j : Fin n} {t : Task n} (e : Effect n) (h : Outer cd failed t) :
    Outer cd failed (e.on i j t) where
  slot := h.slot
  rounds := h.rounds
  given := h.given
  past := h.past
  sent := h.sent
  decided := h.decided

theorem subset_on {i j : Fin n} {t : Task n} (e : Effect n) :
    t.eventFlag ⊆ (e.on i j t).eventFlag := by
  change t.eventFlag ⊆ if e.closes = some j then insert i t.eventFlag else t.eventFlag
  split_ifs
  · exact Finset.subset_insert _ _
  · exact Finset.Subset.refl _

theorem mem_on {i j x : Fin n} {t : Task n} {e : Effect n} (h : x ∈ (e.on i j t).eventFlag) :
    x ∈ t.eventFlag ∨ e.closes = some j ∧ x = i := by
  change x ∈ if e.closes = some j then insert i t.eventFlag else t.eventFlag at h
  split_ifs at h with hc
  · rcases Finset.mem_insert.mp h with rfl | h
    · exact Or.inr ⟨hc, rfl⟩
    · exact Or.inl h
  · exact Or.inl h

variable {i j : Fin cd.taskSize} {t : Task cd.taskSize} {e : Effect cd.taskSize}

theorem Inner.on (h : Inner cd failed j t)
    (hmember : e.closes = some j → j ≠ cd.head → failed t.attempt)
    (hhead : e.closes = some j → j = cd.head → t.pc.slot ≠ 3) :
    Inner cd failed j (e.on i j t) where
  polling := h.polling
  checks := h.checks
  busy := h.busy
  subtracts := h.subtracts
  error := h.error
  sending := h.sending
  remote := h.remote
  copied senders hs := ⟨(h.copied senders hs).1,
    fun x hx => subset_on e ((h.copied senders hs).2.1 x hx), (h.copied senders hs).2.2⟩
  member := h.member
  sent := h.sent
  queue := h.queue
  flags hj x hx := by
    rcases mem_on hx with hx | ⟨hc, -⟩
    · exact h.flags hj x hx
    · exact Or.inl (hmember hc hj)
  cell := h.cell
  drained hj hslot x hx := by
    rcases mem_on hx with hx | ⟨hc, -⟩
    · exact h.drained hj hslot x hx
    · exact (hhead hc hj hslot).elim

end Effects

section Facts

variable {s s' : State cd} {i j x : Fin cd.taskSize} {t' : Task cd.taskSize}
  {e : Effect cd.taskSize}

theorem inFlight_step (hst : Stepped s s' i t' e)
    (htarget : (s i).target cd = e.closes ∧ t'.target cd = e.opens) (j : Fin cd.taskSize) :
    inFlight s' j + (if e.closes = some j then 1 else 0) =
      inFlight s j + if e.opens = some j then 1 else 0 := by
  have hrest : ∀ k ∈ Finset.univ.erase i,
      (if (s' k).target cd = some j then 1 else 0) = if (s k).target cd = some j then 1 else 0 := by
    intro k hk
    rw [hst.other k (Finset.ne_of_mem_erase hk)]
    rfl
  have hsplit : ∀ u : State cd, inFlight u j = (if (u i).target cd = some j then 1 else 0) +
      ∑ k ∈ Finset.univ.erase i, if (u k).target cd = some j then 1 else 0 := by
    intro u
    rw [inFlight, Finset.card_filter]
    exact (Finset.add_sum_erase _ (fun k => if (u k).target cd = some j then 1 else 0)
      (Finset.mem_univ i)).symm
  rw [hsplit s', hsplit s, Finset.sum_congr rfl hrest, hst.self, htarget.1, htarget.2]
  omega

theorem failed_congr (h : ∀ j, (s' j).failures = (s j).failures) : Failed s' = Failed s := by
  funext k
  simp only [Failed, h]

theorem minGiven_congr (h : ∀ j, (s' j).given = (s j).given) (r : ℕ) :
    s'.minGiven r = s.minGiven r := by
  simp only [State.minGiven, h]

theorem Pc.beginning_of_slot {pc : Pc} (h : 2 ≤ pc.slot) (hm : ∀ site new, pc ≠ .merge site new) :
    pc.beginning = false := by
  cases pc with
  | check1 site => cases site <;> first | rfl | exact absurd h (by decide)
  | check2 site => cases site <;> first | rfl | exact absurd h (by decide)
  | fence site => cases site <;> first | rfl | exact absurd h (by decide)
  | check3 site => cases site <;> first | rfl | exact absurd h (by decide)
  | read site => cases site <;> first | rfl | exact absurd h (by decide)
  | reduce site => cases site <;> first | rfl | exact absurd h (by decide)
  | merge site new => exact (hm site new rfl).elim
  | body => rfl
  | sent => rfl

variable (h : Inv s)
include h

theorem Inv.outside (hw : (s i).pc.waits = false) (j : Fin cd.taskSize) :
    (s j).collectives ≤ (s i).collectives ∧ (s i).collectives ≤ (s j).collectives + 1 :=
  ⟨h.meeting.le_of_outside (fun hi => by rw [hw] at hi; cases hi) j, h.meeting.le_succ i j⟩

theorem Inv.slot_of_failed (hw : (s i).pc.waits = false)
    (hx : (s i).attempt ∈ (s x).failures) : 2 ≤ (s i).pc.slot := by
  have hpast := (h.outer x).past _ hx
  have hle := (h.outside hw x).1
  rw [← (h.outer i).slot]
  unfold Task.attempt at hpast
  omega

theorem Inv.head_of_body (hslot : (s j).pc.slot = 2) (hw : (s j).pc.waits = false) :
    (s cd.head).attempt = (s j).attempt ∧ (s cd.head).pc.slot ≠ 3 := by
  have hout := h.outside hw cd.head
  have hj := (h.outer j).slot
  have hh := (h.outer cd.head).slot
  unfold Task.attempt
  omega

theorem Inv.attempt_of_sender (hw : (s cd.head).pc.waits = false)
    (hx : (s cd.head).attempt ∈ (s x).failures) (j : Fin cd.taskSize) :
    (s j).attempt = (s cd.head).attempt := by
  have hslot := h.slot_of_failed hw hx
  have hout := h.outside hw j
  have hh := (h.outer cd.head).slot
  unfold Task.attempt
  omega

end Facts

/-- What the step of a task owes the others. -/
structure Polite (s : State cd) (i : Fin cd.taskSize) (t' : Task cd.taskSize)
    (e : Effect cd.taskSize) : Prop where
  quiet : Quiet (s i) t'
  inner : Inner cd (Failed s) i t'
  owed : t'.owed + (s i).pendingFlag ≤ (s i).owed + t'.pendingFlag
  target : (s i).target cd = e.closes ∧ t'.target cd = e.opens
  other : ∀ j, e.opens = some j ∨ e.closes = some j → j ≠ i
  member : ∀ j, e.closes = some j → j ≠ cd.head → Failed s (s j).attempt
  head : e.closes = some cd.head → (s cd.head).pc.slot ≠ 3 ∧
    (s cd.head).attempt ∈ (s i).failures
  flags : t'.eventFlag ⊆ (s i).eventFlag
  read : ∀ x ∈ (s i).eventFlag, x ∈ t'.eventFlag ∨ t'.cdEvent ≠ []
  alert : Alert cd (s i) → Alert cd t'
  sent : (s i).pc = .sent → e.closes = some cd.head

section Polite

variable {s s' : State cd} {i : Fin cd.taskSize} {t' : Task cd.taskSize} {e : Effect cd.taskSize}

theorem owed_step (hst : Stepped s s' i t' e)
    (htarget : (s i).target cd = e.closes ∧ t'.target cd = e.opens)
    (hself : ∀ j, e.opens = some j ∨ e.closes = some j → j ≠ i)
    (howed : t'.owed + (s i).pendingFlag ≤ (s i).owed + t'.pendingFlag)
    (hroom : ∀ j, (s j).pendingFlag + 1 < 2 ^ 32)
    (h : ∀ j, (s j).owed + inFlight s j ≤ (s j).pendingFlag) (j : Fin cd.taskSize) :
    (s' j).owed + inFlight s' j ≤ (s' j).pendingFlag := by
  have hflight := inFlight_step hst htarget j
  have hj := h j
  by_cases hji : j = i
  · subst hji
    rw [if_neg (fun hc => hself j (Or.inr hc) rfl), if_neg (fun ho => hself j (Or.inl ho) rfl)]
      at hflight
    rw [hst.self]
    omega
  · rw [hst.other j hji]
    have hpending : (e.on i j (s j)).pendingFlag =
        (s j).pendingFlag + if e.opens = some j then 1 else 0 := by
      change (if e.opens = some j then ((s j).pendingFlag + 1) % 2 ^ 32 else _) = _
      split_ifs
      · exact Nat.mod_eq_of_lt (hroom j)
      · rfl
    have hcard : (e.on i j (s j)).owed ≤
        (s j).owed + if e.closes = some j then 1 else 0 := by
      change (s j).handledEventCount + (s j).cdEvent.length +
        (if e.closes = some j then insert i (s j).eventFlag else (s j).eventFlag).card ≤ _
      rw [Task.owed]
      split_ifs
      · have := Finset.card_insert_le i (s j).eventFlag
        omega
      · omega
    omega

theorem Inv.polite (h : Inv s) (hp : Polite s i t' e) (hst : Stepped s s' i t' e)
    (hroom : ∀ j, (s j).pendingFlag + 1 < 2 ^ 32) : Inv s' := by
  have hq := hp.quiet
  have hfailures : ∀ j, (s' j).failures = (s j).failures := by
    intro j
    by_cases hji : j = i
    · rw [hji, hst.self, hq.failures]
    · rw [hst.other j hji]
      rfl
  have hgiven : ∀ j, (s' j).given = (s j).given := by
    intro j
    by_cases hji : j = i
    · rw [hji, hst.self, hq.given]
    · rw [hst.other j hji]
      rfl
  have hcollectives : ∀ j, (s' j).collectives = (s j).collectives := by
    intro j
    by_cases hji : j = i
    · rw [hji, hst.self, hq.collectives]
    · rw [hst.other j hji]
      rfl
  have hfailed : Failed s' = Failed s := failed_congr hfailures
  have hattempt : ∀ j, (s' j).attempt = (s j).attempt := fun j => by
    rw [Task.attempt, hcollectives, Task.attempt]
  constructor
  · intro j
    rw [hfailed]
    by_cases hji : j = i
    · rw [hji, hst.self]
      exact hq.outer (h.outer i)
    · rw [hst.other j hji]
      exact (h.outer j).on e
  · intro j
    rw [hfailed]
    by_cases hji : j = i
    · rw [hji, hst.self]
      exact hp.inner
    · rw [hst.other j hji]
      refine (h.inner j).on (hp.member j) fun hc hj => ?_
      subst hj
      exact (hp.head hc).1
  · refine h.meeting.work (i := i) (fun hw => ?_) hcollectives fun j hj hw => ?_
    · rw [hq.waits] at hw
      cases hw
    · rw [hst.other j hj]
      exact hw
  · exact owed_step hst hp.target hp.other hp.owed hroom h.owed
  · intro x hx
    rw [hattempt, hfailures]
    by_cases hi : cd.head = i
    · rw [hi, hst.self] at hx
      rw [hi]
      have hreported := h.reported x
      rw [hi] at hreported
      exact hreported (hp.flags hx)
    · rw [hst.other _ hi] at hx
      rcases mem_on hx with hx | ⟨hc, rfl⟩
      · exact h.reported x hx
      · exact (hp.head hc).2
  · intro x hx
    rw [hattempt, hfailures] at hx
    rcases h.kept x hx with hsent | hflag | ⟨hbeg, halert⟩
    · by_cases hxi : x = i
      · -- the sender has set its flag
        subst hxi
        have hc := hp.sent hsent
        rw [hst.other _ (hp.other _ (Or.inr hc))]
        right; left
        change x ∈ if e.closes = some cd.head then insert x (s cd.head).eventFlag else _
        rw [if_pos hc]
        exact Finset.mem_insert_self _ _
      · left
        rw [hst.other x hxi]
        exact hsent
    · right
      by_cases hi : cd.head = i
      · have hread := hp.read
        have hslot := h.slot_of_failed (x := x) hq.waits
        rw [← hi] at hread hslot
        rw [hi, hst.self]
        refine (hread x hflag).imp_right fun hne => ⟨?_, Or.inl hne⟩
        rw [hq.beginning, ← hi]
        apply Pc.beginning_of_slot (hslot hx)
        rw [hi]
        exact hq.merge
      · left
        rw [hst.other _ hi]
        exact subset_on e hflag
    · right; right
      by_cases hi : cd.head = i
      · rw [hi] at hbeg halert ⊢
        rw [hst.self, hq.beginning]
        exact ⟨hbeg, hp.alert halert⟩
      · rw [hst.other _ hi]
        exact ⟨hbeg, halert⟩
  · intro r v hv hr hf
    rw [hgiven] at hv
    rw [hfailed] at hf
    exact h.headGiven r v hv hr hf
  · intro j site new hj
    rw [minGiven_congr hgiven, Task.round, hcollectives]
    by_cases hji : j = i
    · rw [hji, hst.self] at hj
      exact (hq.merge' site new hj).elim
    · rw [hst.other j hji] at hj
      exact h.reduced j site new hj
  · intro j k b hk
    rw [hfailed]
    by_cases hji : j = i
    · rw [hji, hst.self, hq.verdicts] at hk
      exact h.verdict i k b hk
    · rw [hst.other j hji] at hk
      exact h.verdict j k b hk

end Polite

end CDRuntime.ErrorReports
