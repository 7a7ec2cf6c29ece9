import CDRuntime.ErrorReportsInv

namespace CDRuntime.ErrorReports

variable {cd : CD} {s s' : State cd} {i : Fin cd.taskSize} {t' : Task cd.taskSize}
  {e : Effect cd.taskSize}

/-- With a counter of zero there are no flags. -/
theorem Inv.checked (h : Inv s) (hstep : checkMailBox cd i (s i) = some (t', e)) :
    Check cd i (s i) t' e := by
  have howed := h.owed i
  refine (h.inner i).check (fun hzero => ?_) hstep
  unfold Task.owed at howed
  exact Finset.card_eq_zero.mp (by omega)

theorem Inv.polite_check (h : Inv s) (hroom : (s i).pendingFlag + 1 < 2 ^ 32)
    (hstep : checkMailBox cd i (s i) = some (t', e)) : Polite s i t' e := by
  have hi := h.inner i
  have howed := h.owed i
  have hc := h.checked hstep
  have hfail : i = cd.head → ∀ x ∈ (s i).eventFlag, Failed s (s i).attempt := by
    rintro rfl x hx
    exact ⟨x, h.reported x hx⟩
  have hq := hc.quiet hi
  constructor
  · exact hq
  · exact hc.inner hi hfail
  · exact hc.owed hi (by omega) hroom
  · exact hc.target hi
  · intro j hj
    exact (hc.sender hi hj).2.1
  · intro j hj _
    obtain ⟨hhead, -, x, hx⟩ := hc.sender hi (Or.inr hj)
    subst hhead
    exact ⟨x, (h.attempt_of_sender hq.waits hx j) ▸ hx⟩
  · intro hj
    obtain ⟨hhead, hne, -⟩ := hc.sender hi (Or.inr hj)
    exact (hne hhead.symm).elim
  · exact hc.flags_subset
  · intro x hx
    exact hc.flag_kept hi hx
  · exact hc.alert hi
  · intro hsent
    have hpolls := hi.polling hc.poll_ne_idle
    rw [hsent] at hpolls
    cases hpolls

/-- From the body, or from the end of a report, to a check. -/
theorem Inner.enter {failed : ℕ → Prop} {t : Task cd.taskSize} (h : Inner cd failed i t)
    (hidle : t.poll = .idle) (hstale : t.pc.stale = false) (hbeg : t.pc.beginning = false) {pc : Pc}
    (hpolls : pc.polls = true) (hslot : pc.slot = 2) :
    Inner cd failed i { t with pc := pc, poll := .entered } where
  polling _ := hpolls
  checks hp := by cases hp
  busy _ := h.busy (by rw [hidle]; rfl)
  subtracts := rfl
  error := h.error
  sending _ hs := by cases hs
  remote _ _ _ hs := by cases hs
  copied _ hs := by cases hs
  member := h.member
  sent hs := by
    change pc = .sent at hs
    rw [hs] at hpolls
    cases hpolls
  queue hq := (hq (h.busy (by rw [hidle]; rfl)).1).elim
  flags hi x hx := by
    refine (h.flags hi x hx).imp_right fun hs => ?_
    rw [hstale] at hs
    cases hs.1
  cell := by
    refine h.cell.imp_right fun hl => ⟨hl.1, hl.2.imp_right fun hb => ?_⟩
    rw [hbeg] at hb
    cases hb
  drained _ hs := by
    change pc.slot = 3 at hs
    omega

theorem Inv.idle_of_not_polls (h : Inv s) (hpc : (s i).pc.polls = false) : (s i).poll = .idle := by
  by_contra hne
  have hpolls := (h.inner i).polling hne
  rw [hpc] at hpolls
  cases hpolls

theorem Inv.polite_body (h : Inv s) (hpc : (s i).pc = .body) (hidle : (s i).poll = .idle) {pc : Pc}
    (hbody : pc = .body ∨ pc = .check1 .completeCD) :
    Polite s i { s i with pc := pc, poll := .entered } .nothing := by
  have hpolls : pc.polls = true := by rcases hbody with rfl | rfl <;> rfl
  have hslot : pc.slot = 2 := by rcases hbody with rfl | rfl <;> rfl
  have hbeg : pc.beginning = false := by rcases hbody with rfl | rfl <;> rfl
  have hsent : pc ≠ .sent := by
    rintro rfl
    cases hpolls
  constructor
  · exact {
      collectives := rfl
      given := rfl
      failures := rfl
      verdicts := rfl
      waits := by rw [hpc]; rfl
      merge := by rw [hpc]; exact fun _ _ h => by cases h
      gave := Pc.gave_of_not_waits (Pc.not_waits_of_polls hpolls)
      merge' := Pc.ne_merge_of_polls hpolls
      slot := by rw [hpc]; exact hslot
      beginning := by rw [hpc]; exact hbeg
      sent := fun hs => (hsent hs).elim }
  · exact (h.inner i).enter hidle (by rw [hpc]; rfl) (by rw [hpc]; rfl) hpolls hslot
  · exact Nat.le_refl _
  · refine ⟨target_of_ne_flagging ?_ ?_, target_of_ne_flagging ?_ hsent⟩
    · rw [hidle]
      exact fun _ _ _ h => by cases h
    · rw [hpc]
      exact fun h => by cases h
    · exact fun _ _ _ h => by cases h
  · rintro j (hj | hj) <;> cases hj
  · intro j hj
    cases hj
  · intro hj
    cases hj
  · exact Finset.Subset.refl _
  · exact fun x hx => Or.inl hx
  · exact id
  · intro hs
    rw [hpc] at hs
    cases hs

theorem Inv.polite_sent (h : Inv s) (hpc : (s i).pc = .sent) :
    Polite s i { s i with pc := .body, poll := .entered } (.accumulate cd.head) := by
  have hidle := h.idle_of_not_polls (i := i) (by rw [hpc]; rfl)
  have hhead := (h.inner i).sent hpc
  have hbody := h.head_of_body (j := i) (by rw [hpc]; rfl) (by rw [hpc]; rfl)
  constructor
  · exact {
      collectives := rfl
      given := rfl
      failures := rfl
      verdicts := rfl
      waits := by rw [hpc]; rfl
      merge := by rw [hpc]; exact fun _ _ h => by cases h
      gave := rfl
      merge' := fun _ _ h => by cases h
      slot := by rw [hpc]; rfl
      beginning := by rw [hpc]; rfl
      sent := fun _ => hpc }
  · exact (h.inner i).enter hidle (by rw [hpc]; rfl) (by rw [hpc]; rfl) rfl rfl
  · exact Nat.le_refl _
  · refine ⟨?_, target_of_ne_flagging (fun _ _ _ h => by cases h) (fun h => by cases h)⟩
    rw [Task.target, hidle]
    exact if_pos hpc
  · rintro j (hj | hj)
    · cases hj
    · cases hj
      exact hhead.symm
  · intro j hj hne
    cases hj
    exact (hne rfl).elim
  · intro _
    exact ⟨hbody.2, hbody.1 ▸ (h.outer i).sent hpc⟩
  · exact Finset.Subset.refl _
  · exact fun x hx => Or.inl hx
  · exact id
  · intro _
    rfl

theorem Stepped.eq_of_ne (hst : Stepped s s' i t' .nothing) {j : Fin cd.taskSize} (hj : j ≠ i) :
    s' j = s j := by
  rw [hst.other j hj]
  simp [Effect.on, Effect.opens, Effect.closes]

/-- What the new state of a task has to satisfy when nothing else changes and no assertion has
failed. -/
structure Alone (s s' : State cd) (i : Fin cd.taskSize) (t' : Task cd.taskSize) : Prop where
  failures : t'.failures = (s i).failures
  outer : Outer cd (Failed s) t'
  inner : Inner cd (Failed s) i t'
  meeting : Collectives.Meeting (fun j => (s' j).collectives) (fun j => (s' j).pc.waits = true)
  owed : t'.owed = (s i).owed
  pending : t'.pendingFlag = (s i).pendingFlag
  target : (s i).target cd = none ∧ t'.target cd = none
  sent : (s i).pc ≠ .sent
  reported : i = cd.head → ∀ x ∈ t'.eventFlag, t'.attempt ∈ (s x).failures
  kept : i = cd.head → ∀ x, t'.attempt ∈ (s x).failures →
    (s x).pc = .sent ∨ x ∈ t'.eventFlag ∨ t'.pc.beginning = false ∧ Alert cd t'
  headGiven : i = cd.head →
    ∀ r v, t'.given[r]? = some v → r % 2 = 1 → Failed s (r / 2) → v = cd.level
  reduced : ∀ site new, t'.pc = .merge site new → new = s'.minGiven (t'.round - 1)
  unreduced : ∀ j, j ≠ i → ∀ site new, (s j).pc = .merge site new →
    s'.minGiven ((s j).round - 1) = s.minGiven ((s j).round - 1)
  verdict : ∀ k b, t'.verdicts[k]? = some b → (b = true ↔ Failed s k)

theorem Inv.alone (h : Inv s) (hst : Stepped s s' i t' .nothing) (ha : Alone s s' i t')
    (hroom : ∀ j, (s j).pendingFlag + 1 < 2 ^ 32) : Inv s' := by
  have hsame : ∀ j, j ≠ i → s' j = s j := fun j hj => hst.eq_of_ne hj
  have hfailures : ∀ j, (s' j).failures = (s j).failures := by
    intro j
    by_cases hji : j = i
    · rw [hji, hst.self, ha.failures]
    · rw [hsame j hji]
  have hfailed : Failed s' = Failed s := failed_congr hfailures
  constructor
  · intro j
    rw [hfailed]
    by_cases hji : j = i
    · rw [hji, hst.self]
      exact ha.outer
    · rw [hsame j hji]
      exact h.outer j
  · intro j
    rw [hfailed]
    by_cases hji : j = i
    · rw [hji, hst.self]
      exact ha.inner
    · rw [hsame j hji]
      exact h.inner j
  · exact ha.meeting
  · refine owed_step hst ha.target (fun j hj => by rcases hj with hj | hj <;> cases hj) ?_ hroom
      h.owed
    rw [ha.owed, ha.pending]
  · intro x hx
    rw [hfailures]
    by_cases hi : cd.head = i
    · rw [hi, hst.self] at hx ⊢
      exact ha.reported hi.symm x hx
    · rw [hsame _ hi] at hx ⊢
      exact h.reported x hx
  · intro x hx
    rw [hfailures] at hx
    have hsent : (s x).pc = .sent → (s' x).pc = .sent := by
      intro hs
      have hxi : x ≠ i := by
        rintro rfl
        exact ha.sent hs
      rw [hsame x hxi]
      exact hs
    by_cases hi : cd.head = i
    · rw [hi, hst.self] at hx ⊢
      exact (ha.kept hi.symm x hx).imp_left hsent
    · rw [hsame _ hi] at hx ⊢
      exact (h.kept x hx).imp_left hsent
  · intro r v hv hr hf
    rw [hfailed] at hf
    by_cases hi : cd.head = i
    · rw [hi, hst.self] at hv
      exact ha.headGiven hi.symm r v hv hr hf
    · rw [hsame _ hi] at hv
      exact h.headGiven r v hv hr hf
  · intro j site new hj
    by_cases hji : j = i
    · rw [hji, hst.self] at hj ⊢
      exact ha.reduced site new hj
    · rw [hsame j hji] at hj ⊢
      rw [ha.unreduced j hji site new hj]
      exact h.reduced j site new hj
  · intro j k b hk
    rw [hfailed]
    by_cases hji : j = i
    · rw [hji, hst.self] at hk
      exact ha.verdict k b hk
    · rw [hsame j hji] at hk
      exact h.verdict j k b hk

/-- A task between two checks has nothing in its queue. -/
theorem Inv.idle (h : Inv s) (hpc : (s i).pc.polls = false) :
    (s i).poll = .idle ∧ (s i).cdEvent = [] ∧ (s i).handledEventCount = 0 := by
  have hidle := h.idle_of_not_polls hpc
  exact ⟨hidle, (h.inner i).busy (by rw [hidle]; rfl)⟩

theorem target_of_idle {t : Task cd.taskSize} (hidle : t.poll = .idle) (hpc : t.pc ≠ .sent) :
    t.target cd = none := by
  refine target_of_ne_flagging ?_ hpc
  rw [hidle]
  exact fun _ _ _ h => by cases h

theorem Inv.kept_of_beginning (h : Inv s) {t : Task cd.taskSize}
    (hattempt : t.attempt = (s cd.head).attempt) (hflags : t.eventFlag = (s cd.head).eventFlag)
    (hbeg : (s cd.head).pc.beginning = true) (x : Fin cd.taskSize)
    (hx : t.attempt ∈ (s x).failures) : (s x).pc = .sent ∨ x ∈ t.eventFlag := by
  rw [hattempt] at hx
  rw [hflags]
  rcases h.kept x hx with hs | hf | ⟨hb, -⟩
  · exact Or.inl hs
  · exact Or.inr hf
  · rw [hbeg] at hb
    cases hb

theorem Inv.alone_fence (h : Inv s) {site : Site} (hpc : (s i).pc = .fence site)
    (hall : s.entered (s i).collectives)
    (hst : Stepped s s' i { s i with
      pc := .check3 site, poll := .entered, collectives := (s i).collectives + 1 } .nothing) :
    Alone s s' i { s i with
      pc := .check3 site, poll := .entered, collectives := (s i).collectives + 1 } := by
  obtain ⟨hidle, hempty, hhandled⟩ := h.idle (i := i) (by rw [hpc]; rfl)
  have houter := h.outer i
  have hinner := h.inner i
  have hbase : (s i).collectives % 4 = site.base := by rw [houter.slot, hpc]; rfl
  have hsite : site.base = 0 ∨ site.base = 2 := by cases site <;> decide
  have hattempt : ((s i).collectives + 1) / 4 = (s i).collectives / 4 := by omega
  have hround : ((s i).collectives + 1) / 2 = (s i).collectives / 2 := by omega
  have hbeg : (Pc.check3 site).beginning = (s i).pc.beginning := by rw [hpc]; rfl
  constructor
  · rfl
  · constructor
    · change ((s i).collectives + 1) % 4 = site.base + 1
      omega
    · have hrounds := houter.rounds
      rw [hpc] at hrounds
      change (s i).given.length = ((s i).collectives + 1) / 2 + 0
      rw [hround]
      exact hrounds
    · exact houter.given
    · exact fun k hk => Nat.le_succ_of_le (houter.past k hk)
    · exact fun hs => by cases hs
    · have hdecided := houter.decided
      rw [hpc] at hdecided
      change (s i).verdicts.length + 0 = ((s i).collectives + 1) / 4
      rw [hattempt]
      exact hdecided
  · constructor
    · exact fun _ => rfl
    · exact fun hp => by cases hp
    · exact fun _ => ⟨hempty, hhandled⟩
    · rfl
    · exact hinner.error
    · exact fun _ hs => by cases hs
    · exact fun _ _ _ hs => by cases hs
    · exact fun _ hs => by cases hs
    · exact hinner.member
    · exact fun hs => by cases hs
    · exact fun hq => (hq hempty).elim
    · intro hi x hx
      change Failed s (((s i).collectives + 1) / 4) ∨ _
      rw [hattempt]
      refine Or.inl ((hinner.flags hi x hx).resolve_right fun hs => ?_)
      rw [hpc] at hs
      cases hs.1
    · change _ ∨ _ ∧ (Failed s (((s i).collectives + 1) / 4) ∨ (Pc.check3 site).beginning = true)
      rw [hattempt, hbeg]
      exact hinner.cell
    · intro _ hs x _
      cases site with
      | beginCD => cases hs
      | completeCD => exact ⟨rfl, trivial⟩
  · refine h.meeting.leave (i := i) hall ?_ ?_ ?_
    · rw [hst.self]
    · intro j hj
      rw [hst.eq_of_ne hj]
    · intro j hj hw
      rw [hst.eq_of_ne hj]
      exact hw
  · rfl
  · rfl
  · exact ⟨target_of_idle hidle (by rw [hpc]; exact fun h => by cases h),
      target_of_ne_flagging (fun _ _ _ h => by cases h) (fun h => by cases h)⟩
  · rw [hpc]
    exact fun h => by cases h
  · rintro rfl x hx
    change ((s cd.head).collectives + 1) / 4 ∈ _
    rw [hattempt]
    exact h.reported x hx
  · rintro rfl x hx
    change ((s cd.head).collectives + 1) / 4 ∈ _ at hx
    rw [hattempt] at hx
    change _ ∨ _ ∨ (Pc.check3 site).beginning = false ∧ _
    rw [hbeg]
    exact h.kept x hx
  · rintro rfl
    exact h.headGiven
  · exact fun _ _ hs => by cases hs
  · intro j hj site new hm
    apply minGiven_congr
    intro k
    by_cases hk : k = i
    · rw [hk, hst.self]
    · rw [hst.eq_of_ne hk]
  · exact h.verdict i

theorem Inv.alone_reduce (h : Inv s) {site : Site} (hpc : (s i).pc = .reduce site)
    (hall : s.entered (s i).collectives)
    (hst : Stepped s s' i { s i with
      pc := .merge site (s.minGiven (s i).round), collectives := (s i).collectives + 1 }
      .nothing) :
    Alone s s' i { s i with
      pc := .merge site (s.minGiven (s i).round), collectives := (s i).collectives + 1 } := by
  obtain ⟨hidle, hempty, hhandled⟩ := h.idle (i := i) (by rw [hpc]; rfl)
  have houter := h.outer i
  have hinner := h.inner i
  have hbase : (s i).collectives % 4 = site.base + 1 := by rw [houter.slot, hpc]; rfl
  have hsite : site.base = 0 ∨ site.base = 2 := by cases site <;> decide
  have hround : ((s i).collectives + 1) / 2 = (s i).collectives / 2 + 1 := by omega
  have hgiven : ∀ j, (s' j).given = (s j).given := by
    intro j
    by_cases hj : j = i
    · rw [hj, hst.self]
    · rw [hst.eq_of_ne hj]
  constructor
  · rfl
  · constructor
    · change ((s i).collectives + 1) % 4 = (site.base + 2) % 4
      omega
    · have hrounds := houter.rounds
      rw [hpc] at hrounds
      change (s i).given.length = ((s i).collectives + 1) / 2 + 0
      rw [hround]
      exact hrounds
    · exact houter.given
    · exact fun k hk => Nat.le_succ_of_le (houter.past k hk)
    · exact fun hs => by cases hs
    · have hdecided := houter.decided
      rw [hpc] at hdecided
      change (s i).verdicts.length + 0 = (s i).collectives / 4 at hdecided
      cases site with
      | beginCD =>
          change (s i).collectives % 4 = 1 at hbase
          change (s i).verdicts.length + 0 = ((s i).collectives + 1) / 4
          omega
      | completeCD =>
          change (s i).collectives % 4 = 3 at hbase
          change (s i).verdicts.length + 1 = ((s i).collectives + 1) / 4
          omega
  · constructor
    · exact fun hne => (hne hidle).elim
    · exact fun _ hp => by cases hp
    · exact fun _ => ⟨hempty, hhandled⟩
    · exact hinner.subtracts
    · exact hinner.error
    · exact hinner.sending
    · exact hinner.remote
    · exact hinner.copied
    · exact hinner.member
    · exact fun hs => by cases hs
    · exact fun hq => (hq hempty).elim
    · intro hi x hx
      cases site with
      | beginCD =>
          change (s i).collectives % 4 = 1 at hbase
          have hattempt : ((s i).collectives + 1) / 4 = (s i).collectives / 4 := by omega
          change Failed s (((s i).collectives + 1) / 4) ∨ _
          rw [hattempt]
          refine Or.inl ((hinner.flags hi x hx).resolve_right fun hs => ?_)
          rw [hpc] at hs
          cases hs.1
      | completeCD =>
          -- what the member has not read yet is from the attempt that ends here
          refine Or.inr ⟨rfl, ?_⟩
          change (s i).poll.reaches x
          rw [hidle]
          trivial
    · exact hinner.cell.imp_right fun hl => ⟨hl.1, Or.inr rfl⟩
    · intro _ hs
      cases site <;> cases hs
  · refine h.meeting.leave (i := i) hall ?_ ?_ ?_
    · rw [hst.self]
    · intro j hj
      rw [hst.eq_of_ne hj]
    · intro j hj hw
      rw [hst.eq_of_ne hj]
      exact hw
  · rfl
  · rfl
  · exact ⟨target_of_idle hidle (by rw [hpc]; exact fun h => by cases h),
      target_of_idle hidle (fun h => by cases h)⟩
  · rw [hpc]
    exact fun h => by cases h
  · rintro rfl x hx
    cases site with
    | beginCD =>
        change (s cd.head).collectives % 4 = 1 at hbase
        have hattempt : ((s cd.head).collectives + 1) / 4 = (s cd.head).collectives / 4 := by omega
        change ((s cd.head).collectives + 1) / 4 ∈ _
        rw [hattempt]
        exact h.reported x hx
    | completeCD =>
        have hdrained := (hinner.drained rfl (by rw [hpc]; rfl) x hx).1
        rw [hpc] at hdrained
        cases hdrained
  · rintro rfl x hx
    change ((s cd.head).collectives + 1) / 4 ∈ _ at hx
    cases site with
    | beginCD =>
        change (s cd.head).collectives % 4 = 1 at hbase
        have hattempt : ((s cd.head).collectives + 1) / 4 = (s cd.head).collectives / 4 := by omega
        exact (h.kept_of_beginning (t := { s cd.head with
            pc := .merge .beginCD 0, collectives := (s cd.head).collectives + 1 })
          hattempt rfl (by rw [hpc]; rfl) x hx).imp_right Or.inl
    | completeCD =>
        -- nobody can have got into the body of the next attempt
        change (s cd.head).collectives % 4 = 3 at hbase
        have hpast := (h.outer x).past _ hx
        have hle : (s x).collectives ≤ (s cd.head).collectives + 1 := h.meeting.le_succ x cd.head
        omega
  · rintro rfl
    exact h.headGiven
  · intro site' new hs
    cases hs
    rw [minGiven_congr hgiven]
    change _ = s.minGiven (((s i).collectives + 1) / 2 - 1)
    rw [hround]
    rfl
  · exact fun j hj site new hm => minGiven_congr hgiven _
  · exact h.verdict i

theorem Inv.cell_of_failed (h : Inv s) (hpc : (s cd.head).pc = .read .completeCD)
    (hfailed : Failed s (s cd.head).attempt) : (s cd.head).rollbackPoint = cd.level := by
  obtain ⟨-, hempty, -⟩ := h.idle (i := cd.head) (by rw [hpc]; rfl)
  obtain ⟨x, hx⟩ := hfailed
  rcases h.kept x hx with hs | hf | ⟨-, halert⟩
  · -- a task that has not finished its report has not entered the fence
    have hslot := (h.outer cd.head).slot
    have hxslot := (h.outer x).slot
    have hout := h.outside (i := cd.head) (by rw [hpc]; rfl) x
    rw [hpc] at hslot
    rw [hs] at hxslot
    change (s cd.head).collectives % 4 = 3 at hslot
    change (s x).collectives % 4 = 2 at hxslot
    have hlt : (s x).collectives < (s cd.head).collectives := by omega
    have hwaits : (s x).pc.waits = true := (h.meeting.ahead cd.head x hlt).2
    rw [hs] at hwaits
    cases hwaits
  · have hdrained := ((h.inner cd.head).drained rfl (by rw [hpc]; rfl) x hf).1
    rw [hpc] at hdrained
    cases hdrained
  · exact halert.resolve_left fun hne => hne hempty

theorem minGiven_append (hst : Stepped s s' i t' .nothing) {value r : ℕ}
    (hgiven : t'.given = (s i).given ++ [value]) (hr : r < (s i).given.length) :
    s'.minGiven r = s.minGiven r := by
  unfold State.minGiven
  congr 1
  apply List.map_congr_left
  intro j _
  by_cases hj : j = i
  · rw [hj, hst.self, hgiven, List.getElem?_append_left hr]
  · rw [hst.eq_of_ne hj]

theorem Inv.given_of_merge (h : Inv s) {j : Fin cd.taskSize} {site : Site} {new : ℕ}
    (hj : (s j).pc = .merge site new) (k : Fin cd.taskSize) :
    (s j).round - 1 < (s k).given.length := by
  have hjslot := (h.outer j).slot
  have hdecided := (h.outer j).decided
  have hrounds := (h.outer k).rounds
  have hkslot := (h.outer k).slot
  have hout := h.outside (i := j) (by rw [hj]; rfl) k
  have hpos : 2 ≤ (s j).collectives ∧ (s j).collectives % 2 = 0 := by
    rw [hj] at hjslot hdecided
    cases site with
    | beginCD =>
        change (s j).collectives % 4 = 2 at hjslot
        omega
    | completeCD =>
        change (s j).collectives % 4 = 0 at hjslot
        change (s j).verdicts.length + 1 = (s j).collectives / 4 at hdecided
        omega
  unfold Task.round at hrounds ⊢
  rcases Nat.lt_or_ge (s k).collectives (s j).collectives with hlt | hge
  · -- `k` is still inside that reduction
    have hwaits : (s k).pc.waits = true := (h.meeting.ahead j k hlt).2
    have hgave : (s k).pc.gave = true := by
      cases hk : (s k).pc with
      | reduce site => rfl
      | fence site =>
          rw [hk] at hkslot
          change (s k).collectives % 4 = site.base at hkslot
          cases site with
          | beginCD =>
              change (s k).collectives % 4 = 0 at hkslot
              omega
          | completeCD =>
              change (s k).collectives % 4 = 2 at hkslot
              omega
      | _ =>
          rw [hk] at hwaits
          cases hwaits
    rw [hgave] at hrounds
    change (s k).given.length = (s k).collectives / 2 + 1 at hrounds
    omega
  · omega

theorem Inv.alone_read (h : Inv s) {site : Site} (hpc : (s i).pc = .read site)
    (hst : Stepped s s' i { s i with
      pc := .reduce site, given := (s i).given ++ [(s i).rollbackPoint] } .nothing) :
    Alone s s' i { s i with
      pc := .reduce site, given := (s i).given ++ [(s i).rollbackPoint] } := by
  obtain ⟨hidle, hempty, hhandled⟩ := h.idle (i := i) (by rw [hpc]; rfl)
  have houter := h.outer i
  have hinner := h.inner i
  have hbase : (s i).collectives % 4 = site.base + 1 := by rw [houter.slot, hpc]; rfl
  have hrounds : (s i).given.length = (s i).collectives / 2 + 0 := by
    have hrounds := houter.rounds
    rw [hpc] at hrounds
    exact hrounds
  have hbeg : (Pc.reduce site).beginning = (s i).pc.beginning := by rw [hpc]; rfl
  have hlast : ∀ r v, ((s i).given ++ [(s i).rollbackPoint])[r]? = some v →
      (s i).given[r]? = some v ∨ r = (s i).given.length ∧ v = (s i).rollbackPoint := by
    intro r v hv
    rcases Nat.lt_or_ge r (s i).given.length with hlt | hge
    · rw [List.getElem?_append_left hlt] at hv
      exact Or.inl hv
    · rw [List.getElem?_append_right hge] at hv
      have hr := (List.getElem?_eq_some_iff.mp hv).1
      rw [List.length_singleton] at hr
      have hzero : r - (s i).given.length = 0 := by omega
      rw [hzero] at hv
      cases hv
      exact Or.inr ⟨by omega, rfl⟩
  -- a reduction with an odd number belongs to `Complete`
  have hodd : (s i).given.length % 2 = 1 →
      site = .completeCD ∧ (s i).given.length / 2 = (s i).attempt := by
    intro hr
    cases site with
    | beginCD =>
        change (s i).collectives % 4 = 1 at hbase
        omega
    | completeCD =>
        refine ⟨rfl, ?_⟩
        unfold Task.attempt
        omega
  constructor
  · rfl
  · constructor
    · exact hbase
    · change ((s i).given ++ [(s i).rollbackPoint]).length = (s i).collectives / 2 + 1
      rw [List.length_append, List.length_singleton]
      omega
    · intro r v hv
      rcases hlast r v hv with hv | ⟨rfl, rfl⟩
      · exact houter.given r v hv
      · refine hinner.cell.imp_right fun hl => ⟨hl.1, fun hr => ?_⟩
        obtain ⟨rfl, heq⟩ := hodd hr
        rw [heq]
        refine hl.2.resolve_right fun hb => ?_
        rw [hpc] at hb
        cases hb
    · exact houter.past
    · exact fun hs => by cases hs
    · have hdecided := houter.decided
      rw [hpc] at hdecided
      exact hdecided
  · constructor
    · exact fun hne => (hne hidle).elim
    · exact fun _ hp => by cases hp
    · exact fun _ => ⟨hempty, hhandled⟩
    · exact hinner.subtracts
    · exact hinner.error
    · exact hinner.sending
    · exact hinner.remote
    · exact hinner.copied
    · exact hinner.member
    · exact fun hs => by cases hs
    · exact fun hq => (hq hempty).elim
    · intro hi x hx
      refine Or.inl ((hinner.flags hi x hx).resolve_right fun hs => ?_)
      rw [hpc] at hs
      cases hs.1
    · change _ ∨ _ ∧ (_ ∨ (Pc.reduce site).beginning = true)
      rw [hbeg]
      exact hinner.cell
    · intro hi hs x hx
      have hdrained := (hinner.drained hi (by rw [hpc]; exact hs) x hx).1
      rw [hpc] at hdrained
      cases hdrained
  · refine h.meeting.work (i := i) ?_ ?_ ?_
    · rw [hpc]
      exact fun hw => by cases hw
    · intro j
      by_cases hj : j = i
      · rw [hj, hst.self]
      · rw [hst.eq_of_ne hj]
    · intro j hj hw
      rw [hst.eq_of_ne hj]
      exact hw
  · rfl
  · rfl
  · exact ⟨target_of_idle hidle (by rw [hpc]; exact fun h => by cases h),
      target_of_idle hidle (fun h => by cases h)⟩
  · rw [hpc]
    exact fun h => by cases h
  · rintro rfl x hx
    exact h.reported x hx
  · rintro rfl x hx
    change _ ∨ _ ∨ (Pc.reduce site).beginning = false ∧ _
    rw [hbeg]
    exact h.kept x hx
  · rintro rfl r v hv hr hf
    rcases hlast r v hv with hv | ⟨rfl, rfl⟩
    · exact h.headGiven r v hv hr hf
    · obtain ⟨rfl, heq⟩ := hodd hr
      rw [heq] at hf
      exact h.cell_of_failed hpc hf
  · exact fun _ _ hs => by cases hs
  · intro j _ site new hm
    exact minGiven_append hst rfl (h.given_of_merge hm i)
  · exact h.verdict i

theorem Inv.mem_given (h : Inv s) {site : Site} {new : ℕ} (hpc : (s i).pc = .merge site new)
    (j : Fin cd.taskSize) : ∃ v, (s j).given[(s i).round - 1]? = some v ∧
      ((s j).given[(s i).round - 1]?).getD invalidRollbackPoint = v := by
  have hlt := h.given_of_merge hpc j
  exact ⟨_, List.getElem?_eq_getElem hlt, by rw [List.getElem?_eq_getElem hlt]; rfl⟩

theorem Inv.level_le_reduced (h : Inv s) {site : Site} {new : ℕ}
    (hpc : (s i).pc = .merge site new) : cd.level ≤ new := by
  rw [h.reduced i site new hpc]
  apply Collectives.le_foldr_min (Nat.le_of_lt cd.levelValid)
  intro b hb
  obtain ⟨j, -, rfl⟩ := List.mem_map.mp hb
  obtain ⟨v, hv, hget⟩ := h.mem_given hpc j
  rw [hget]
  rcases (h.outer j).given _ v hv with rfl | ⟨rfl, -⟩
  · exact Nat.le_of_lt cd.levelValid
  · exact Nat.le_refl _

theorem Inv.reduced_complete (h : Inv s) {new : ℕ} (hpc : (s i).pc = .merge .completeCD new) :
    (Failed s ((s i).attempt - 1) → new = cd.level) ∧
      (¬ Failed s ((s i).attempt - 1) → new = invalidRollbackPoint) := by
  have hslot := (h.outer i).slot
  have hdecided := (h.outer i).decided
  rw [hpc] at hslot hdecided
  change (s i).collectives % 4 = 0 at hslot
  change (s i).verdicts.length + 1 = (s i).collectives / 4 at hdecided
  have hodd : ((s i).round - 1) % 2 = 1 := by
    unfold Task.round
    omega
  have hhalf : ((s i).round - 1) / 2 = (s i).attempt - 1 := by
    unfold Task.round Task.attempt
    omega
  constructor
  · intro hfailed
    apply Nat.le_antisymm _ (h.level_le_reduced hpc)
    rw [h.reduced i _ _ hpc]
    apply Collectives.foldr_min_le_of_mem
    obtain ⟨v, hv, hget⟩ := h.mem_given hpc cd.head
    rw [← hhalf] at hfailed
    refine List.mem_map.mpr ⟨cd.head, List.mem_finRange _, ?_⟩
    rw [hget]
    exact h.headGiven _ v hv hodd hfailed
  · intro hnone
    rw [h.reduced i _ _ hpc]
    have hall : ∀ b ∈ (List.finRange cd.taskSize).map
        fun j => ((s j).given[(s i).round - 1]?).getD invalidRollbackPoint,
        b = invalidRollbackPoint := by
      intro b hb
      obtain ⟨j, -, rfl⟩ := List.mem_map.mp hb
      obtain ⟨v, hv, hget⟩ := h.mem_given hpc j
      rw [hget]
      refine ((h.outer j).given _ v hv).resolve_right fun hl => hnone ?_
      rw [← hhalf]
      exact hl.2 hodd
    apply Nat.le_antisymm
    · exact Collectives.foldr_min_le_base _ _
    · apply Collectives.le_foldr_min (Nat.le_refl _)
      intro b hb
      exact Nat.le_of_eq (hall b hb).symm

theorem Inv.alone_beginMerged (h : Inv s) {new : ℕ} (hpc : (s i).pc = .merge .beginCD new)
    (hst : Stepped s s' i { s i with
      rollbackPoint := invalidRollbackPoint, pc := .body, poll := .idle } .nothing) :
    Alone s s' i { s i with
      rollbackPoint := invalidRollbackPoint, pc := .body, poll := .idle } := by
  obtain ⟨hidle, hempty, hhandled⟩ := h.idle (i := i) (by rw [hpc]; rfl)
  have houter := h.outer i
  have hinner := h.inner i
  have hgiven : ∀ j, (s' j).given = (s j).given := by
    intro j
    by_cases hj : j = i
    · rw [hj, hst.self]
    · rw [hst.eq_of_ne hj]
  constructor
  · rfl
  · constructor
    · change (s i).collectives % 4 = 2
      rw [houter.slot, hpc]
      rfl
    · have hrounds := houter.rounds
      rw [hpc] at hrounds
      exact hrounds
    · exact houter.given
    · exact houter.past
    · exact fun hs => by cases hs
    · have hdecided := houter.decided
      rw [hpc] at hdecided
      exact hdecided
  · constructor
    · exact fun hne => (hne rfl).elim
    · exact fun _ _ => rfl
    · exact fun _ => ⟨hempty, hhandled⟩
    · rfl
    · exact hinner.error
    · exact fun _ hs => by cases hs
    · exact fun _ _ _ hs => by cases hs
    · exact fun _ hs => by cases hs
    · exact hinner.member
    · exact fun hs => by cases hs
    · exact fun hq => (hq hempty).elim
    · intro hi x hx
      refine Or.inl ((hinner.flags hi x hx).resolve_right fun hs => ?_)
      rw [hpc] at hs
      cases hs.1
    · exact Or.inl rfl
    · exact fun _ hs => by cases hs
  · refine h.meeting.work (i := i) ?_ ?_ ?_
    · rw [hpc]
      exact fun hw => by cases hw
    · intro j
      by_cases hj : j = i
      · rw [hj, hst.self]
      · rw [hst.eq_of_ne hj]
    · intro j hj hw
      rw [hst.eq_of_ne hj]
      exact hw
  · rfl
  · rfl
  · exact ⟨target_of_idle hidle (by rw [hpc]; exact fun h => by cases h),
      target_of_idle rfl (fun h => by cases h)⟩
  · rw [hpc]
    exact fun h => by cases h
  · rintro rfl x hx
    exact h.reported x hx
  · rintro rfl x hx
    exact (h.kept_of_beginning (t := { s cd.head with pc := .body, poll := .idle }) rfl rfl
      (by rw [hpc]; rfl) x hx).imp_right Or.inl
  · rintro rfl
    exact h.headGiven
  · exact fun _ _ hs => by cases hs
  · exact fun j hj site new hm => minGiven_congr hgiven _
  · exact h.verdict i

theorem decPendingCounter_eq {n : ℕ} {t : Task n} (hhandled : t.handledEventCount = 0)
    (hpending : t.pendingFlag < 2 ^ 32) : t.decPendingCounter = t := by
  have hdec := dec_of_le (Nat.zero_le t.pendingFlag) hpending
  rw [Task.decPendingCounter, hhandled, hdec, Nat.sub_zero, ← hhandled]

theorem Inv.completeMerged_eq (h : Inv s) {new : ℕ} (hpc : (s i).pc = .merge .completeCD new) :
    ∃ b, (b = true ↔ Failed s ((s i).attempt - 1)) ∧
      completeMerged cd (s i) new = some { (if b then (s i).decPendingCounter else s i) with
        rollbackPoint := invalidRollbackPoint, pc := .check1 .beginCD, poll := .entered
        verdicts := (s i).verdicts ++ [b] } := by
  have hvalid := cd.levelValid
  obtain ⟨hyes, hno⟩ := h.reduced_complete hpc
  by_cases hfailed : Failed s ((s i).attempt - 1)
  · refine ⟨true, iff_of_true rfl hfailed, ?_⟩
    have hnew := hyes hfailed
    subst hnew
    have hcell := (h.inner i).reexecuted
    have hret : (setRollbackPoint (s i).rollbackPoint cd.level).2 = cd.level := by
      rw [RollbackCell.setRollbackPoint_valid hvalid] at hcell ⊢
      exact hcell
    rw [completeMerged]
    dsimp only
    rw [hret, hcell, if_pos (Nat.le_refl _), if_pos rfl, if_pos rfl]
  · refine ⟨false, iff_of_false (fun hb => by cases hb) hfailed, ?_⟩
    have hnew := hno hfailed
    subst hnew
    rw [completeMerged]
    have hset : setRollbackPoint (s i).rollbackPoint invalidRollbackPoint =
        (invalidRollbackPoint, invalidRollbackPoint) := if_neg (fun hne => hne rfl)
    rw [hset]
    dsimp only
    rw [if_neg (by omega)]
    rfl

theorem Inv.completeMerged_cases (h : Inv s) {new : ℕ} (hpc : (s i).pc = .merge .completeCD new)
    (hpending : (s i).pendingFlag < 2 ^ 32) :
    ∃ b, (b = true ↔ Failed s ((s i).attempt - 1)) ∧
      completeMerged cd (s i) new = some { s i with
        rollbackPoint := invalidRollbackPoint, pc := .check1 .beginCD, poll := .entered
        verdicts := (s i).verdicts ++ [b] } := by
  obtain ⟨-, -, hhandled⟩ := h.idle (i := i) (by rw [hpc]; rfl)
  obtain ⟨b, hb, heq⟩ := h.completeMerged_eq hpc
  refine ⟨b, hb, heq.trans ?_⟩
  rw [decPendingCounter_eq hhandled hpending, ite_self]

theorem Inv.alone_completeMerged (h : Inv s) {new : ℕ} {b : Bool}
    (hpc : (s i).pc = .merge .completeCD new) (hb : b = true ↔ Failed s ((s i).attempt - 1))
    (hst : Stepped s s' i { s i with
      rollbackPoint := invalidRollbackPoint, pc := .check1 .beginCD, poll := .entered
      verdicts := (s i).verdicts ++ [b] } .nothing) :
    Alone s s' i { s i with
      rollbackPoint := invalidRollbackPoint, pc := .check1 .beginCD, poll := .entered
      verdicts := (s i).verdicts ++ [b] } := by
  obtain ⟨hidle, hempty, hhandled⟩ := h.idle (i := i) (by rw [hpc]; rfl)
  have houter := h.outer i
  have hinner := h.inner i
  have hdecided : (s i).verdicts.length + 1 = (s i).attempt := by
    have hdecided := houter.decided
    rw [hpc] at hdecided
    exact hdecided
  have hgiven : ∀ j, (s' j).given = (s j).given := by
    intro j
    by_cases hj : j = i
    · rw [hj, hst.self]
    · rw [hst.eq_of_ne hj]
  constructor
  · rfl
  · constructor
    · change (s i).collectives % 4 = 0
      rw [houter.slot, hpc]
      rfl
    · have hrounds := houter.rounds
      rw [hpc] at hrounds
      exact hrounds
    · exact houter.given
    · exact houter.past
    · exact fun hs => by cases hs
    · change ((s i).verdicts ++ [b]).length + 0 = (s i).attempt
      rw [List.length_append, List.length_singleton]
      exact hdecided
  · constructor
    · exact fun _ => rfl
    · exact fun hp => by cases hp
    · exact fun _ => ⟨hempty, hhandled⟩
    · rfl
    · exact hinner.error
    · exact fun _ hs => by cases hs
    · exact fun _ _ _ hs => by cases hs
    · exact fun _ hs => by cases hs
    · exact hinner.member
    · exact fun hs => by cases hs
    · exact fun hq => (hq hempty).elim
    · exact fun hi x hx => (hinner.flags hi x hx).imp_right fun _ => ⟨rfl, trivial⟩
    · exact Or.inl rfl
    · exact fun _ hs => by cases hs
  · refine h.meeting.work (i := i) ?_ ?_ ?_
    · rw [hpc]
      exact fun hw => by cases hw
    · intro j
      by_cases hj : j = i
      · rw [hj, hst.self]
      · rw [hst.eq_of_ne hj]
    · intro j hj hw
      rw [hst.eq_of_ne hj]
      exact hw
  · rfl
  · rfl
  · exact ⟨target_of_idle hidle (by rw [hpc]; exact fun h => by cases h),
      target_of_ne_flagging (fun _ _ _ h => by cases h) (fun h => by cases h)⟩
  · rw [hpc]
    exact fun h => by cases h
  · rintro rfl x hx
    exact h.reported x hx
  · rintro rfl x hx
    exact (h.kept_of_beginning (t := { s cd.head with pc := .body, poll := .idle }) rfl rfl
      (by rw [hpc]; rfl) x hx).imp_right Or.inl
  · rintro rfl
    exact h.headGiven
  · exact fun _ _ hs => by cases hs
  · exact fun j hj site new hm => minGiven_congr hgiven _
  · intro k b' hk
    change ((s i).verdicts ++ [b])[k]? = some b' at hk
    rcases Nat.lt_or_ge k (s i).verdicts.length with hlt | hge
    · rw [List.getElem?_append_left hlt] at hk
      exact h.verdict i k b' hk
    · rw [List.getElem?_append_right hge] at hk
      have hlen := (List.getElem?_eq_some_iff.mp hk).1
      rw [List.length_singleton] at hlen
      have hzero : k - (s i).verdicts.length = 0 := by omega
      have hattempt : k = (s i).attempt - 1 := by omega
      rw [hzero] at hk
      cases hk
      rw [hattempt]
      exact hb

theorem failed_insert (hself : (s' i).failures = insert (s i).attempt (s i).failures)
    (hother : ∀ j, j ≠ i → (s' j).failures = (s j).failures) (k : ℕ) :
    Failed s' k ↔ k = (s i).attempt ∨ Failed s k := by
  constructor
  · rintro ⟨j, hj⟩
    by_cases hji : j = i
    · subst hji
      rw [hself] at hj
      exact (Finset.mem_insert.mp hj).imp_right fun hk => ⟨j, hk⟩
    · rw [hother j hji] at hj
      exact Or.inr ⟨j, hj⟩
  · rintro (rfl | ⟨j, hj⟩)
    · refine ⟨i, ?_⟩
      rw [hself]
      exact Finset.mem_insert_self _ _
    · refine ⟨j, ?_⟩
      by_cases hji : j = i
      · subst hji
        rw [hself]
        exact Finset.mem_insert_of_mem hj
      · rw [hother j hji]
        exact hj

/-- An assertion fails in the body of task `i`, which is now `t'`. -/
structure Asserted (s : State cd) (i : Fin cd.taskSize) (t' : Task cd.taskSize)
    (e : Effect cd.taskSize) : Prop where
  body : (s i).pc = .body
  idle : (s i).poll = .idle
  failures : t'.failures = insert (s i).attempt (s i).failures
  collectives : t'.collectives = (s i).collectives
  given : t'.given = (s i).given
  verdicts : t'.verdicts = (s i).verdicts
  pc : t'.pc = .body ∨ t'.pc = .sent
  inner : ∀ failed : ℕ → Prop, (∀ k, Failed s k → failed k) → failed (s i).attempt →
    Inner cd failed i t'
  eventFlag : t'.eventFlag = (s i).eventFlag
  owed : t'.owed = (s i).owed
  pending : t'.pendingFlag = (s i).pendingFlag
  closes : ∀ j, e.closes ≠ some j
  opens : ∀ j, e.opens = some j → j ≠ i
  target : t'.target cd = e.opens
  alert : i = cd.head → Alert cd t'
  sent : i ≠ cd.head → t'.pc = .sent

theorem Pc.slot_of_gave {pc : Pc} (h : pc.gave = true) : pc.slot % 2 = 1 := by
  cases pc with
  | reduce site => cases site <;> rfl
  | _ => cases h

theorem Inv.open_attempt (h : Inv s) (hslot : (s i).pc.slot = 2) (hw : (s i).pc.waits = false) :
    (∀ j k b, (s j).verdicts[k]? = some b → k ≠ (s i).attempt) ∧
      ∀ r v, (s cd.head).given[r]? = some v → r % 2 = 1 → r / 2 ≠ (s i).attempt := by
  have hi := (h.outer i).slot
  constructor
  · intro j k b hk
    have hlen := (List.getElem?_eq_some_iff.mp hk).1
    have hdecided := (h.outer j).decided
    have hout := h.outside hw j
    unfold Task.attempt at hdecided ⊢
    omega
  · intro r v hv hr
    have hlen := (List.getElem?_eq_some_iff.mp hv).1
    have hrounds := (h.outer cd.head).rounds
    have hhead := (h.outer cd.head).slot
    have hout := h.outside hw cd.head
    have hgave : (s cd.head).pc.gave = true → (s cd.head).pc.slot % 2 = 1 := Pc.slot_of_gave
    have hnat : (s cd.head).pc.gave.toNat ≤ 1 := Bool.toNat_le _
    unfold Task.attempt
    unfold Task.round at hrounds
    cases hg : (s cd.head).pc.gave with
    | false =>
        rw [hg, Bool.toNat_false] at hrounds
        omega
    | true =>
        have hodd := hgave hg
        omega

theorem Inv.asserted (h : Inv s) (ha : Asserted s i t' e) (hst : Stepped s s' i t' e)
    (hroom : ∀ j, (s j).pendingFlag + 1 < 2 ^ 32) : Inv s' := by
  have hbody : (s i).pc.slot = 2 ∧ (s i).pc.waits = false := by rw [ha.body]; exact ⟨rfl, rfl⟩
  have hslot : (s i).collectives % 4 = 2 := by rw [(h.outer i).slot, hbody.1]
  have hpc' : t'.pc.slot = 2 ∧ t'.pc.gave = false ∧ t'.pc.undecided = false ∧
      t'.pc.beginning = false ∧ ∀ site new, t'.pc ≠ .merge site new := by
    rcases ha.pc with hpc | hpc <;> rw [hpc] <;>
      exact ⟨rfl, rfl, rfl, rfl, fun _ _ h => by cases h⟩
  have hother : ∀ j, j ≠ i → (s' j).failures = (s j).failures := fun j hj => by
    rw [hst.other j hj]
    rfl
  have hself : (s' i).failures = insert (s i).attempt (s i).failures := by
    rw [hst.self, ha.failures]
  have hfailed := failed_insert hself hother
  have hmono : ∀ k, Failed s k → Failed s' k := fun k hk => (hfailed k).mpr (Or.inr hk)
  have hgiven : ∀ j, (s' j).given = (s j).given := by
    intro j
    by_cases hj : j = i
    · rw [hj, hst.self, ha.given]
    · rw [hst.other j hj]
      rfl
  have hcollectives : ∀ j, (s' j).collectives = (s j).collectives := by
    intro j
    by_cases hj : j = i
    · rw [hj, hst.self, ha.collectives]
    · rw [hst.other j hj]
      rfl
  have hattempt : ∀ j, (s' j).attempt = (s j).attempt := fun j => by
    rw [Task.attempt, hcollectives, Task.attempt]
  have hflags : ∀ j, (s' j).eventFlag = (s j).eventFlag := by
    intro j
    by_cases hj : j = i
    · rw [hj, hst.self, ha.eventFlag]
    · rw [hst.other j hj]
      exact if_neg (ha.closes j)
  have hpcs : ∀ j, j ≠ i → (s' j).pc = (s j).pc := fun j hj => by
    rw [hst.other j hj]
    rfl
  have hfail : ∀ j, ∀ k ∈ (s j).failures, k ∈ (s' j).failures := by
    intro j k hk
    by_cases hj : j = i
    · rw [hj] at hk ⊢
      rw [hself]
      exact Finset.mem_insert_of_mem hk
    · rw [hother j hj]
      exact hk
  obtain ⟨hundecided, hungiven⟩ := h.open_attempt hbody.1 hbody.2
  constructor
  · intro j
    by_cases hj : j = i
    · subst hj
      have houter := h.outer j
      rw [hst.self]
      constructor
      · rw [ha.collectives, hpc'.1, hslot]
      · have hrounds := houter.rounds
        rw [Pc.gave_of_not_waits hbody.2] at hrounds
        rw [ha.given, Task.round, ha.collectives, hpc'.2.1]
        exact hrounds
      · rw [ha.given]
        exact (houter.mono hmono).given
      · intro k hk
        rw [ha.failures] at hk
        rw [ha.collectives]
        rcases Finset.mem_insert.mp hk with rfl | hk
        · unfold Task.attempt
          omega
        · exact houter.past k hk
      · intro _
        rw [Task.attempt, ha.collectives, ha.failures]
        exact Finset.mem_insert_self _ _
      · have hdecided := houter.decided
        rw [ha.body] at hdecided
        rw [Task.attempt, ha.verdicts, ha.collectives, hpc'.2.2.1]
        exact hdecided
    · rw [hst.other j hj]
      exact ((h.outer j).mono hmono).on e
  · intro j
    by_cases hj : j = i
    · subst hj
      rw [hst.self]
      exact ha.inner _ hmono ((hfailed _).mpr (Or.inl rfl))
    · rw [hst.other j hj]
      exact ((h.inner j).mono hmono).on (fun hc => (ha.closes j hc).elim)
        fun hc => (ha.closes j hc).elim
  · refine h.meeting.work (i := i) ?_ hcollectives ?_
    · rw [hbody.2]
      exact fun hw => by cases hw
    · intro j hj hw
      rw [hpcs j hj]
      exact hw
  · have htarget : (s i).target cd = e.closes := by
      rw [target_of_idle ha.idle (by rw [ha.body]; exact fun h => by cases h)]
      cases hc : e.closes with
      | none => rfl
      | some j => exact (ha.closes j hc).elim
    refine owed_step hst ⟨htarget, ha.target⟩ ?_ ?_ hroom h.owed
    · rintro j (hj | hj)
      · exact ha.opens j hj
      · exact (ha.closes j hj).elim
    · rw [ha.owed, ha.pending]
  · intro x hx
    rw [hflags] at hx
    rw [hattempt]
    exact hfail x _ (h.reported x hx)
  · intro x hx
    rw [hattempt] at hx
    rw [hflags]
    by_cases hxi : x = i
    · subst hxi
      by_cases hhead : x = cd.head
      · right; right
        rw [← hhead, hst.self]
        exact ⟨hpc'.2.2.2.1, ha.alert hhead⟩
      · left
        rw [hst.self]
        exact ha.sent hhead
    · rw [hother x hxi] at hx
      rw [hpcs x hxi]
      refine (h.kept x hx).imp_right fun hk => hk.imp_right fun hk => ?_
      by_cases hhead : cd.head = i
      · rw [hhead, hst.self]
        exact ⟨hpc'.2.2.2.1, ha.alert hhead.symm⟩
      · rw [hst.other _ hhead]
        exact hk
  · intro r v hv hr hf
    rw [hgiven] at hv
    refine h.headGiven r v hv hr (((hfailed _).mp hf).resolve_left ?_)
    exact hungiven r v hv hr
  · intro j site new hm
    rw [minGiven_congr hgiven, Task.round, hcollectives]
    by_cases hj : j = i
    · rw [hj, hst.self] at hm
      exact (hpc'.2.2.2.2 site new hm).elim
    · rw [hpcs j hj] at hm
      exact h.reduced j site new hm
  · intro j k b hk
    have hold : (s j).verdicts[k]? = some b := by
      by_cases hj : j = i
      · rw [hj, hst.self, ha.verdicts] at hk
        rw [hj]
        exact hk
      · rw [hst.other j hj] at hk
        exact hk
    rw [hfailed, h.verdict j k b hold]
    constructor
    · exact Or.inr
    · exact fun hor => hor.resolve_left (hundecided j k b hold)

end CDRuntime.ErrorReports
