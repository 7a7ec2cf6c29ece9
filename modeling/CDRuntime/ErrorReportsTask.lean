import CDRuntime.ErrorReports

namespace CDRuntime.ErrorReports

variable {cd : CD} {n : ℕ}

def Site.base : Site → ℕ
  | .beginCD => 0
  | .completeCD => 2

/-- How many of the four collective operations of an execution are behind a task. -/
def Pc.slot : Pc → ℕ
  | .check1 site => site.base
  | .check2 site => site.base
  | .fence site => site.base
  | .check3 site => site.base + 1
  | .read site => site.base + 1
  | .reduce site => site.base + 1
  | .merge site _ => (site.base + 2) % 4
  | .body => 2
  | .sent => 2

def Pc.polls : Pc → Bool
  | .check1 _ => true
  | .check2 _ => true
  | .check3 _ => true
  | .body => true
  | _ => false

/-- From the reduction of a `Complete` to the body: what is in the cell does not matter. -/
def Pc.beginning : Pc → Bool
  | .check1 site => site = .beginCD
  | .check2 site => site = .beginCD
  | .fence site => site = .beginCD
  | .check3 site => site = .beginCD
  | .read site => site = .beginCD
  | .reduce site => site = .beginCD
  | .merge _ _ => true
  | .body => false
  | .sent => false

/-- Before the end of the first check of `Begin` there may be flags of the last execution. -/
def Pc.stale : Pc → Bool
  | .check1 site => site = .beginCD
  | .merge site _ => site = .completeCD
  | _ => false

/-- After its copy a check may have handlers in the queue and handled events. -/
def Poll.handling : Poll n → Bool
  | .idle => false
  | .entered => false
  | .counted => false
  | _ => true

/-- The current check, or the next one, looks at a flag of `x` that is set now. -/
def Poll.reaches (x : Fin n) : Poll n → Prop
  | .idle => True
  | .entered => True
  | .counted => True
  | .reading senders => x ∈ senders
  | _ => False

def Poll.done : Poll n → Bool
  | .reading [] => true
  | .invoking _ => true
  | .sending _ _ => true
  | .flagging _ _ _ => true
  | _ => false

/-- Only a check that has read a counter of zero does not subtract what it handles. -/
def Poll.subtracts : Poll n → Bool
  | .invoking dec => dec
  | .sending dec _ => dec
  | .flagging dec _ _ => dec
  | _ => true

def Poll.uninformed : Poll n → Option (List (Fin n))
  | .sending _ tasks => some tasks
  | .flagging _ _ tasks => some tasks
  | _ => none

@[simp] theorem Pc.slot_polled (pc : Pc) : pc.polled.slot = pc.slot := by cases pc <;> rfl

@[simp] theorem Pc.beginning_polled (pc : Pc) : pc.polled.beginning = pc.beginning := by
  cases pc <;> rfl

theorem Poll.ne_idle_of_done {poll : Poll n} (h : poll.done = true) : poll ≠ .idle := by
  rintro rfl
  cases h

theorem Poll.not_reaches_of_done {poll : Poll n} (h : poll.done = true) (x : Fin n) :
    ¬ poll.reaches x := by
  intro hr
  cases poll with
  | reading senders =>
      cases senders with
      | nil => exact List.not_mem_nil hr
      | cons y senders => cases h
  | invoking dec => exact hr
  | sending dec tasks => exact hr
  | flagging dec j tasks => exact hr
  | _ => cases h

theorem Pc.polls_of_pollAgain {pc : Pc} (h : (pc.pollAgain : Poll n) ≠ .idle) :
    pc.polled.polls = true := by
  cases pc with
  | check1 site => rfl
  | _ => exact (h rfl).elim

theorem Pc.body_of_pollAgain {pc : Pc} (h : (pc.pollAgain : Poll n) = .idle)
    (hpolls : pc.polled.polls = true) : pc.polled = .body := by
  cases pc with
  | check1 site => cases h
  | body => rfl
  | _ => cases hpolls

theorem Pc.subtracts_pollAgain (pc : Pc) : (pc.pollAgain : Poll n).subtracts = true := by
  cases pc <;> rfl

theorem Pc.uninformed_pollAgain (pc : Pc) : (pc.pollAgain : Poll n).uninformed = none := by
  cases pc <;> rfl

theorem Pc.pollAgain_ne_reading (pc : Pc) (senders : List (Fin n)) :
    pc.pollAgain ≠ Poll.reading senders := by
  cases pc <;> exact fun h => by cases h

theorem Pc.pollAgain_ne_flagging (pc : Pc) (dec : Bool) (j : Fin n) (tasks : List (Fin n)) :
    pc.pollAgain ≠ Poll.flagging dec j tasks := by
  cases pc <;> exact fun h => by cases h

theorem Pc.polled_ne_sent {pc : Pc} (h : pc.polls = true) : pc.polled ≠ .sent := by
  intro heq
  cases pc with
  | sent => cases h
  | _ => cases heq

theorem Pc.not_waits_of_polls {pc : Pc} (h : pc.polls = true) : pc.waits = false := by
  cases pc with
  | fence site => cases h
  | reduce site => cases h
  | _ => rfl

theorem Pc.check1_of_stale {pc : Pc} (h : pc.stale = true) (hpolls : pc.polls = true) :
    pc = .check1 .beginCD := by
  cases pc with
  | check1 site =>
      cases site with
      | beginCD => rfl
      | completeCD => cases h
  | merge site new => cases hpolls
  | _ => cases h

def Pc.undecided : Pc → Bool
  | .merge site _ => site = .completeCD
  | _ => false

/-- Whether the task has given its value to the reduction that it is in. -/
def Pc.gave : Pc → Bool
  | .reduce _ => true
  | _ => false

/-- The history of a task; `failed k` says that an assertion failed in attempt `k`. -/
structure Outer (cd : CD) (failed : ℕ → Prop) (t : Task n) : Prop where
  slot : t.collectives % 4 = t.pc.slot
  rounds : t.given.length = t.round + t.pc.gave.toNat
  given : ∀ r v, t.given[r]? = some v →
    v = invalidRollbackPoint ∨ v = cd.level ∧ (r % 2 = 1 → failed (r / 2))
  past : ∀ k ∈ t.failures, 4 * k + 2 ≤ t.collectives
  sent : t.pc = .sent → t.attempt ∈ t.failures
  decided : t.verdicts.length + t.pc.undecided.toNat = t.attempt

/-- The mailbox of task `i`. -/
structure Inner (cd : CD) (failed : ℕ → Prop) (i : Fin cd.taskSize) (t : Task cd.taskSize) :
    Prop where
  polling : t.poll ≠ .idle → t.pc.polls = true
  checks : t.poll = .idle → t.pc.polls = true → t.pc = .body
  busy : t.poll.handling = false → t.cdEvent = [] ∧ t.handledEventCount = 0
  subtracts : t.poll.subtracts = true
  error : t.errorOccurred = true → .errorOccurred ∈ t.cdEvent
  sending : ∀ tasks, t.poll.uninformed = some tasks →
    ∃ queue, t.cdEvent = .errorOccurred :: queue ∧ (i ∈ tasks ∨ .allReexecute ∈ queue)
  remote : ∀ dec j tasks, t.poll = .flagging dec j tasks → j ≠ i
  copied : ∀ senders, t.poll = .reading senders →
    senders.Nodup ∧ (∀ x ∈ senders, x ∈ t.eventFlag) ∧ (t.cdEvent = [] → t.handledEventCount = 0)
  member : i ≠ cd.head → .errorOccurred ∉ t.cdEvent
  sent : t.pc = .sent → i ≠ cd.head
  queue : t.cdEvent ≠ [] → failed t.attempt ∨ i ≠ cd.head ∧ t.pc = .check1 .beginCD
  flags : i ≠ cd.head → ∀ x ∈ t.eventFlag,
    failed t.attempt ∨ t.pc.stale = true ∧ t.poll.reaches x
  cell : t.rollbackPoint = invalidRollbackPoint ∨
    t.rollbackPoint = cd.level ∧ (failed t.attempt ∨ t.pc.beginning = true)
  drained : i = cd.head → t.pc.slot = 3 → ∀ x ∈ t.eventFlag,
    t.pc = .check3 .completeCD ∧ t.poll.reaches x

theorem Outer.mono {failed failed' : ℕ → Prop} {t : Task n} (h : Outer cd failed t)
    (hmono : ∀ k, failed k → failed' k) : Outer cd failed' t where
  slot := h.slot
  rounds := h.rounds
  given r v hv := (h.given r v hv).imp_right fun hl => ⟨hl.1, fun hr => hmono _ (hl.2 hr)⟩
  past := h.past
  sent := h.sent
  decided := h.decided

theorem Inner.mono {failed failed' : ℕ → Prop} {i : Fin cd.taskSize} {t : Task cd.taskSize}
    (h : Inner cd failed i t) (hmono : ∀ k, failed k → failed' k) : Inner cd failed' i t where
  polling := h.polling
  checks := h.checks
  busy := h.busy
  subtracts := h.subtracts
  error := h.error
  sending := h.sending
  remote := h.remote
  copied := h.copied
  member := h.member
  sent := h.sent
  queue hq := (h.queue hq).imp_left (hmono _)
  flags hi x hx := (h.flags hi x hx).imp_left (hmono _)
  cell := h.cell.imp_right fun hl => ⟨hl.1, hl.2.imp_left (hmono _)⟩
  drained := h.drained

section Check

variable {failed : ℕ → Prop} {i : Fin cd.taskSize} {t t' : Task cd.taskSize}
  {e : Effect cd.taskSize}

/-- `CheckMailBox` returns with an empty queue, and no flag is left from before its copy. -/
theorem Inner.returned (h : Inner cd failed i t) (hpoll : t.poll ≠ .idle) (hqueue : t.cdEvent = [])
    (hhandled : t.handledEventCount = 0) (hread : ∀ x ∈ t.eventFlag, ¬ t.poll.reaches x) :
    Inner cd failed i t.returned where
  polling hp := Pc.polls_of_pollAgain hp
  checks hp hpolls := Pc.body_of_pollAgain hp hpolls
  busy _ := ⟨hqueue, hhandled⟩
  subtracts := Pc.subtracts_pollAgain _
  error he := h.error he
  sending tasks htasks := by
    change t.pc.pollAgain.uninformed = some tasks at htasks
    rw [Pc.uninformed_pollAgain] at htasks
    cases htasks
  remote dec j tasks htasks := (Pc.pollAgain_ne_flagging _ _ _ _ htasks).elim
  copied senders hs := (Pc.pollAgain_ne_reading _ _ hs).elim
  member hi := h.member hi
  sent hs := (Pc.polled_ne_sent (h.polling hpoll) hs).elim
  queue hq := (hq hqueue).elim
  flags hi x hx := (h.flags hi x hx).imp_right fun hstale => (hread x hx hstale.2).elim
  cell := by
    change _ ∨ _ ∧ (_ ∨ t.pc.polled.beginning = true)
    rw [Pc.beginning_polled]
    exact h.cell
  drained hi hslot x hx := by
    change t.pc.polled.slot = 3 at hslot
    rw [Pc.slot_polled] at hslot
    exact (hread x hx (h.drained hi hslot x hx).2).elim

/-- What the queue and the flags of a task look like after one flag was read. -/
theorem Inner.read (h : Inner cd failed i t) {x : Fin cd.taskSize}
    {senders : List (Fin cd.taskSize)} (hpoll : t.poll = .reading (x :: senders))
    {queue : List Handler} {occurred : Bool} {handled : ℕ}
    (herror : occurred = true → .errorOccurred ∈ queue)
    (hmember : i ≠ cd.head → .errorOccurred ∉ queue) (hhandled : queue = [] → handled = 0)
    (hqueue : queue ≠ [] → failed t.attempt ∨ i ≠ cd.head ∧ t.pc = .check1 .beginCD) :
    Inner cd failed i { t with
      cdEvent := queue, errorOccurred := occurred, handledEventCount := handled
      eventFlag := t.eventFlag.erase x, poll := .reading senders } := by
  obtain ⟨hnodup, hcopied, -⟩ := h.copied _ hpoll
  obtain ⟨hnotin, hnodup⟩ := List.nodup_cons.mp hnodup
  have hreach : ∀ y ∈ t.eventFlag.erase x, t.poll.reaches y → y ∈ senders := by
    intro y hy hr
    rw [hpoll] at hr
    exact (List.mem_cons.mp hr).resolve_left (Finset.ne_of_mem_erase hy)
  constructor
  · intro _
    exact h.polling (by rw [hpoll]; exact fun h => by cases h)
  · exact fun hp => by cases hp
  · intro hbusy
    cases hbusy
  · rfl
  · exact herror
  · intro tasks htasks
    cases htasks
  · intro dec j tasks htasks
    cases htasks
  · intro senders' hs
    cases hs
    refine ⟨hnodup, fun y hy => Finset.mem_erase.mpr ⟨?_, hcopied y (List.mem_cons_of_mem _ hy)⟩,
      hhandled⟩
    rintro rfl
    exact hnotin hy
  · exact hmember
  · exact h.sent
  · exact hqueue
  · intro hi y hy
    refine (h.flags hi y (Finset.mem_of_mem_erase hy)).imp_right fun hstale => ?_
    exact ⟨hstale.1, hreach y hy hstale.2⟩
  · exact h.cell
  · intro hi hslot y hy
    obtain ⟨hpc, hr⟩ := h.drained hi hslot y (Finset.mem_of_mem_erase hy)
    exact ⟨hpc, hreach y hy hr⟩

theorem Inner.readMailBox (h : Inner cd failed i t) {x : Fin cd.taskSize}
    {senders : List (Fin cd.taskSize)} (hpoll : t.poll = .reading (x :: senders))
    (hfail : i = cd.head → ∀ x ∈ t.eventFlag, failed t.attempt) :
    Inner cd failed i { t.readMailBox (i = cd.head) with
      eventFlag := t.eventFlag.erase x, poll := .reading senders } := by
  obtain ⟨-, hcopied, hhandled⟩ := h.copied _ hpoll
  have hx : x ∈ t.eventFlag := hcopied x List.mem_cons_self
  by_cases hi : i = cd.head
  · have hfailed := hfail hi x hx
    simp only [Task.readMailBox, hi, decide_true, if_true]
    split_ifs with hocc
    · rw [← hi]
      refine h.read hpoll h.error h.member ?_ h.queue
      intro hempty
      exact (List.ne_nil_of_mem (h.error hocc) hempty).elim
    · rw [← hi]
      refine h.read hpoll ?_ (fun hne => (hne hi).elim) ?_ (fun _ => Or.inl hfailed)
      · intro _
        exact List.mem_append_right _ List.mem_cons_self
      · intro hempty
        exact (List.concat_ne_nil _ _ hempty).elim
  · simp only [Task.readMailBox, hi, decide_false, Bool.false_eq_true, if_false]
    refine h.read hpoll ?_ ?_ (fun hempty => (List.concat_ne_nil _ _ hempty).elim) ?_
    · intro hocc
      exact List.mem_append_left _ (h.error hocc)
    · intro _ hmem
      rcases List.mem_append.mp hmem with hmem | hmem
      · exact h.member hi hmem
      · cases List.mem_singleton.mp hmem
    · intro _
      refine (h.flags hi x hx).imp_right fun hstale => ⟨hi, ?_⟩
      apply Pc.check1_of_stale hstale.1
      exact h.polling (by rw [hpoll]; exact fun h => by cases h)

/-- A step behind the copy: with the flags nothing happens any more. -/
theorem Inner.handle (h : Inner cd failed i t) (hdone : t.poll.done = true)
    {poll : Poll cd.taskSize} {queue : List Handler} {occurred : Bool} {pending handled cell : ℕ}
    (hhandling : poll.handling = true) (hsubtracts : poll.subtracts = true)
    (hreading : ∀ senders, poll ≠ .reading senders)
    (herror : occurred = true → .errorOccurred ∈ queue)
    (hsending : ∀ tasks, poll.uninformed = some tasks →
      ∃ rest, queue = .errorOccurred :: rest ∧ (i ∈ tasks ∨ .allReexecute ∈ rest))
    (hremote : ∀ dec j tasks, poll = .flagging dec j tasks → j ≠ i)
    (hmember : i ≠ cd.head → .errorOccurred ∉ queue) (hqueue : queue ≠ [] → t.cdEvent ≠ [])
    (hcell : cell = t.rollbackPoint ∨ cell = cd.level ∧ t.cdEvent ≠ []) :
    Inner cd failed i { t with
      poll := poll, cdEvent := queue, errorOccurred := occurred
      pendingFlag := pending, handledEventCount := handled, rollbackPoint := cell } where
  polling _ := h.polling (Poll.ne_idle_of_done hdone)
  checks hp := by
    change poll = .idle at hp
    rw [hp] at hhandling
    cases hhandling
  busy hb := by
    change poll.handling = false at hb
    rw [hhandling] at hb
    cases hb
  subtracts := hsubtracts
  error := herror
  sending := hsending
  remote := hremote
  copied senders hs := (hreading senders hs).elim
  member := hmember
  sent := h.sent
  queue hq := h.queue (hqueue hq)
  flags hi x hx := (h.flags hi x hx).imp_right fun hstale =>
    (Poll.not_reaches_of_done hdone x hstale.2).elim
  cell := by
    rcases hcell with rfl | ⟨rfl, hne⟩
    · exact h.cell
    · refine Or.inr ⟨rfl, (h.queue hne).imp_right fun hpc => ?_⟩
      change t.pc.beginning = true
      rw [hpc.2]
      rfl
  drained hi hslot x hx := (Poll.not_reaches_of_done hdone x (h.drained hi hslot x hx).2).elim

theorem Inner.count (h : Inner cd failed i t) (hpoll : t.poll = .entered) :
    Inner cd failed i { t with poll := .counted } where
  polling _ := h.polling (by rw [hpoll]; exact fun h => by cases h)
  checks hp := by cases hp
  busy _ := h.busy (by rw [hpoll]; rfl)
  subtracts := rfl
  error := h.error
  sending _ hs := by cases hs
  remote _ _ _ hs := by cases hs
  copied _ hs := by cases hs
  member := h.member
  sent := h.sent
  queue := h.queue
  flags hi x hx := (h.flags hi x hx).imp_right fun hstale => ⟨hstale.1, trivial⟩
  cell := h.cell
  drained hi hslot x hx := ⟨(h.drained hi hslot x hx).1, trivial⟩

/-- `GetEventFlag`: no flag that is set is missing in the copy. -/
theorem Inner.copy (h : Inner cd failed i t) (hpoll : t.poll = .counted) :
    Inner cd failed i { t with
      poll := .reading ((List.finRange cd.taskSize).filter (· ∈ t.eventFlag)) } := by
  have hcopy : ∀ x ∈ t.eventFlag, x ∈ (List.finRange cd.taskSize).filter (· ∈ t.eventFlag) := by
    intro x hx
    exact List.mem_filter.mpr ⟨List.mem_finRange x, decide_eq_true hx⟩
  obtain ⟨-, hnone⟩ := h.busy (by rw [hpoll]; rfl)
  exact {
    polling := fun _ => h.polling (by rw [hpoll]; exact fun h => by cases h)
    checks := fun hp => by cases hp
    busy := fun hb => by cases hb
    subtracts := rfl
    error := h.error
    sending := fun _ hs => by cases hs
    remote := fun _ _ _ hs => by cases hs
    copied := fun senders hs => by
      cases hs
      refine ⟨(List.nodup_finRange _).filter _, fun x hx => ?_, fun _ => hnone⟩
      exact of_decide_eq_true (List.mem_filter.mp hx).2
    member := h.member
    sent := h.sent
    queue := h.queue
    flags := fun hi x hx => (h.flags hi x hx).imp_right fun hstale => ⟨hstale.1, hcopy x hx⟩
    cell := h.cell
    drained := fun hi hslot x hx => ⟨(h.drained hi hslot x hx).1, hcopy x hx⟩ }

theorem Inner.reexecuted (h : Inner cd failed i t) :
    (setRollbackPoint t.rollbackPoint cd.level).1 = cd.level := by
  have hlevel := cd.levelValid
  rw [RollbackCell.setRollbackPoint_valid hlevel]
  rcases h.cell with hcell | hcell
  · rw [hcell]
    exact Nat.min_eq_left (Nat.le_of_lt hlevel)
  · rw [hcell.1]
    exact Nat.min_self _

theorem Inner.invokeReexecute (h : Inner cd failed i t) {queue : List Handler}
    (hpoll : t.poll = .invoking true) (hqueue : t.cdEvent = .allReexecute :: queue) :
    Inner cd failed i { t.handleAllReexecute cd with cdEvent := queue } := by
  have hcons : t.cdEvent ≠ [] := by
    rw [hqueue]
    exact List.cons_ne_nil _ _
  have hinv : Inner cd failed i { t with
      poll := .invoking true, cdEvent := queue
      handledEventCount := t.handledEventCount + 1
      rollbackPoint := (setRollbackPoint t.rollbackPoint cd.level).1 } := by
    refine h.handle (by rw [hpoll]; rfl) rfl rfl (fun _ hs => by cases hs) ?_
      (fun _ hs => by cases hs) (fun _ _ _ hs => by cases hs) ?_ (fun _ => hcons)
      (Or.inr ⟨h.reexecuted, hcons⟩)
    · intro hocc
      have hmem := h.error hocc
      rw [hqueue] at hmem
      exact (List.mem_cons.mp hmem).resolve_left (fun h => by cases h)
    · intro hi hmem
      refine h.member hi ?_
      rw [hqueue]
      exact List.mem_cons_of_mem _ hmem
  rw [← hpoll] at hinv
  exact hinv

theorem Inner.invokeErrorOccurred (h : Inner cd failed i t) {queue : List Handler}
    (hpoll : t.poll = .invoking true) (hqueue : t.cdEvent = .errorOccurred :: queue) :
    Inner cd failed i { t with poll := .sending true (List.finRange cd.taskSize) } := by
  refine h.handle (by rw [hpoll]; rfl) rfl rfl (fun _ hs => by cases hs) h.error ?_
    (fun _ _ _ hs => by cases hs) h.member id (Or.inl rfl)
  intro tasks htasks
  cases htasks
  exact ⟨queue, hqueue, Or.inl (List.mem_finRange i)⟩

/-- The head puts its own handler for the re-execution behind the one that runs. -/
theorem Inner.sendLocal (h : Inner cd failed i t) {tasks : List (Fin cd.taskSize)}
    (hpoll : t.poll = .sending true (i :: tasks)) :
    Inner cd failed i { t.localSetMailBox with poll := .sending true tasks } := by
  obtain ⟨queue, hqueue, -⟩ := h.sending (i :: tasks) (by rw [hpoll]; rfl)
  refine h.handle (by rw [hpoll]; rfl) rfl rfl (fun _ hs => by cases hs) ?_ ?_
    (fun _ _ _ hs => by cases hs) ?_ ?_ (Or.inl rfl)
  · intro hocc
    exact List.mem_append_left _ (h.error hocc)
  · intro tasks' htasks
    cases htasks
    refine ⟨queue ++ [.allReexecute], ?_, Or.inr (List.mem_append_right _ List.mem_cons_self)⟩
    change t.cdEvent ++ [.allReexecute] = _
    rw [hqueue]
    rfl
  · intro hi hmem
    rcases List.mem_append.mp hmem with hmem | hmem
    · exact h.member hi hmem
    · cases List.mem_singleton.mp hmem
  · intro _
    rw [hqueue]
    exact List.cons_ne_nil _ _

theorem Inner.sendRemote (h : Inner cd failed i t) {j : Fin cd.taskSize}
    {tasks : List (Fin cd.taskSize)} (hpoll : t.poll = .sending true (j :: tasks)) (hj : j ≠ i) :
    Inner cd failed i { t with poll := .flagging true j tasks } := by
  obtain ⟨queue, hqueue, hself⟩ := h.sending (j :: tasks) (by rw [hpoll]; rfl)
  refine h.handle (by rw [hpoll]; rfl) rfl rfl (fun _ hs => by cases hs) h.error ?_ ?_ h.member id
    (Or.inl rfl)
  · intro tasks' htasks
    cases htasks
    refine ⟨queue, hqueue, hself.imp_left fun hmem => ?_⟩
    exact (List.mem_cons.mp hmem).resolve_left (fun heq => hj heq.symm)
  · intro dec k tasks' htasks
    cases htasks
    exact hj

theorem Inner.flag (h : Inner cd failed i t) {j : Fin cd.taskSize}
    {tasks : List (Fin cd.taskSize)} (hpoll : t.poll = .flagging true j tasks) :
    Inner cd failed i { t with poll := .sending true tasks } := by
  refine h.handle (by rw [hpoll]; rfl) rfl rfl (fun _ hs => by cases hs) h.error ?_
    (fun _ _ _ hs => by cases hs) h.member id (Or.inl rfl)
  intro tasks' htasks
  cases htasks
  exact h.sending tasks (by rw [hpoll]; rfl)

theorem Inner.informed (h : Inner cd failed i t) (hpoll : t.poll = .sending true []) :
    Inner cd failed i { t.handledErrorOccurred with
      cdEvent := t.cdEvent.tail, poll := .invoking true } := by
  obtain ⟨queue, hqueue, -⟩ := h.sending [] (by rw [hpoll]; rfl)
  refine h.handle (by rw [hpoll]; rfl) rfl rfl (fun _ hs => by cases hs) (fun hocc => by cases hocc)
    (fun _ hs => by cases hs) (fun _ _ _ hs => by cases hs) ?_ ?_ (Or.inl rfl)
  · intro hi hmem
    exact h.member hi (List.mem_of_mem_tail hmem)
  · intro _
    rw [hqueue]
    exact List.cons_ne_nil _ _

theorem Inner.decPendingCounter (h : Inner cd failed i t) :
    Inner cd failed i t.decPendingCounter where
  polling := h.polling
  checks := h.checks
  busy hb := ⟨(h.busy hb).1, rfl⟩
  subtracts := h.subtracts
  error := h.error
  sending := h.sending
  remote := h.remote
  copied senders hs := ⟨(h.copied senders hs).1, (h.copied senders hs).2.1, fun _ => rfl⟩
  member := h.member
  sent := h.sent
  queue := h.queue
  flags := h.flags
  cell := h.cell
  drained := h.drained

theorem Inner.judge (h : Inner cd failed i t) (hpoll : t.poll = .reading []) :
    Inner cd failed i { t with poll := .invoking true } :=
  h.handle (by rw [hpoll]; rfl) rfl rfl (fun _ hs => by cases hs) h.error
    (fun _ hs => by cases hs) (fun _ _ _ hs => by cases hs) h.member id (Or.inl rfl)

inductive Check (cd : CD) (i : Fin cd.taskSize) (t : Task cd.taskSize) :
    Task cd.taskSize → Effect cd.taskSize → Prop
  | count (hpoll : t.poll = .entered) : Check cd i t { t with poll := .counted } .nothing
  | skip (hpoll : t.poll = .entered) (hflags : t.eventFlag = ∅) (hqueue : t.cdEvent = [])
      (hhandled : t.handledEventCount = 0) : Check cd i t t.returned .nothing
  | copy (hpoll : t.poll = .counted) :
      Check cd i t { t with
        poll := .reading ((List.finRange cd.taskSize).filter (· ∈ t.eventFlag)) } .nothing
  | read (x : Fin cd.taskSize) (senders : List (Fin cd.taskSize))
      (hpoll : t.poll = .reading (x :: senders)) :
      Check cd i t { t.readMailBox (i = cd.head) with
        eventFlag := t.eventFlag.erase x, poll := .reading senders } .nothing
  | judge (hpoll : t.poll = .reading []) (hqueue : t.cdEvent ≠ []) :
      Check cd i t { t with poll := .invoking true } .nothing
  | noEvent (hpoll : t.poll = .reading []) (hqueue : t.cdEvent = [])
      (hhandled : t.handledEventCount = 0) : Check cd i t t.returned .nothing
  | finish (hpoll : t.poll = .invoking true) (hqueue : t.cdEvent = []) :
      Check cd i t t.decPendingCounter.returned .nothing
  | reexecute (queue : List Handler) (hpoll : t.poll = .invoking true)
      (hqueue : t.cdEvent = .allReexecute :: queue) :
      Check cd i t { t.handleAllReexecute cd with cdEvent := queue } .nothing
  | occurred (queue : List Handler) (hpoll : t.poll = .invoking true)
      (hqueue : t.cdEvent = .errorOccurred :: queue) :
      Check cd i t { t with poll := .sending true (List.finRange cd.taskSize) } .nothing
  | sendLocal (tasks : List (Fin cd.taskSize)) (hpoll : t.poll = .sending true (i :: tasks)) :
      Check cd i t { t.localSetMailBox with poll := .sending true tasks } .nothing
  | sendRemote (j : Fin cd.taskSize) (tasks : List (Fin cd.taskSize)) (hj : j ≠ i)
      (hpoll : t.poll = .sending true (j :: tasks)) :
      Check cd i t { t with poll := .flagging true j tasks } (.increment j)
  | flag (j : Fin cd.taskSize) (tasks : List (Fin cd.taskSize))
      (hpoll : t.poll = .flagging true j tasks) :
      Check cd i t { t with poll := .sending true tasks } (.accumulate j)
  | informed (hpoll : t.poll = .sending true []) :
      Check cd i t { t.handledErrorOccurred with
        cdEvent := t.cdEvent.tail, poll := .invoking true } .nothing

/-- In an orderly state a check never stops at its assertion and never leaves handlers behind. -/
theorem Inner.check (h : Inner cd failed i t)
    (hzero : t.pendingFlag = 0 → t.eventFlag = ∅)
    (hstep : checkMailBox cd i t = some (t', e)) : Check cd i t t' e := by
  have hdec := h.subtracts
  unfold checkMailBox at hstep
  split at hstep <;> rename_i hpoll <;> rw [hpoll] at hdec
  · cases hstep
  · obtain ⟨hempty, hnone⟩ := h.busy (by rw [hpoll]; rfl)
    split_ifs at hstep with hhandled hpending hqueue
    · cases hstep
      exact .count hpoll
    · exact (hqueue hempty).elim
    · cases hstep
      exact .skip hpoll (hzero (by omega)) hempty hnone
  · cases hstep
    exact .copy hpoll
  · cases hstep
    exact .read _ _ hpoll
  · split_ifs at hstep with hqueue
    · cases hstep
      exact .judge hpoll hqueue
    · cases hstep
      have hempty : t.cdEvent = [] := not_not.mp hqueue
      exact .noEvent hpoll hempty ((h.copied _ hpoll).2.2 hempty)
  · obtain rfl : _ = true := hdec
    split at hstep
    · rename_i hempty
      cases hstep
      exact .finish hpoll hempty
    · rename_i hqueue
      cases hstep
      exact .reexecute _ hpoll hqueue
    · rename_i hqueue
      cases hstep
      exact .occurred _ hpoll hqueue
  · obtain rfl : _ = true := hdec
    split_ifs at hstep with hj
    · cases hstep
      subst hj
      exact .sendLocal _ hpoll
    · cases hstep
      exact .sendRemote _ _ hj hpoll
  · obtain rfl : _ = true := hdec
    cases hstep
    exact .informed hpoll
  · obtain rfl : _ = true := hdec
    cases hstep
    exact .flag _ _ hpoll

theorem Check.inner (hc : Check cd i t t' e) (h : Inner cd failed i t)
    (hfail : i = cd.head → ∀ x ∈ t.eventFlag, failed t.attempt) : Inner cd failed i t' := by
  cases hc with
  | count hpoll => exact h.count hpoll
  | skip hpoll hflags hqueue hhandled =>
      exact h.returned (by rw [hpoll]; exact fun h => by cases h) hqueue hhandled (by simp [hflags])
  | copy hpoll => exact h.copy hpoll
  | read x senders hpoll => exact h.readMailBox hpoll hfail
  | judge hpoll hqueue => exact h.judge hpoll
  | noEvent hpoll hqueue hhandled =>
      have hdone : t.poll.done = true := by rw [hpoll]; rfl
      exact h.returned (Poll.ne_idle_of_done hdone) hqueue hhandled
        (fun x _ => Poll.not_reaches_of_done hdone x)
  | finish hpoll hqueue =>
      have hdone : t.poll.done = true := by rw [hpoll]; rfl
      exact h.decPendingCounter.returned (Poll.ne_idle_of_done hdone) hqueue rfl
        (fun x _ => Poll.not_reaches_of_done hdone x)
  | reexecute queue hpoll hqueue => exact h.invokeReexecute hpoll hqueue
  | occurred queue hpoll hqueue => exact h.invokeErrorOccurred hpoll hqueue
  | sendLocal tasks hpoll => exact h.sendLocal hpoll
  | sendRemote j tasks hj hpoll => exact h.sendRemote hpoll hj
  | flag j tasks hpoll => exact h.flag hpoll
  | informed hpoll => exact h.informed hpoll

end Check

/-- The history is the same, and the task is neither before nor behind a collective operation. -/
structure Quiet (t t' : Task n) : Prop where
  collectives : t'.collectives = t.collectives
  given : t'.given = t.given
  failures : t'.failures = t.failures
  verdicts : t'.verdicts = t.verdicts
  waits : t.pc.waits = false
  merge : ∀ site new, t.pc ≠ .merge site new
  gave : t'.pc.gave = false
  merge' : ∀ site new, t'.pc ≠ .merge site new
  slot : t'.pc.slot = t.pc.slot
  beginning : t'.pc.beginning = t.pc.beginning
  sent : t'.pc = .sent → t.pc = .sent

theorem Pc.undecided_of_ne_merge {pc : Pc} (h : ∀ site new, pc ≠ .merge site new) :
    pc.undecided = false := by
  cases pc with
  | merge site new => exact (h site new rfl).elim
  | _ => rfl

theorem Pc.gave_of_not_waits {pc : Pc} (h : pc.waits = false) : pc.gave = false := by
  cases pc with
  | reduce site => cases h
  | _ => rfl

theorem Pc.ne_merge_of_polls {pc : Pc} (h : pc.polls = true) (site : Site) (new : ℕ) :
    pc ≠ .merge site new := by
  rintro rfl
  cases h

theorem Pc.polled_of_polls {pc : Pc} (h : pc.polls = true) :
    pc.polled.gave = false ∧ ∀ site new, pc.polled ≠ .merge site new := by
  cases pc with
  | check1 site => exact ⟨rfl, fun _ _ h => by cases h⟩
  | check2 site => exact ⟨rfl, fun _ _ h => by cases h⟩
  | check3 site => exact ⟨rfl, fun _ _ h => by cases h⟩
  | body => exact ⟨rfl, fun _ _ h => by cases h⟩
  | _ => cases h

section Quiet

variable {failed : ℕ → Prop} {i : Fin cd.taskSize} {t t' : Task cd.taskSize}
  {e : Effect cd.taskSize}

theorem Quiet.outer (hq : Quiet t t') (h : Outer cd failed t) : Outer cd failed t' where
  slot := by rw [hq.collectives, hq.slot, h.slot]
  rounds := by
    rw [Task.round, hq.given, hq.collectives, hq.gave, h.rounds, Task.round,
      Pc.gave_of_not_waits hq.waits]
  given := hq.given ▸ h.given
  past := by
    rw [hq.failures, hq.collectives]
    exact h.past
  sent hs := by
    rw [Task.attempt, hq.collectives, hq.failures]
    exact h.sent (hq.sent hs)
  decided := by
    rw [Task.attempt, hq.verdicts, hq.collectives, Pc.undecided_of_ne_merge hq.merge', ←
      Pc.undecided_of_ne_merge hq.merge]
    exact h.decided

theorem quiet_of_same_pc (hpolls : t.pc.polls = true) (hpc : t'.pc = t.pc)
    (hcollectives : t'.collectives = t.collectives) (hgiven : t'.given = t.given)
    (hfailures : t'.failures = t.failures) (hverdicts : t'.verdicts = t.verdicts) : Quiet t t' where
  collectives := hcollectives
  given := hgiven
  failures := hfailures
  verdicts := hverdicts
  waits := Pc.not_waits_of_polls hpolls
  merge := Pc.ne_merge_of_polls hpolls
  gave := hpc ▸ Pc.gave_of_not_waits (Pc.not_waits_of_polls hpolls)
  merge' := hpc ▸ Pc.ne_merge_of_polls hpolls
  slot := by rw [hpc]
  beginning := by rw [hpc]
  sent := by
    rw [hpc]
    exact id

theorem quiet_returned (hpolls : t.pc.polls = true) (hpc : t'.pc = t.pc.polled)
    (hcollectives : t'.collectives = t.collectives) (hgiven : t'.given = t.given)
    (hfailures : t'.failures = t.failures) (hverdicts : t'.verdicts = t.verdicts) : Quiet t t' where
  collectives := hcollectives
  given := hgiven
  failures := hfailures
  verdicts := hverdicts
  waits := Pc.not_waits_of_polls hpolls
  merge := Pc.ne_merge_of_polls hpolls
  gave := hpc ▸ (Pc.polled_of_polls hpolls).1
  merge' := hpc ▸ (Pc.polled_of_polls hpolls).2
  slot := by rw [hpc, Pc.slot_polled]
  beginning := by rw [hpc, Pc.beginning_polled]
  sent hs := (Pc.polled_ne_sent hpolls (hpc.symm.trans hs)).elim

theorem Check.poll_ne_idle (hc : Check cd i t t' e) : t.poll ≠ .idle := by
  intro hidle
  cases hc <;> simp_all

@[simp] theorem readMailBox_pc (t : Task n) (isHead : Bool) :
    (t.readMailBox isHead).pc = t.pc := by
  unfold Task.readMailBox
  split_ifs <;> rfl

theorem Check.quiet (hc : Check cd i t t' e) (h : Inner cd failed i t) : Quiet t t' := by
  have hpolls : t.pc.polls = true := h.polling hc.poll_ne_idle
  cases hc with
  | skip => exact quiet_returned hpolls rfl rfl rfl rfl rfl
  | noEvent => exact quiet_returned hpolls rfl rfl rfl rfl rfl
  | finish => exact quiet_returned hpolls rfl rfl rfl rfl rfl
  | read x senders hpoll =>
      unfold Task.readMailBox
      split_ifs <;> exact quiet_of_same_pc hpolls rfl rfl rfl rfl rfl
  | _ => exact quiet_of_same_pc hpolls rfl rfl rfl rfl rfl

/-- What a task has read but not subtracted yet, and what is there to be read. -/
def Task.owed (t : Task n) : ℕ := t.handledEventCount + t.cdEvent.length + t.eventFlag.card

theorem dec_of_le {pending handled : ℕ} (h : handled ≤ pending) (hpending : pending < 2 ^ 32) :
    (2 ^ 32 - handled % 2 ^ 32 + pending) % 2 ^ 32 = pending - handled := by
  omega

/-- No step of a check makes the counter fall behind. -/
theorem Check.owed (hc : Check cd i t t' e) (h : Inner cd failed i t)
    (howed : t.owed ≤ t.pendingFlag) (hroom : t.pendingFlag + 1 < 2 ^ 32) :
    t'.owed + t.pendingFlag ≤ t.owed + t'.pendingFlag := by
  cases hc with
  | read x senders hpoll =>
      have hx : x ∈ t.eventFlag := (h.copied _ hpoll).2.1 x List.mem_cons_self
      have hcard := Finset.card_erase_add_one hx
      unfold Task.readMailBox
      split_ifs <;> simp only [Task.owed, List.length_append, List.length_singleton] <;> omega
  | finish hpoll hqueue =>
      simp only [Task.owed, hqueue, List.length_nil] at howed
      have hdec : t.decPendingCounter.pendingFlag = t.pendingFlag - t.handledEventCount :=
        dec_of_le (by omega) (by omega)
      simp only [Task.owed, Task.returned, hdec, hqueue, List.length_nil]
      simp only [Task.decPendingCounter, hqueue, List.length_nil]
      omega
  | reexecute queue hpoll hqueue =>
      simp only [Task.owed, Task.handleAllReexecute, hqueue, List.length_cons]
      omega
  | sendLocal tasks hpoll =>
      have hinc : t.localSetMailBox.pendingFlag = t.pendingFlag + 1 := Nat.mod_eq_of_lt hroom
      simp only [Task.owed, hinc]
      simp only [Task.localSetMailBox, Task.incPendingCounter, List.length_append,
        List.length_singleton]
      omega
  | informed hpoll =>
      obtain ⟨queue, hqueue, -⟩ := h.sending [] (by rw [hpoll]; rfl)
      simp only [Task.owed, Task.handledErrorOccurred, hqueue, List.tail_cons, List.length_cons]
      omega
  | _ => exact Nat.le_refl _

theorem Check.flags_subset (hc : Check cd i t t' e) : t'.eventFlag ⊆ t.eventFlag := by
  cases hc with
  | read x senders hpoll => exact Finset.erase_subset _ _
  | _ => exact Finset.Subset.refl _

theorem Check.flag_kept (hc : Check cd i t t' e) (h : Inner cd failed i t) {x : Fin cd.taskSize}
    (hx : x ∈ t.eventFlag) : x ∈ t'.eventFlag ∨ t'.cdEvent ≠ [] := by
  cases hc with
  | read y senders hpoll =>
      right
      unfold Task.readMailBox
      split_ifs with hhead hocc
      · exact List.ne_nil_of_mem (h.error hocc)
      · exact List.concat_ne_nil _ _
      · exact List.concat_ne_nil _ _
  | _ => exact Or.inl hx

/-- The task rolls back at the end of the execution, or still has to handle a request to. -/
def Alert (cd : CD) (t : Task n) : Prop := t.cdEvent ≠ [] ∨ t.rollbackPoint = cd.level

theorem Check.alert (hc : Check cd i t t' e) (h : Inner cd failed i t) (ha : Alert cd t) :
    Alert cd t' := by
  cases hc with
  | read x senders hpoll =>
      refine ha.imp (fun hne => ?_) (fun hcell => ?_)
      · unfold Task.readMailBox
        split_ifs
        · exact hne
        · exact List.concat_ne_nil _ _
        · exact List.concat_ne_nil _ _
      · unfold Task.readMailBox
        split_ifs <;> exact hcell
  | reexecute queue hpoll hqueue => exact Or.inr h.reexecuted
  | sendLocal tasks hpoll => exact Or.inl (List.concat_ne_nil _ _)
  | informed hpoll =>
      obtain ⟨queue, hqueue, hself⟩ := h.sending [] (by rw [hpoll]; rfl)
      left
      change t.cdEvent.tail ≠ []
      rw [hqueue]
      exact List.ne_nil_of_mem (hself.resolve_left List.not_mem_nil)
  | _ => exact ha

/-- The task at which a report or a request has arrived only in the counter so far. -/
def Task.target (cd : CD) (t : Task cd.taskSize) : Option (Fin cd.taskSize) :=
  match t.poll with
  | .flagging _ j _ => some j
  | _ => if t.pc = .sent then some cd.head else none

def Effect.opens : Effect n → Option (Fin n)
  | .increment j => some j
  | _ => none

def Effect.closes : Effect n → Option (Fin n)
  | .accumulate j => some j
  | _ => none

theorem target_of_ne_flagging (hpoll : ∀ dec j tasks, t.poll ≠ .flagging dec j tasks)
    (hpc : t.pc ≠ .sent) : t.target cd = none := by
  unfold Task.target
  split
  · rename_i dec j tasks h
    exact (hpoll dec j tasks h).elim
  · exact if_neg hpc

theorem target_returned (hpolls : t.pc.polls = true) : t.returned.target cd = none :=
  target_of_ne_flagging (fun _ _ _ h => Pc.pollAgain_ne_flagging _ _ _ _ h)
    (Pc.polled_ne_sent hpolls)

theorem Check.target (hc : Check cd i t t' e) (h : Inner cd failed i t) :
    t.target cd = e.closes ∧ t'.target cd = e.opens := by
  have hpolls : t.pc.polls = true := h.polling hc.poll_ne_idle
  have hsent : t.pc ≠ .sent := by
    intro hs
    rw [hs] at hpolls
    cases hpolls
  have hplain : (∀ dec j tasks, t.poll ≠ .flagging dec j tasks) → t.target cd = none :=
    fun hpoll => target_of_ne_flagging hpoll hsent
  cases hc with
  | skip hpoll => exact ⟨hplain (by simp [hpoll]), target_returned hpolls⟩
  | noEvent hpoll => exact ⟨hplain (by simp [hpoll]), target_returned hpolls⟩
  | finish hpoll => exact ⟨hplain (by simp [hpoll]), target_returned hpolls⟩
  | read x senders hpoll =>
      refine ⟨hplain (by simp [hpoll]), target_of_ne_flagging (by simp) ?_⟩
      rw [readMailBox_pc]
      exact hsent
  | reexecute queue hpoll =>
      refine ⟨hplain (by simp [hpoll]), target_of_ne_flagging ?_ hsent⟩
      simp [Task.handleAllReexecute, hpoll]
  | sendRemote j tasks hj hpoll => exact ⟨hplain (by simp [hpoll]), rfl⟩
  | flag j tasks hpoll =>
      refine ⟨?_, target_of_ne_flagging (by simp) hsent⟩
      rw [Task.target, hpoll]
      rfl
  | count hpoll => exact ⟨hplain (by simp [hpoll]), target_of_ne_flagging (by simp) hsent⟩
  | copy hpoll => exact ⟨hplain (by simp [hpoll]), target_of_ne_flagging (by simp) hsent⟩
  | judge hpoll => exact ⟨hplain (by simp [hpoll]), target_of_ne_flagging (by simp) hsent⟩
  | occurred queue hpoll => exact ⟨hplain (by simp [hpoll]), target_of_ne_flagging (by simp) hsent⟩
  | sendLocal tasks hpoll => exact ⟨hplain (by simp [hpoll]), target_of_ne_flagging (by simp) hsent⟩
  | informed hpoll => exact ⟨hplain (by simp [hpoll]), target_of_ne_flagging (by simp) hsent⟩

/-- Only the head sends anything in a check, and only for an error. -/
theorem Check.sender (hc : Check cd i t t' e) (h : Inner cd failed i t) {j : Fin cd.taskSize}
    (he : e.opens = some j ∨ e.closes = some j) : i = cd.head ∧ j ≠ i ∧ failed t.attempt := by
  have hhead : ∀ tasks, t.poll.uninformed = some tasks → i = cd.head ∧ failed t.attempt := by
    intro tasks htasks
    obtain ⟨queue, hqueue, -⟩ := h.sending tasks htasks
    have hi : i = cd.head := by
      by_contra hne
      refine h.member hne ?_
      rw [hqueue]
      exact List.mem_cons_self
    refine ⟨hi, (h.queue ?_).resolve_right fun hne => hne.1 hi⟩
    rw [hqueue]
    exact List.cons_ne_nil _ _
  cases hc with
  | sendRemote k tasks hk hpoll =>
      obtain ⟨hi, hfailed⟩ := hhead (k :: tasks) (by rw [hpoll]; rfl)
      rcases he with he | he
      · cases he
        exact ⟨hi, hk, hfailed⟩
      · cases he
  | flag k tasks hpoll =>
      obtain ⟨hi, hfailed⟩ := hhead tasks (by rw [hpoll]; rfl)
      rcases he with he | he
      · cases he
      · cases he
        exact ⟨hi, h.remote _ _ _ hpoll, hfailed⟩
  | _ =>
      rcases he with he | he
      · cases he
      · cases he

end Quiet

end CDRuntime.ErrorReports
