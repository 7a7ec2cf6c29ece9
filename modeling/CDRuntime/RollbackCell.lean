import CDRuntime.Runs

namespace CDRuntime

def invalidRollbackPoint : ℕ := 0xFFFFFFFF

/-- `SetRollbackPoint(rollback_lv, false)`: the new value of the cell and what is returned. -/
def setRollbackPoint (cell rollbackLv : ℕ) : ℕ × ℕ :=
  if rollbackLv ≠ invalidRollbackPoint then
    let minRbp := if rollbackLv < cell then rollbackLv else cell
    (minRbp, minRbp)
  else (invalidRollbackPoint, rollbackLv)

namespace RollbackCell

/-- What the task does next. `own` is a value read for the reduction of `SyncCDs`, `new` is
`new_rollback_point` and `lv` is `rollback_lv` of `GetCDToRecover`. -/
inductive Pc where
  | idle
  | beginSync (level : ℕ) (multi : Bool)
  | beginReduce (level own : ℕ)
  | beginSet (level new : ℕ)
  | beginDecide (level new : ℕ)
  | completeSync (level : ℕ) (collective : Bool)
  | completeReduce (level own : ℕ)
  | completeSet (level new : ℕ)
  | completeDecide (level new : ℕ)
  | recover (target : ℕ)
  | recoverSync (target lv : ℕ) (collective : Bool)
  | recoverReduce (target lv own : ℕ)
  | recoverSet (target lv new : ℕ)
  | reexec (target : ℕ)
  deriving DecidableEq, Repr

/-- `asked` holds the levels accumulated into the cell, by a request or a local update, that no
later decision to roll back has answered.  `unread` holds those that have been accumulated since
the task last read or reset its cell; a decision to roll back answers what it answers here too. -/
structure State where
  cell : ℕ
  pc : Pc
  asked : List ℕ
  unread : List ℕ
  deriving DecidableEq, Repr

/-- A request, the start of a `Begin` (`multi` is `task_size() > 1`) or of a `Complete`
(`collective` includes `task_size() > 1`), the read of `GetCDToRecover`, the result of a
reduction, and every other step of the task. -/
inductive Action where
  | request (level : ℕ)
  | beginCD (level : ℕ) (collective multi : Bool)
  | completeCD (level : ℕ) (collective : Bool)
  | recoverCD (collective : Bool)
  | reduce (value : ℕ)
  | next
  deriving DecidableEq, Repr

/-- `SetRollbackPoint(new, false)`. -/
def State.set (s : State) (new : ℕ) : State :=
  { s with
    cell := (setRollbackPoint s.cell new).1
    asked := if new ≠ invalidRollbackPoint then new :: s.asked else s.asked
    unread := if new ≠ invalidRollbackPoint then new :: s.unread else [] }

/-- The reset at the start of `Begin` is skipped by a first, non-collective execution. -/
def stepBegin (s : State) (level : ℕ) (collective multi : Bool) : Option State :=
  match s.pc with
  | .idle =>
      if collective then some { s.set invalidRollbackPoint with pc := .beginSync level multi }
      else some { s with pc := .beginSync level multi }
  | .reexec target =>
      if level = target then
        some { s.set invalidRollbackPoint with pc := .beginSync level multi }
      else none
  | _ => none

def stepReduce (s : State) (value : ℕ) : Option State :=
  match s.pc with
  | .beginReduce level own => if value ≤ own then some { s with pc := .beginSet level value } else none
  | .completeReduce level own =>
      if value ≤ own then some { s with pc := .completeSet level value } else none
  | .recoverReduce target lv own =>
      if value ≤ own then some { s with pc := .recoverSet target lv value } else none
  | _ => none

/-- The update of `GetCDToRecover` and what it leads to: the decision to roll back to `target`,
or one level up. -/
def recoverDecide (s : State) (target lv new : ℕ) : State :=
  -- a value above `lv` means that the others have not noticed the error yet
  let new := if lv = target ∧ lv < new then lv else new
  let s := s.set new
  if lv = target ∧ target = new then
    { s with
      pc := .reexec target
      asked := s.asked.filter (· < target)
      unread := s.unread.filter (· < target) }
  else { s with pc := .recover (target - 1) }

def stepNext (s : State) : Option State :=
  match s.pc with
  | .beginSync level multi =>
      if multi then some { s with pc := .beginReduce level s.cell, unread := [] }
      else some { s with pc := .beginSet level invalidRollbackPoint }
  | .beginSet level new => some { s.set new with pc := .beginDecide level new }
  | .beginDecide level new =>
      if new < level then some { s with pc := .recover level }
      else some { s with cell := invalidRollbackPoint, pc := .idle, unread := [] }
  | .completeSync level collective =>
      if collective then some { s with pc := .completeReduce level s.cell, unread := [] }
      else some { s with pc := .completeSet level s.cell, unread := [] }
  | .completeSet level new =>
      some { s.set new with pc := .completeDecide level (setRollbackPoint s.cell new).2 }
  | .completeDecide level new =>
      if new ≤ level then some { s with pc := .recover level } else some { s with pc := .idle }
  | .recoverSync target lv collective =>
      if collective then some { s with pc := .recoverReduce target lv s.cell, unread := [] }
      else some { s with pc := .recoverSet target lv s.cell, unread := [] }
  | .recoverSet target lv new => some (recoverDecide s target lv new)
  | _ => none

/-- `none` also stands for the error of `GetCDToRecover` on a level below the target. -/
def step (s : State) : Action → Option State
  | .request level =>
      if level < invalidRollbackPoint then
        some { s with
          cell := min level s.cell
          asked := level :: s.asked
          unread := level :: s.unread }
      else none
  | .beginCD level collective multi =>
      if level < invalidRollbackPoint then stepBegin s level collective multi else none
  | .completeCD level collective =>
      match s.pc with
      | .idle =>
          if level < invalidRollbackPoint then some { s with pc := .completeSync level collective }
          else none
      | _ => none
  | .recoverCD collective =>
      match s.pc with
      | .recover target =>
          if s.cell ≤ target then
            some { s with pc := .recoverSync target s.cell collective, unread := [] }
          else none
      | _ => none
  | .reduce value => stepReduce s value
  | .next => stepNext s

/-- No request is lost: what no decision has answered is still in the cell. -/
def Kept (s : State) : Prop := ∀ level ∈ s.asked, s.cell ≤ level

/-- The steps that write `INVALID_ROLLBACK_POINT` into the cell. -/
def Resets (s : State) : Action → Prop
  | .beginCD _ collective _ =>
      match s.pc with
      | .idle => collective = true
      | .reexec _ => True
      | _ => False
  | .next =>
      match s.pc with
      | .beginSet _ new => new = invalidRollbackPoint
      | .beginDecide level new => level ≤ new
      | .completeSet _ new => new = invalidRollbackPoint
      | _ => False
  | _ => False

/-- Nothing is accumulated into the cell between the last read of it and a reset. -/
def ResetsAfterRead (s : State) (a : Action) : Prop := Resets s a → s.unread = []

section Invariant

variable {s s' : State} {level : ℕ}

/-- What holds between the cell and the two logs at any point. -/
structure Logged (s : State) : Prop where
  kept : Kept s
  valid : ∀ level ∈ s.asked, level < invalidRollbackPoint
  bound : s.cell ≤ invalidRollbackPoint
  recorded : ∀ level ∈ s.unread, level ∈ s.asked

/-- Everything that the task has read has been answered, or is accumulated again. -/
def CaughtUp (s : State) : Prop := s.unread = [] → s.asked = []

def LaterBelow (s : State) (own : ℕ) : Prop := ∀ level ∈ s.asked, level < own → level ∈ s.unread

/-- What the task knows at each point. -/
def Knows (s : State) : Prop :=
  match s.pc with
  | .idle => CaughtUp s
  | .beginSync level _ => level < invalidRollbackPoint ∧ CaughtUp s
  | .beginReduce level own | .beginSet level own =>
      level < invalidRollbackPoint ∧ own ≤ invalidRollbackPoint ∧
        (own = invalidRollbackPoint → CaughtUp s)
  | .beginDecide level new =>
      level < invalidRollbackPoint ∧ CaughtUp s ∧ (new < level → s.cell ≤ new)
  | .completeSync level _ => level < invalidRollbackPoint
  | .completeReduce level own | .completeSet level own =>
      level < invalidRollbackPoint ∧ own ≤ invalidRollbackPoint ∧
        (own = invalidRollbackPoint → CaughtUp s)
  | .completeDecide level new =>
      level < invalidRollbackPoint ∧ CaughtUp s ∧ (new ≤ level → s.cell ≤ new)
  | .recover target => target < invalidRollbackPoint ∧ s.cell ≤ target
  | .recoverSync target lv _ => target < invalidRollbackPoint ∧ lv ≤ target ∧ s.cell ≤ lv
  | .recoverReduce target lv own | .recoverSet target lv own =>
      target < invalidRollbackPoint ∧ lv ≤ target ∧ own ≤ lv ∧ LaterBelow s own
  | .reexec _ => ∀ level ∈ s.asked, level ∈ s.unread

structure Inv (s : State) : Prop where
  logged : Logged s
  knows : Knows s

theorem setRollbackPoint_valid {cell new : ℕ} (h : new < invalidRollbackPoint) :
    setRollbackPoint cell new = (min new cell, min new cell) := by
  rw [setRollbackPoint, if_pos (Nat.ne_of_lt h)]
  dsimp only
  split_ifs with hlt
  · rw [Nat.min_eq_left (Nat.le_of_lt hlt)]
  · rw [Nat.min_eq_right (by omega)]

theorem set_valid {new : ℕ} (h : new < invalidRollbackPoint) :
    s.set new =
      { s with cell := min new s.cell, asked := new :: s.asked, unread := new :: s.unread } := by
  rw [State.set, setRollbackPoint_valid h, if_pos (Nat.ne_of_lt h), if_pos (Nat.ne_of_lt h)]

theorem set_invalid (s : State) :
    s.set invalidRollbackPoint = { s with cell := invalidRollbackPoint, unread := [] } := by
  rw [State.set, setRollbackPoint, if_neg (fun h => h rfl), if_neg (fun h => h rfl),
    if_neg (fun h => h rfl)]

/-- A level that enters the cell enters both logs. -/
theorem Logged.insert (h : Logged s) (hl : level < invalidRollbackPoint)
    (hcell : s'.cell = min level s.cell) (hasked : s'.asked = level :: s.asked)
    (hunread : s'.unread = level :: s.unread) : Logged s' := by
  have hbound := h.bound
  refine ⟨?_, ?_, by omega, ?_⟩
  · intro k hk
    rw [hcell]
    rw [hasked] at hk
    obtain rfl | hk := List.mem_cons.mp hk
    · exact Nat.min_le_left _ _
    · exact Nat.le_trans (Nat.min_le_right _ _) (h.kept k hk)
  · intro k hk
    rw [hasked] at hk
    obtain rfl | hk := List.mem_cons.mp hk
    · exact hl
    · exact h.valid k hk
  · intro k hk
    rw [hunread] at hk
    rw [hasked]
    obtain rfl | hk := List.mem_cons.mp hk
    · exact List.mem_cons_self
    · exact List.mem_cons_of_mem _ (h.recorded k hk)

/-- A read changes nothing but the log of what is unread. -/
theorem Logged.read (h : Logged s) (hcell : s'.cell = s.cell) (hasked : s'.asked = s.asked)
    (hunread : s'.unread = []) : Logged s' := by
  refine ⟨?_, by rw [hasked]; exact h.valid, by rw [hcell]; exact h.bound, by simp [hunread]⟩
  unfold Kept
  rw [hcell, hasked]
  exact h.kept

theorem logged_of_nil (hcell : s.cell ≤ invalidRollbackPoint) (hasked : s.asked = [])
    (hunread : s.unread = []) : Logged s :=
  ⟨by simp [Kept, hasked], by simp [hasked], hcell, by simp [hunread]⟩

theorem Logged.asked_nil (h : Logged s) (hcell : s.cell = invalidRollbackPoint) : s.asked = [] := by
  apply List.eq_nil_iff_forall_not_mem.mpr
  intro level hmem
  have hk := h.kept level hmem
  have hv := h.valid level hmem
  omega

theorem Logged.reset_drops (h : Logged s) (hunread : s.unread ≠ [])
    (hcell : s'.cell = invalidRollbackPoint) (hasked : s'.asked = s.asked) : ¬ Kept s' := by
  intro hkept
  obtain ⟨level, hmem⟩ := List.exists_mem_of_ne_nil _ hunread
  have hasked' := h.recorded level hmem
  have hle := hkept level (by rw [hasked]; exact hasked')
  have hv := h.valid level hasked'
  omega

theorem caughtUp_cons {log : List ℕ} (h : s.unread = level :: log) : CaughtUp s := by
  intro hnil
  rw [h] at hnil
  cases hnil

theorem LaterBelow.insert {own : ℕ} (h : LaterBelow s own) (hasked : s'.asked = level :: s.asked)
    (hunread : s'.unread = level :: s.unread) : LaterBelow s' own := by
  intro k hk hlt
  rw [hasked] at hk
  rw [hunread]
  obtain rfl | hk := List.mem_cons.mp hk
  · exact List.mem_cons_self
  · exact List.mem_cons_of_mem _ (h k hk hlt)

end Invariant

section Step

variable {s s' : State}

theorem request_inv {level : ℕ} (h : Inv s) (hstep : step s (.request level) = some s') :
    Inv s' := by
  simp only [step] at hstep
  split_ifs at hstep with hl
  cases hstep
  refine ⟨h.logged.insert hl rfl rfl rfl, ?_⟩
  have hknows := h.knows
  have hmin : min level s.cell ≤ s.cell := Nat.min_le_right _ _
  obtain ⟨cell, pc, asked, unread⟩ := s
  cases pc with
  | idle => exact caughtUp_cons rfl
  | beginSync => exact ⟨hknows.1, caughtUp_cons rfl⟩
  | beginReduce => exact ⟨hknows.1, hknows.2.1, fun _ => caughtUp_cons rfl⟩
  | beginSet => exact ⟨hknows.1, hknows.2.1, fun _ => caughtUp_cons rfl⟩
  | beginDecide =>
      exact ⟨hknows.1, caughtUp_cons rfl, fun hlt => Nat.le_trans hmin (hknows.2.2 hlt)⟩
  | completeSync => exact hknows
  | completeReduce => exact ⟨hknows.1, hknows.2.1, fun _ => caughtUp_cons rfl⟩
  | completeSet => exact ⟨hknows.1, hknows.2.1, fun _ => caughtUp_cons rfl⟩
  | completeDecide =>
      exact ⟨hknows.1, caughtUp_cons rfl, fun hle => Nat.le_trans hmin (hknows.2.2 hle)⟩
  | recover => exact ⟨hknows.1, Nat.le_trans hmin hknows.2⟩
  | recoverSync => exact ⟨hknows.1, hknows.2.1, Nat.le_trans hmin hknows.2.2⟩
  | recoverReduce => exact ⟨hknows.1, hknows.2.1, hknows.2.2.1, hknows.2.2.2.insert rfl rfl⟩
  | recoverSet => exact ⟨hknows.1, hknows.2.1, hknows.2.2.1, hknows.2.2.2.insert rfl rfl⟩
  | reexec =>
      intro k hk
      obtain rfl | hk := List.mem_cons.mp hk
      · exact List.mem_cons_self
      · exact List.mem_cons_of_mem _ (hknows k hk)

theorem begin_inv {level : ℕ} {collective multi : Bool} (h : Inv s)
    (hg : ResetsAfterRead s (.beginCD level collective multi))
    (hstep : step s (.beginCD level collective multi) = some s') : Inv s' := by
  have hknows := h.knows
  obtain ⟨cell, pc, asked, unread⟩ := s
  cases pc with
  | idle =>
      simp only [step, stepBegin, set_invalid] at hstep
      split_ifs at hstep with hl hc
      · cases hstep
        have hnil : asked = [] := hknows (hg hc)
        exact ⟨logged_of_nil (Nat.le_refl _) hnil rfl, hl, fun _ => hnil⟩
      · cases hstep
        exact ⟨⟨h.logged.kept, h.logged.valid, h.logged.bound, h.logged.recorded⟩, hl, hknows⟩
  | reexec target =>
      simp only [step, stepBegin, set_invalid] at hstep
      split_ifs at hstep with hl ht
      cases hstep
      have hunread : unread = [] := hg trivial
      have hnil : asked = [] := by
        apply List.eq_nil_iff_forall_not_mem.mpr
        intro k hk
        have hmem : k ∈ unread := hknows k hk
        rw [hunread] at hmem
        exact List.not_mem_nil hmem
      exact ⟨logged_of_nil (Nat.le_refl _) hnil rfl, hl, fun _ => hnil⟩
  | _ =>
      simp only [step, stepBegin, ite_self] at hstep
      cases hstep

theorem begin_bad {level : ℕ} {collective multi : Bool} (h : Inv s)
    (hg : ¬ ResetsAfterRead s (.beginCD level collective multi))
    (hstep : step s (.beginCD level collective multi) = some s') : ¬ Kept s' := by
  obtain ⟨hreset, hunread⟩ := Classical.not_imp.mp hg
  obtain ⟨cell, pc, asked, unread⟩ := s
  cases pc with
  | idle =>
      simp only [step, stepBegin, set_invalid] at hstep
      split_ifs at hstep with hl hc
      · cases hstep
        exact h.logged.reset_drops hunread rfl rfl
      · exact (hc hreset).elim
  | reexec target =>
      simp only [step, stepBegin, set_invalid] at hstep
      split_ifs at hstep with hl ht
      cases hstep
      exact h.logged.reset_drops hunread rfl rfl
  | _ =>
      simp only [step, stepBegin, ite_self] at hstep
      cases hstep

theorem complete_inv {level : ℕ} {collective : Bool} (h : Inv s)
    (hstep : step s (.completeCD level collective) = some s') : Inv s' := by
  obtain ⟨cell, pc, asked, unread⟩ := s
  simp only [step] at hstep
  cases pc with
  | idle =>
      dsimp only at hstep
      split_ifs at hstep with hl
      cases hstep
      exact ⟨⟨h.logged.kept, h.logged.valid, h.logged.bound, h.logged.recorded⟩, hl⟩
  | _ => cases hstep

theorem recover_inv {collective : Bool} (h : Inv s)
    (hstep : step s (.recoverCD collective) = some s') : Inv s' := by
  have hknows := h.knows
  obtain ⟨cell, pc, asked, unread⟩ := s
  simp only [step] at hstep
  cases pc with
  | recover target =>
      dsimp only at hstep
      split_ifs at hstep with hle
      cases hstep
      exact ⟨h.logged.read rfl rfl rfl, hknows.1, hle, Nat.le_refl _⟩
  | _ => cases hstep

theorem reduce_inv {value : ℕ} (h : Inv s) (hstep : step s (.reduce value) = some s') :
    Inv s' := by
  have hknows := h.knows
  have hlogged := h.logged
  obtain ⟨cell, pc, asked, unread⟩ := s
  simp only [step, stepReduce] at hstep
  -- only an own value of none can be reduced to none
  have hnone : ∀ own, own ≤ invalidRollbackPoint → value ≤ own → value = invalidRollbackPoint →
      own = invalidRollbackPoint := fun own _ _ _ => by omega
  cases pc with
  | beginReduce level own =>
      dsimp only at hstep
      split_ifs at hstep with hle
      cases hstep
      exact ⟨⟨hlogged.kept, hlogged.valid, hlogged.bound, hlogged.recorded⟩, hknows.1,
        Nat.le_trans hle hknows.2.1, fun hv => hknows.2.2 (hnone own hknows.2.1 hle hv)⟩
  | completeReduce level own =>
      dsimp only at hstep
      split_ifs at hstep with hle
      cases hstep
      exact ⟨⟨hlogged.kept, hlogged.valid, hlogged.bound, hlogged.recorded⟩, hknows.1,
        Nat.le_trans hle hknows.2.1, fun hv => hknows.2.2 (hnone own hknows.2.1 hle hv)⟩
  | recoverReduce target lv own =>
      dsimp only at hstep
      split_ifs at hstep with hle
      cases hstep
      exact ⟨⟨hlogged.kept, hlogged.valid, hlogged.bound, hlogged.recorded⟩, hknows.1, hknows.2.1,
        Nat.le_trans hle hknows.2.2.1,
        fun k hk hlt => hknows.2.2.2 k hk (Nat.lt_of_lt_of_le hlt hle)⟩
  | _ => cases hstep

theorem recoverDecide_inv {target lv new : ℕ} (h : Logged s) (ht : target < invalidRollbackPoint)
    (hlv : lv ≤ target) (hnew : new ≤ lv) (hlater : LaterBelow s new) :
    Inv (recoverDecide s target lv new) := by
  have hvalid : new < invalidRollbackPoint := by omega
  have hsame : (if lv = target ∧ lv < new then lv else new) = new := if_neg (by omega)
  simp only [recoverDecide, hsame, set_valid hvalid]
  have hmin : min new s.cell ≤ new := Nat.min_le_left _ _
  have hlogged : Logged { s with
      cell := min new s.cell, asked := new :: s.asked, unread := new :: s.unread } :=
    h.insert hvalid rfl rfl rfl
  split_ifs with hdec
  · obtain ⟨rfl, rfl⟩ := hdec
    refine ⟨⟨?_, ?_, hlogged.bound, ?_⟩, ?_⟩
    · intro k hk
      exact hlogged.kept k (List.mem_filter.mp hk).1
    · intro k hk
      exact hlogged.valid k (List.mem_filter.mp hk).1
    · intro k hk
      obtain ⟨hmem, hlt⟩ := List.mem_filter.mp hk
      exact List.mem_filter.mpr ⟨hlogged.recorded k hmem, hlt⟩
    · intro k hk
      obtain ⟨hmem, hlt⟩ := List.mem_filter.mp hk
      refine List.mem_filter.mpr ⟨?_, hlt⟩
      have hlater' : LaterBelow { s with
          cell := min lv s.cell, asked := lv :: s.asked, unread := lv :: s.unread } lv :=
        hlater.insert rfl rfl
      exact hlater' k hmem (of_decide_eq_true hlt)
  · refine ⟨⟨hlogged.kept, hlogged.valid, hlogged.bound, hlogged.recorded⟩,
      Nat.lt_of_le_of_lt (Nat.sub_le _ _) ht, ?_⟩
    show min new s.cell ≤ target - 1
    omega

theorem set_inv {new : ℕ} (h : Logged s) (hnew : new ≤ invalidRollbackPoint)
    (hcaught : new = invalidRollbackPoint → CaughtUp s)
    (hg : new = invalidRollbackPoint → s.unread = []) :
    Logged (s.set new) ∧ CaughtUp (s.set new) ∧ (s.set new).cell ≤ new := by
  rcases Nat.eq_or_lt_of_le hnew with rfl | hlt
  · have hnil := hcaught rfl (hg rfl)
    rw [set_invalid]
    exact ⟨logged_of_nil (Nat.le_refl _) hnil rfl, fun _ => hnil, Nat.le_refl _⟩
  · rw [set_valid hlt]
    exact ⟨h.insert hlt rfl rfl rfl, caughtUp_cons rfl, Nat.min_le_left _ _⟩

theorem next_inv (h : Inv s) (hg : ResetsAfterRead s .next) (hstep : step s .next = some s') :
    Inv s' := by
  have hknows := h.knows
  have hlogged := h.logged
  obtain ⟨cell, pc, asked, unread⟩ := s
  cases pc with
  | beginSync level multi =>
      simp only [step, stepNext] at hstep
      split_ifs at hstep
      · cases hstep
        exact ⟨hlogged.read rfl rfl rfl, hknows.1, hlogged.bound,
          fun hcell _ => hlogged.asked_nil hcell⟩
      · cases hstep
        exact ⟨⟨hlogged.kept, hlogged.valid, hlogged.bound, hlogged.recorded⟩, hknows.1,
          Nat.le_refl _, fun _ => hknows.2⟩
  | beginSet level new =>
      cases hstep
      obtain ⟨hset, hcaught, hle⟩ := set_inv hlogged hknows.2.1 hknows.2.2 hg
      exact ⟨⟨hset.kept, hset.valid, hset.bound, hset.recorded⟩, hknows.1, hcaught, fun _ => hle⟩
  | beginDecide level new =>
      simp only [step, stepNext] at hstep
      split_ifs at hstep with hlt
      · cases hstep
        have hcell := hknows.2.2 hlt
        exact ⟨⟨hlogged.kept, hlogged.valid, hlogged.bound, hlogged.recorded⟩, hknows.1,
          by dsimp only at hcell ⊢; omega⟩
      · cases hstep
        have hnil : asked = [] := hknows.2.1 (hg (Nat.le_of_not_lt hlt))
        exact ⟨logged_of_nil (Nat.le_refl _) hnil rfl, fun _ => hnil⟩
  | completeSync level collective =>
      simp only [step, stepNext] at hstep
      split_ifs at hstep
      · cases hstep
        exact ⟨hlogged.read rfl rfl rfl, hknows, hlogged.bound,
          fun hcell _ => hlogged.asked_nil hcell⟩
      · cases hstep
        exact ⟨hlogged.read rfl rfl rfl, hknows, hlogged.bound,
          fun hcell _ => hlogged.asked_nil hcell⟩
  | completeSet level new =>
      cases hstep
      obtain ⟨hset, hcaught, -⟩ := set_inv hlogged hknows.2.1 hknows.2.2 hg
      refine ⟨⟨hset.kept, hset.valid, hset.bound, hset.recorded⟩, hknows.1, hcaught, fun _ => ?_⟩
      -- what is returned is what the cell holds now
      rcases Nat.eq_or_lt_of_le hknows.2.1 with rfl | hlt
      · exact hset.bound
      · apply Nat.le_of_eq
        rw [setRollbackPoint_valid hlt, set_valid hlt]
  | completeDecide level new =>
      simp only [step, stepNext] at hstep
      split_ifs at hstep with hle
      · cases hstep
        have hcell := hknows.2.2 hle
        exact ⟨⟨hlogged.kept, hlogged.valid, hlogged.bound, hlogged.recorded⟩, hknows.1,
          by dsimp only at hcell ⊢; omega⟩
      · cases hstep
        exact ⟨⟨hlogged.kept, hlogged.valid, hlogged.bound, hlogged.recorded⟩, hknows.2.1⟩
  | recoverSync target lv collective =>
      have hlater : ∀ k ∈ asked, k < cell → k ∈ ([] : List ℕ) := by
        intro k hk hlt
        have hkept : cell ≤ k := hlogged.kept k hk
        omega
      simp only [step, stepNext] at hstep
      split_ifs at hstep
      · cases hstep
        exact ⟨hlogged.read rfl rfl rfl, hknows.1, hknows.2.1, hknows.2.2, hlater⟩
      · cases hstep
        exact ⟨hlogged.read rfl rfl rfl, hknows.1, hknows.2.1, hknows.2.2, hlater⟩
  | recoverSet target lv new =>
      cases hstep
      exact recoverDecide_inv hlogged hknows.1 hknows.2.1 hknows.2.2.1 hknows.2.2.2
  | _ => cases hstep

theorem next_bad (h : Inv s) (hg : ¬ ResetsAfterRead s .next) (hstep : step s .next = some s') :
    ¬ Kept s' := by
  obtain ⟨hreset, hunread⟩ := Classical.not_imp.mp hg
  obtain ⟨cell, pc, asked, unread⟩ := s
  cases pc with
  | beginSet level new =>
      obtain rfl : new = invalidRollbackPoint := hreset
      simp only [step, stepNext, set_invalid, Option.some.injEq] at hstep
      subst hstep
      exact h.logged.reset_drops hunread rfl rfl
  | beginDecide level new =>
      simp only [step, stepNext, if_neg (Nat.not_lt.mpr hreset), Option.some.injEq] at hstep
      subst hstep
      exact h.logged.reset_drops hunread rfl rfl
  | completeSet level new =>
      obtain rfl : new = invalidRollbackPoint := hreset
      simp only [step, stepNext, set_invalid, Option.some.injEq] at hstep
      subst hstep
      exact h.logged.reset_drops hunread rfl rfl
  | _ => exact hreset.elim

end Step

theorem step_inv (s : State) (a : Action) (s' : State) (h : Inv s) (hg : ResetsAfterRead s a)
    (hstep : step s a = some s') : Inv s' := by
  cases a with
  | request level => exact request_inv h hstep
  | beginCD level collective multi => exact begin_inv h hg hstep
  | completeCD level collective => exact complete_inv h hstep
  | recoverCD collective => exact recover_inv h hstep
  | reduce value => exact reduce_inv h hstep
  | next => exact next_inv h hg hstep

theorem step_bad (s : State) (a : Action) (s' : State) (h : Inv s) (hg : ¬ ResetsAfterRead s a)
    (hstep : step s a = some s') : ¬ Kept s' := by
  cases a with
  | beginCD level collective multi => exact begin_bad h hg hstep
  | next => exact next_bad h hg hstep
  | _ => exact (hg fun hreset => hreset.elim).elim

/-- A task outside every `Begin` and `Complete`, with no request in its cell. -/
def start : State := { cell := invalidRollbackPoint, pc := .idle, asked := [], unread := [] }

theorem start_inv : Inv start :=
  ⟨logged_of_nil (Nat.le_refl _) rfl rfl, fun _ => rfl⟩

/-- In every interleaving of requests with the steps of the task no request is lost, if and only
if nothing arrives between a read of the cell and the reset that relies on it. -/
theorem requests_kept_iff (actions : List Action) :
    Runs.Always step Kept start actions ↔ Runs.Guarded step ResetsAfterRead start actions :=
  Runs.always_iff_guarded (fun _ h => h.logged.kept) step_inv step_bad actions start start_inv

theorem request_lost_in_complete :
    ¬ Runs.Always step Kept start
      [.completeCD 1 false, .next, .request 0, .next] := by
  intro h
  have hkept := Runs.Always.last _ _
    ⟨invalidRollbackPoint, .completeDecide 1 invalidRollbackPoint, [0], []⟩ h (by decide)
  exact absurd (hkept 0 List.mem_cons_self) (by decide)

end RollbackCell

end CDRuntime
