import CDRuntime.PhaseMarks

namespace CDRuntime.Recovery
open Phase Runs

/-- `failed_phase` and `failed_seqID`, and the call of the program that failed. -/
structure Failure where
  failedPhase : ℕ
  failedSeqID : ℕ
  call : ℕ
  deriving DecidableEq, Repr

/-- An open CD and the call that its jump buffer leads to. -/
structure OpenCD where
  label : String
  phase : ℕ
  jump : ℕ
  deriving DecidableEq, Repr

/-- A task runs a fixed well-nested list of calls. A completion may detect an error; the task then
goes back to an open CD and makes the same calls from its `Begin` on. -/
structure Task where
  tree : PhaseTree := {}
  prevPhase : Option ℕ := none
  failed : Option Failure := none
  cds : List OpenCD := []
  pos : ℕ := 0
  -- the chains of labels begun so far
  begun : List (List String) := []
  trap : Option Trap := none
  deriving DecidableEq, Repr

def Task.labels (s : Task) : List String :=
  s.cds.map (·.label)

/-- `returned_from_child_lv` in `CD::Begin`: the phase begun before is on a deeper level. -/
def returnedFromChildLv (t : PhaseTree) (prevPhase : Option ℕ) (level : ℕ) : Bool :=
  match prevPhase with
  | none => false
  | some q => decide (level < (t.node ((t.nodeOf q).getD 0)).level)

/-- `MarkSeqID` in `CD::Begin`, left out after the same phase and after a deeper level. -/
def markBegun (t : PhaseTree) (prevPhase : Option ℕ) (phase level : ℕ) : PhaseTree :=
  if prevPhase = some phase ∨ returnedFromChildLv t prevPhase level then t
  else
    match t.current with
    | none => t
    | some p => t.modify p fun n => n.markSeqID (n.left.map t.node)

/-- `CD::Begin`; a failed assertion ends the run. -/
def Task.beginCD (env : Env) (s : Task) (label : String) (medium : PrvMedium) (errorVec : ℤ) :
    Task :=
  let level := s.cds.length % 2 ^ 32
  match s.tree.beginPhase env level label medium errorVec with
  | .error e => { s with trap := some e }
  | .ok (phase, t) => { s with
      tree := markBegun t s.prevPhase phase level
      prevPhase := some phase
      cds := ⟨label, phase, s.pos⟩ :: s.cds
      pos := s.pos + 1
      begun := (label :: s.labels) :: s.begun }

theorem beginCD_ok {env : Env} {s : Task} {label : String} {medium : PrvMedium} {errorVec : ℤ}
    {phase : ℕ} {t : PhaseTree}
    (h : s.tree.beginPhase env (s.cds.length % 2 ^ 32) label medium errorVec = .ok (phase, t)) :
    s.beginCD env label medium errorVec = { s with
      tree := markBegun t s.prevPhase phase (s.cds.length % 2 ^ 32)
      prevPhase := some phase
      cds := ⟨label, phase, s.pos⟩ :: s.cds
      pos := s.pos + 1
      begun := (label :: s.labels) :: s.begun } := by
  simp only [Task.beginCD, h]

/-- What `CD::Complete` does about the failure that the task recovers from: `SetHealthy` where
phase and sequence number are those of the failure. -/
def Task.reachFailure (s : Task) (phase : ℕ) : Except Trap (PhaseTree × Option Failure) :=
  match s.failed, s.tree.current with
  | none, _ => .ok (s.tree, none)
  | some _, none => .error .noPhase
  | some f, some p =>
      if f.failedPhase = phase then
        if f.failedSeqID = (s.tree.node p).seqEnd then
          match s.tree.finishRecovery p p with
          | .error e => .error e
          | .ok t => .ok (t, none)
        else if f.failedSeqID > (s.tree.node p).seqEnd then .ok (s.tree, some f)
        else .error .passedFailure
      else .ok (s.tree, some f)

theorem reachFailure_failed {s : Task} {f : Failure} {p : ℕ} (hfailed : s.failed = some f)
    (hcur : s.tree.current = some p) (phase : ℕ) : s.reachFailure phase =
      if f.failedPhase = phase then
        if f.failedSeqID = (s.tree.node p).seqEnd then
          match s.tree.finishRecovery p p with
          | .error e => .error e
          | .ok t => .ok (t, none)
        else if f.failedSeqID > (s.tree.node p).seqEnd then .ok (s.tree, some f)
        else .error .passedFailure
      else .ok (s.tree, some f) := by
  rw [Task.reachFailure, hfailed, hcur]

/-- `CD::Complete` without an error. -/
def Task.completeCD (s : Task) (cd : OpenCD) (cds : List OpenCD) : Task :=
  match s.reachFailure cd.phase with
  | .error e => { s with trap := some e }
  | .ok (t, failed) =>
      match t.completePhase failed.isNone false with
      | .error e => { s with trap := some e }
      | .ok t => { s with tree := t, failed := failed, cds := cds, pos := s.pos + 1 }

theorem completeCD_error {s : Task} {cd : OpenCD} {e : Trap}
    (hreach : s.reachFailure cd.phase = .error e) (cds : List OpenCD) :
    s.completeCD cd cds = { s with trap := some e } := by
  rw [Task.completeCD, hreach]

theorem completeCD_trap {s : Task} {cd : OpenCD} {t : PhaseTree} {failed : Option Failure}
    {e : Trap} (hreach : s.reachFailure cd.phase = .ok (t, failed))
    (hcomplete : t.completePhase failed.isNone false = .error e) (cds : List OpenCD) :
    s.completeCD cd cds = { s with trap := some e } := by
  simp only [Task.completeCD, hreach, hcomplete]

theorem completeCD_ok {s : Task} {cd : OpenCD} {t t' : PhaseTree} {failed : Option Failure}
    (hreach : s.reachFailure cd.phase = .ok (t, failed))
    (hcomplete : t.completePhase failed.isNone false = .ok t') (cds : List OpenCD) :
    s.completeCD cd cds =
      { s with tree := t', failed := failed, cds := cds, pos := s.pos + 1 } := by
  simp only [Task.completeCD, hreach, hcomplete]

def Task.setFailure (s : Task) (phase : ℕ) : Failure :=
  match s.failed with
  | none => ⟨phase, (s.tree.current.map fun p => (s.tree.node p).seqEnd).getD 0, s.pos⟩
  | some f => f

/-- `CD::Complete` with an error: `GetCDToRecover` up to `rollbackLv`, and the jump. -/
def Task.rollback (s : Task) (cd : OpenCD) (rollbackLv : ℕ) : Option Task :=
  let n := s.cds.length - rollbackLv
  match s.cds[n - 1]? with
  | none => none
  | some target =>
      match s.tree.rewind rollbackLv n with
      | .error e => some { s with trap := some e }
      | .ok t => some { s with
          tree := t
          failed := some (s.setFailure cd.phase)
          cds := s.cds.drop n
          pos := target.jump }

/-- What happens at a call: it succeeds, or a completion fails with this rollback level. -/
inductive Event where
  | ok
  | fail (rollbackLv : ℕ)
  deriving DecidableEq, Repr

def Task.step (env : Env) (program : List Op) (s : Task) (e : Event) : Option Task :=
  if s.trap.isSome then none
  else
    match program[s.pos]? with
    | none => none
    | some (.beginPhase label medium errorVec) =>
        match e with
        | .ok => some (s.beginCD env label medium errorVec)
        | .fail _ => none
    | some .completePhase =>
        match s.cds with
        | [] => none
        | cd :: cds =>
            match e with
            | .ok => some (s.completeCD cd cds)
            | .fail rollbackLv =>
                if rollbackLv < s.cds.length then s.rollback cd rollbackLv else none

section Step

variable {env : Env} {program : List Op} {s : Task}

theorem step_begin (htrap : s.trap = none) {label : String} {m : PrvMedium} {x : ℤ}
    (hcall : program[s.pos]? = some (.beginPhase label m x)) :
    s.step env program .ok = some (s.beginCD env label m x) := by
  simp only [Task.step, htrap, hcall, Option.isSome_none, Bool.false_eq_true, if_false]

theorem step_complete (htrap : s.trap = none) (hcall : program[s.pos]? = some .completePhase)
    {cd : OpenCD} {cds : List OpenCD} (hcds : s.cds = cd :: cds) :
    s.step env program .ok = some (s.completeCD cd cds) := by
  simp only [Task.step, htrap, hcall, hcds, Option.isSome_none, Bool.false_eq_true, if_false]

theorem step_fail {rollbackLv : ℕ} {s' : Task}
    (h : s.step env program (.fail rollbackLv) = some s') :
    s.trap = none ∧ program[s.pos]? = some .completePhase ∧ rollbackLv < s.cds.length ∧
      ∃ cd cds, s.cds = cd :: cds ∧ s.rollback cd rollbackLv = some s' := by
  unfold Task.step at h
  split at h
  · cases h
  rename_i htrap
  refine ⟨Option.not_isSome_iff_eq_none.mp htrap, ?_⟩
  cases hcall : program[s.pos]? with
  | none =>
      rw [hcall] at h
      cases h
  | some op =>
      rw [hcall] at h
      cases op with
      | beginPhase label m x => cases h
      | completePhase =>
          dsimp only at h
          cases hcds : s.cds with
          | nil =>
              rw [hcds] at h
              cases h
          | cons cd cds =>
              rw [hcds] at h
              dsimp only at h
              split at h
              · rename_i hlv
                exact ⟨rfl, hlv, cd, cds, rfl, h⟩
              · cases h

end Step

/-- In healthy state no node is marked for re-execution, and no assertion on a mark has failed. -/
structure Consistent (s : Task) : Prop where
  healthy : s.failed = none → ∀ p < s.tree.heap.length, (s.tree.node p).state ≠ .reexecution
  finish : s.trap ≠ some .finishRecovery
  new : s.trap ≠ some .newPhase

/-- The condition on a step: when the call that failed completes again, its node has the
sequence number of the failure; and an error is detected only while the chains of labels
begun so far are told apart. -/
def Recognized (env : Env) (s : Task) : Event → Prop
  | .ok => ∀ f p, s.failed = some f → f.call = s.pos → s.tree.current = some p →
      (s.tree.node p).seqEnd = f.failedSeqID
  | .fail _ => Distinct env.myTaskID s.begun

instance (env : Env) (s : Task) : (e : Event) → Decidable (Recognized env s e)
  | .ok =>
      decidable_of_iff (∀ f ∈ s.failed, ∀ p ∈ s.tree.current, f.call = s.pos →
          (s.tree.node p).seqEnd = f.failedSeqID)
        ⟨fun h f p hf hcall hp => h f hf p hp hcall, fun h f hf p hp hcall => h f p hf hcall hp⟩
  | .fail _ => inferInstanceAs (Decidable (Distinct env.myTaskID s.begun))

/-- The labels of the CDs that are open before call `n`, and the calls that began them. -/
def opened (program : List Op) : ℕ → List (String × ℕ)
  | 0 => []
  | n + 1 =>
      match program[n]? with
      | some (.beginPhase label _ _) => (label, n) :: opened program n
      | some .completePhase => (opened program n).tail
      | none => opened program n

section Opened

variable {program : List Op}

/-- A CD that is open at a call was begun before it, inside the CDs below it. -/
theorem opened_suffix (n : ℕ) : ∀ {l : String} {b : ℕ} {rest : List (String × ℕ)},
    (l, b) :: rest <:+ opened program n →
    b < n ∧ opened program b = rest ∧ (∃ m e, program[b]? = some (.beginPhase l m e)) ∧
      ∀ k, b < k → k ≤ n → (l, b) :: rest <:+ opened program k := by
  induction n with
  | zero =>
      intro l b rest h
      exact absurd (List.suffix_nil.mp h) (List.cons_ne_nil _ _)
  | succ n ih =>
      intro l b rest h
      have hlift : (l, b) :: rest <:+ opened program n →
          b < n + 1 ∧ opened program b = rest ∧ (∃ m e, program[b]? = some (.beginPhase l m e)) ∧
            ∀ k, b < k → k ≤ n + 1 → (l, b) :: rest <:+ opened program k := by
        intro hn
        obtain ⟨hlt, hrest, hcall, hall⟩ := ih hn
        refine ⟨Nat.lt_succ_of_lt hlt, hrest, hcall, fun k hk hkn => ?_⟩
        obtain hkn | rfl := Nat.lt_or_eq_of_le hkn
        · exact hall k hk (Nat.le_of_lt_succ hkn)
        · exact h
      rw [opened] at h
      cases hcall : program[n]? with
      | none =>
          rw [hcall] at h
          exact hlift h
      | some op =>
          rw [hcall] at h
          cases op with
          | beginPhase label m e =>
              obtain heq | h' := List.suffix_cons_iff.mp h
              · -- the CD that call `n` begins
                obtain ⟨hhead, rfl⟩ := List.cons.inj heq
                obtain ⟨rfl, rfl⟩ := Prod.mk.inj hhead
                refine ⟨Nat.lt_succ_self b, rfl, ⟨m, e, hcall⟩, fun k hk hkn => ?_⟩
                obtain rfl : k = b + 1 := by omega
                rw [opened, hcall]
              · exact hlift h'
          | completePhase => exact hlift (h.trans (List.tail_suffix _))

end Opened

end CDRuntime.Recovery
