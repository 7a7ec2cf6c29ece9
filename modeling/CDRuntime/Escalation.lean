import CDRuntime.Packer
import CDRuntime.PhaseRewind
import CDRuntime.RollbackCell

namespace CDRuntime.Escalation
open Phase

/-- What the runtime is built for (`CD_MPI_ENABLED` and `_MPI_VER`) and `tuned::tuning_enabled`. -/
structure Config where
  mpi : Bool
  tuningEnabled : Bool
  deriving DecidableEq, Repr

inductive Stop where
  -- the error at the end of `GetCDToRecover`
  | invalidEscalation
  -- `begin_ == true` in `UnsetBegin`
  | notBegun
  -- `CDPath::GetCDPath()->size() > 0` in `Destroy`
  | emptyPath
  -- the error of `GetCDLevel`
  | noLevel
  -- a use of `phaseTree.current_` that is null
  | noPhase
  | outOfFuel
  deriving DecidableEq, Repr

structure CD where
  level : ℕ
  phase : ℕ
  begun : Bool
  reportedError : Bool
  preserveCount : ℕ
  restoreCount : ℕ
  entryDirectory : Packer
  remoteEntryDirectoryMap : List (UInt64 × CDEntry)

/-- A single task (`totalTaskSize` is 1), where the rollback point is a plain cell. A handle that
has been removed from the path keeps its domain, which is found again under its name. `Logs` is
what `CompleteLogs` reads and writes: the logs of all domains. -/
structure Runtime (Logs : Type) where
  cds : ℕ → CD
  path : List ℕ
  phaseTree : PhaseTree
  good : Bool
  rollbackPoint : ℕ
  pendingFlag : UInt32
  handledEventCount : UInt32
  logs : Logs

namespace Runtime

variable {Logs : Type}

def modifyCD (s : Runtime Logs) (d : ℕ) (f : CD → CD) : Runtime Logs :=
  { s with cds := Function.update s.cds d (f (s.cds d)) }

def phaseNode (s : Runtime Logs) (d : ℕ) : Option ℕ :=
  s.phaseTree.phaseNodeCache.lookup (s.cds d).phase

section Model

variable (cfg : Config)

def decPendingCounter (s : Runtime Logs) : Runtime Logs :=
  if cfg.mpi then
    { s with pendingFlag := s.pendingFlag - s.handledEventCount, handledEventCount := 0 }
  else s

/-- `SetRollbackPoint`, local or not. The MPI version resets the cell on the invalid level. -/
def setRollbackPoint (s : Runtime Logs) (rollbackLv : ℕ) : Runtime Logs :=
  if cfg.mpi ∧ rollbackLv = invalidRollbackPoint then { s with rollbackPoint := rollbackLv }
  else if rollbackLv < s.rollbackPoint then { s with rollbackPoint := rollbackLv }
  else s

/-- `SyncCDs` of a domain with one task: the MPI version does not read the cell then. -/
def syncCDs (s : Runtime Logs) : ℕ :=
  if cfg.mpi then invalidRollbackPoint else s.rollbackPoint

/-- The new rollback point of both branches of `GetCDToRecover`. -/
def newRollbackPoint (s : Runtime Logs) (collective : Bool) : ℕ :=
  if collective then s.syncCDs cfg else s.rollbackPoint

/-- `phaseTree.current_->ResetSeqID(rollback_lv)` -/
def resetSeqID (s : Runtime Logs) (rollbackLv : ℕ) : Except Stop (Runtime Logs) :=
  match s.phaseTree.current with
  | none => .error .noPhase
  | some _ => .ok { s with phaseTree := s.phaseTree.resetCurrent rollbackLv }

/-- `CompletePhase(phase, true)`; the tree is not left while tuning is enabled. -/
def completePhase (s : Runtime Logs) : Except Stop (Runtime Logs) :=
  if cfg.tuningEnabled then
    match s.phaseTree.current with
    | none => .error .noPhase
    | some p => .ok { s with phaseTree := s.phaseTree.modify p (·.incSeqID false) }
  else
    match s.phaseTree.completePhase s.good true with
    | .error _ => .error .noPhase
    | .ok phaseTree => .ok { s with phaseTree }

def deleteEntryDirectory (s : Runtime Logs) (target : ℕ) : Runtime Logs :=
  s.modifyCD target fun cd =>
    { cd with
      preserveCount := 0
      restoreCount := 0
      entryDirectory := cd.entryDirectory.clear
      remoteEntryDirectoryMap := [] }

def unsetBegin (s : Runtime Logs) (target : ℕ) : Except Stop (Runtime Logs) :=
  if (s.cds target).begun then .ok (s.modifyCD target fun cd => { cd with begun := false })
  else .error .notBegun

/-- `CDHandle::Destroy`, which keeps the domain and its handle for the next time. -/
def destroy (s : Runtime Logs) : Except Stop (Runtime Logs) :=
  if s.path = [] then .error .emptyPath
  else
    match s.phaseTree.current with
    | none => .error .noPhase
    | some _ => .ok { s with path := s.path.dropLast }

def getCDLevel (s : Runtime Logs) (level : ℕ) : Except Stop ℕ :=
  match s.path[level]? with
  | none => .error .noLevel
  | some d => .ok d

/-- The domain of `target` is given up for the one above it. -/
def giveUp (s : Runtime Logs) (target : ℕ) : Except Stop (Runtime Logs) := do
  let s ← (s.deleteEntryDirectory target).completePhase cfg
  let s ← s.unsetBegin target
  s.destroy

/-- The domain of `target` is completed, to be begun again. -/
def restartAt (s : Runtime Logs) (target : ℕ) : Except Stop (Runtime Logs) := do
  let s := s.modifyCD target fun cd => { cd with reportedError := false }
  let s ← s.completePhase cfg
  s.unsetBegin target

-- `CompleteLogs(true)` of the domain at a level
variable (completeLogs : ℕ → Logs → Logs)

/-- What `GetCDToRecover` does before it looks at the levels. -/
def enter (s : Runtime Logs) (target : ℕ) : Except Stop (Runtime Logs) := do
  let s := s.decPendingCounter cfg
  let s ← s.resetSeqID s.rollbackPoint
  .ok { s with logs := completeLogs (s.cds target).level s.logs }

/-- `GetCDToRecover(target, collective)`. Every round removes a handle from the path, so its
length is fuel enough. -/
def getCDToRecover : ℕ → ℕ → Bool → Runtime Logs → Except Stop (ℕ × Runtime Logs)
  | 0, _, _, _ => .error .outOfFuel
  | fuel + 1, target, collective, s => do
      let s ← s.enter cfg completeLogs target
      let level := (s.cds target).level
      let rollbackLv := s.rollbackPoint
      let new := s.newRollbackPoint cfg collective
      -- `next_cdh->task_size() > target->task_size()` is false from the second round on
      if level = rollbackLv then
        let new := if rollbackLv < new then rollbackLv else new
        let s := s.setRollbackPoint cfg new
        if level ≠ new then
          let s ← s.giveUp cfg target
          let next ← s.getCDLevel (level - 1)
          getCDToRecover fuel next false s
        else
          let s ← s.restartAt cfg target
          .ok (target, s)
      else if rollbackLv < level ∧ rollbackLv ≠ invalidRollbackPoint then
        let s ← (s.setRollbackPoint cfg new).giveUp cfg target
        let next ← s.getCDLevel (level - 1)
        getCDToRecover fuel next false s
      else .error .invalidEscalation

end Model

end Runtime

section Spec

variable {Logs : Type}

def nodeAbove (s : Runtime Logs) : ℕ → Option ℕ
  | 0 => none
  | i + 1 => s.path[i]?.bind s.phaseNode

/-- All domains on the path are begun. Their phases are nested level by level: the first is a root,
each other one a child of the phase of the domain above it, and the last one is the current
phase. A level is a 32-bit number. -/
structure Begun (s : Runtime Logs) : Prop where
  depth : s.path.length ≤ 2 ^ 32
  levels : ∀ (i : ℕ) d, s.path[i]? = some d → (s.cds d).level = i
  begun : ∀ (i : ℕ) d, s.path[i]? = some d → (s.cds d).begun = true
  nested : ∀ (i : ℕ) d, s.path[i]? = some d →
    ∃ p, s.phaseNode d = some p ∧ (s.phaseTree.node p).parent = nodeAbove s i
  current : s.phaseTree.current = nodeAbove s s.path.length

/-- A domain that is not begun and has preserved nothing. -/
structure Cleared (cd : CD) : Prop where
  begun : cd.begun = false
  preserveCount : cd.preserveCount = 0
  restoreCount : cd.restoreCount = 0
  table : ∀ tag, cd.entryDirectory.table.find tag = some none
  data : cd.entryDirectory.data.head = 0 ∧ cd.entryDirectory.data.tail = 0
  remote : cd.remoteEntryDirectoryMap = []

def CD.directory (cd : CD) : Packer × ℕ × ℕ × List (UInt64 × CDEntry) :=
  (cd.entryDirectory, cd.preserveCount, cd.restoreCount, cd.remoteEntryDirectoryMap)

/-- The rollback of `s` to level `lv` has returned `d` and left `s'`. -/
structure Recovered (s s' : Runtime Logs) (lv d : ℕ) : Prop where
  handle : s.path[lv]? = some d
  path : s'.path = s.path.take (lv + 1)
  removed : ∀ i e, lv < i → s.path[i]? = some e → Cleared (s'.cds e)
  kept : (s'.cds d).directory = (s.cds d).directory
  others : ∀ e, (∀ i, lv ≤ i → s.path[i]? ≠ some e) → s'.cds e = s.cds e
  current : ∃ p, s.phaseNode d = some p ∧
    s'.phaseTree.current = (s'.phaseTree.node p).parent

end Spec

structure SameNodes (t t' : PhaseTree) : Prop where
  parent : ∀ p, (t'.node p).parent = (t.node p).parent
  cache : t'.phaseNodeCache = t.phaseNodeCache

section Tree

variable {t t' t'' : PhaseTree}

theorem SameNodes.refl (t : PhaseTree) : SameNodes t t := ⟨fun _ => rfl, rfl⟩

theorem SameNodes.trans (h : SameNodes t t') (h' : SameNodes t' t'') : SameNodes t t'' :=
  ⟨fun p => (h'.parent p).trans (h.parent p), h'.cache.trans h.cache⟩

theorem sameNodes_modify (t : PhaseTree) (p : ℕ) {f : PhaseNode → PhaseNode}
    (hf : ∀ n, (f n).parent = n.parent) : SameNodes t (t.modify p f) :=
  ⟨fun _ => PhaseTree.modify_field _ _ _ _ _ hf, rfl⟩

theorem incSeqID_parent (n : PhaseNode) (good : Bool) : (n.incSeqID good).parent = n.parent := by
  unfold PhaseNode.incSeqID
  dsimp only
  split <;> rfl

theorem resetSeqID_parent (n : PhaseNode) (lv : ℕ) : (n.resetSeqID lv).parent = n.parent := by
  unfold PhaseNode.resetSeqID
  split <;> rfl

theorem completePhase_tree {p : ℕ} (hcur : t.current = some p) (good : Bool) :
    ∃ t', t.completePhase good true = .ok t' ∧ SameNodes t t' ∧
      t'.current = (t.node p).parent := by
  have hinc : SameNodes t (t.modify p (·.incSeqID (good && !true))) :=
    sameNodes_modify t p fun n => incSeqID_parent n _
  unfold PhaseTree.completePhase
  rw [hcur]
  cases good with
  | true => exact ⟨_, rfl, ⟨hinc.parent, hinc.cache⟩, hinc.parent p⟩
  | false =>
      have hstate := hinc.trans (sameNodes_modify (t.modify p (·.incSeqID (false && !true))) p
        (f := fun n => { n with state := .reexecution }) fun _ => rfl)
      exact ⟨_, rfl, ⟨hstate.parent, hstate.cache⟩, hstate.parent p⟩

end Tree

section Level

variable {Logs : Type} {cfg : Config} {s s' : Runtime Logs} {p target : ℕ}

theorem resetSeqID_spec (hcur : s.phaseTree.current = some p) (lv : ℕ) :
    ∃ t, s.resetSeqID lv = .ok { s with phaseTree := t } ∧ SameNodes s.phaseTree t ∧
      t.current = some p := by
  refine ⟨s.phaseTree.resetCurrent lv, ?_, ?_, ?_⟩
  · rw [Runtime.resetSeqID, hcur]
  · rw [PhaseTree.resetCurrent, hcur]
    exact sameNodes_modify _ _ fun n => resetSeqID_parent n lv
  · rw [PhaseTree.resetCurrent, hcur]
    exact hcur

theorem completePhase_spec (cfg : Config) (hcur : s.phaseTree.current = some p) :
    ∃ t, s.completePhase cfg = .ok { s with phaseTree := t } ∧ SameNodes s.phaseTree t ∧
      t.current = if cfg.tuningEnabled then some p else (s.phaseTree.node p).parent := by
  unfold Runtime.completePhase
  split
  · rw [hcur]
    exact ⟨_, rfl, sameNodes_modify _ _ fun n => incSeqID_parent n false, hcur⟩
  · obtain ⟨t, ht, hsame, hparent⟩ := completePhase_tree hcur s.good
    rw [ht]
    exact ⟨t, rfl, hsame, hparent⟩

/-- What has changed when the domain of `target`, whose phase node is `p`, is done with. -/
structure Left (cfg : Config) (s s' : Runtime Logs) (p target : ℕ) (cd : CD) : Prop where
  cds : s'.cds = Function.update s.cds target cd
  nodes : SameNodes s.phaseTree s'.phaseTree
  current : s'.phaseTree.current =
    if cfg.tuningEnabled then some p else (s.phaseTree.node p).parent

/-- The domain as `DeleteEntryDirectory` and `UnsetBegin` leave it. -/
def CD.givenUp (cd : CD) : CD :=
  { cd with
    begun := false
    preserveCount := 0
    restoreCount := 0
    entryDirectory := cd.entryDirectory.clear
    remoteEntryDirectoryMap := [] }

theorem givenUp_cleared (cd : CD) : Cleared cd.givenUp :=
  ⟨rfl, rfl, rfl, fun tag => TableStore.find_free _ tag, ⟨rfl, rfl⟩, rfl⟩

theorem destroy_spec (hpath : s.path ≠ []) (hcur : s.phaseTree.current = some p) :
    s.destroy = .ok { s with path := s.path.dropLast } := by
  rw [Runtime.destroy, if_neg hpath, hcur]

theorem ok_bind {α β : Type} (a : α) (f : α → Except Stop β) : (Except.ok a >>= f) = f a := rfl

theorem giveUp_spec (cfg : Config) (hcur : s.phaseTree.current = some p)
    (hbegun : (s.cds target).begun = true) (hpath : s.path ≠ [])
    (habove : cfg.tuningEnabled = true ∨ (s.phaseTree.node p).parent.isSome) :
    ∃ s', s.giveUp cfg target = .ok s' ∧ Left cfg s s' p target (s.cds target).givenUp ∧
      s'.path = s.path.dropLast ∧ s'.rollbackPoint = s.rollbackPoint := by
  obtain ⟨t, hcomplete, hsame, ht⟩ :=
    completePhase_spec cfg (s := s.deleteEntryDirectory target) hcur
  obtain ⟨q, hq⟩ : ∃ q, t.current = some q := by
    rw [ht]
    rcases habove with htuning | hsome
    · exact ⟨p, if_pos htuning⟩
    · obtain ⟨q, hq⟩ := Option.isSome_iff_exists.mp hsome
      split
      · exact ⟨p, rfl⟩
      · exact ⟨q, hq⟩
  have hunset : Runtime.unsetBegin { s.deleteEntryDirectory target with phaseTree := t } target =
      .ok { s with
        cds := Function.update s.cds target (s.cds target).givenUp
        phaseTree := t } := by
    simp only [Runtime.unsetBegin, Runtime.deleteEntryDirectory, Runtime.modifyCD,
      Function.update_self, Function.update_idem, hbegun, if_true, CD.givenUp]
  have hgive : s.giveUp cfg target = .ok { s with
      cds := Function.update s.cds target (s.cds target).givenUp
      phaseTree := t
      path := s.path.dropLast } := by
    rw [Runtime.giveUp, hcomplete, ok_bind, hunset, ok_bind]
    exact destroy_spec hpath hq
  exact ⟨_, hgive, ⟨rfl, hsame, ht⟩, rfl, rfl⟩

def CD.restarted (cd : CD) : CD := { cd with begun := false, reportedError := false }

theorem restartAt_spec (cfg : Config) (hcur : s.phaseTree.current = some p)
    (hbegun : (s.cds target).begun = true) :
    ∃ s', s.restartAt cfg target = .ok s' ∧ Left cfg s s' p target (s.cds target).restarted ∧
      s'.path = s.path := by
  obtain ⟨t, hcomplete, hsame, ht⟩ := completePhase_spec cfg
    (s := s.modifyCD target fun cd => { cd with reportedError := false }) hcur
  have hrestart : s.restartAt cfg target = .ok { s with
      cds := Function.update s.cds target (s.cds target).restarted
      phaseTree := t } := by
    rw [Runtime.restartAt, hcomplete, ok_bind]
    simp only [Runtime.unsetBegin, Runtime.modifyCD, Function.update_self, Function.update_idem,
      hbegun, if_true, CD.restarted]
  exact ⟨_, hrestart, ⟨rfl, hsame, ht⟩, rfl⟩

end Level

section Round

variable {Logs : Type} {cfg : Config} {s : Runtime Logs} {p target : ℕ}

/-- What a round keeps until it is known what to do with the target. -/
structure Entered (s s' : Runtime Logs) : Prop where
  cds : s'.cds = s.cds
  path : s'.path = s.path
  rollbackPoint : s'.rollbackPoint = s.rollbackPoint
  nodes : SameNodes s.phaseTree s'.phaseTree
  current : s'.phaseTree.current = s.phaseTree.current

theorem enter_spec (cfg : Config) (completeLogs : ℕ → Logs → Logs) (target : ℕ)
    (hcur : s.phaseTree.current = some p) :
    ∃ s', s.enter cfg completeLogs target = .ok s' ∧ Entered s s' := by
  have hdec : Entered s (s.decPendingCounter cfg) := by
    unfold Runtime.decPendingCounter
    split
    · exact ⟨rfl, rfl, rfl, SameNodes.refl _, rfl⟩
    · exact ⟨rfl, rfl, rfl, SameNodes.refl _, rfl⟩
  obtain ⟨t, hreset, hsame, ht⟩ :=
    resetSeqID_spec (hdec.current.trans hcur) (s.decPendingCounter cfg).rollbackPoint
  have henter : s.enter cfg completeLogs target = .ok { s.decPendingCounter cfg with
      phaseTree := t
      logs := completeLogs ((s.decPendingCounter cfg).cds target).level
        (s.decPendingCounter cfg).logs } := by
    rw [Runtime.enter]
    dsimp only
    rw [hreset, ok_bind]
  exact ⟨_, henter, hdec.cds, hdec.path, hdec.rollbackPoint, hdec.nodes.trans hsame,
    ht.trans hcur.symm⟩

theorem Entered.left {s₁ s' : Runtime Logs} {cd : CD} (h : Entered s s₁)
    (h' : Left cfg s₁ s' p target cd) : Left cfg s s' p target cd :=
  ⟨h'.cds.trans (by rw [h.cds]), h.nodes.trans h'.nodes, h'.current.trans (by rw [h.nodes.parent])⟩

theorem setRollbackPoint_self (cfg : Config) (s : Runtime Logs) :
    s.setRollbackPoint cfg s.rollbackPoint = s := by
  unfold Runtime.setRollbackPoint
  split_ifs with hreset hlt
  · rfl
  · exact absurd hlt (Nat.lt_irrefl _)
  · rfl

theorem new_at (cfg : Config) (s : Runtime Logs) (collective : Bool)
    (hbound : s.rollbackPoint ≤ invalidRollbackPoint) :
    (if s.rollbackPoint < s.newRollbackPoint cfg collective then s.rollbackPoint
      else s.newRollbackPoint cfg collective) = s.rollbackPoint := by
  unfold Runtime.newRollbackPoint Runtime.syncCDs
  split_ifs <;> omega

theorem set_new (cfg : Config) (s : Runtime Logs) (collective : Bool) :
    s.setRollbackPoint cfg (s.newRollbackPoint cfg collective) =
      { s with rollbackPoint :=
          if cfg.mpi ∧ collective then invalidRollbackPoint else s.rollbackPoint } := by
  by_cases hsync : cfg.mpi = true ∧ collective = true
  · have hnew : s.newRollbackPoint cfg collective = invalidRollbackPoint := by
      rw [Runtime.newRollbackPoint, if_pos hsync.2, Runtime.syncCDs, if_pos hsync.1]
    rw [hnew, if_pos hsync, Runtime.setRollbackPoint, if_pos ⟨hsync.1, rfl⟩]
  · have hnew : s.newRollbackPoint cfg collective = s.rollbackPoint := by
      unfold Runtime.newRollbackPoint Runtime.syncCDs
      split_ifs with hcollective hmpi
      · exact absurd ⟨hmpi, hcollective⟩ hsync
      · rfl
      · rfl
    rw [hnew, if_neg hsync, setRollbackPoint_self]

theorem round_at (cfg : Config) (completeLogs : ℕ → Logs → Logs) (fuel : ℕ) (collective : Bool)
    (hcur : s.phaseTree.current = some p) (hbegun : (s.cds target).begun = true)
    (hlevel : (s.cds target).level = s.rollbackPoint)
    (hbound : s.rollbackPoint ≤ invalidRollbackPoint) :
    ∃ s', s.getCDToRecover cfg completeLogs (fuel + 1) target collective = .ok (target, s') ∧
      Left cfg s s' p target (s.cds target).restarted ∧ s'.path = s.path := by
  obtain ⟨s₁, henter, h₁⟩ := enter_spec cfg completeLogs target hcur
  have hbegun₁ : (s₁.cds target).begun = true := by rw [h₁.cds, hbegun]
  have hlevel₁ : (s₁.cds target).level = s₁.rollbackPoint := by
    rw [h₁.cds, h₁.rollbackPoint, hlevel]
  obtain ⟨s', hrestart, hleft, hpath⟩ := restartAt_spec cfg
    (h₁.current.trans hcur) hbegun₁
  rw [h₁.cds] at hleft
  refine ⟨s', ?_, h₁.left hleft, hpath.trans h₁.path⟩
  rw [Runtime.getCDToRecover, henter, ok_bind]
  dsimp only
  rw [if_pos hlevel₁, new_at cfg s₁ collective (by rw [h₁.rollbackPoint]; exact hbound),
    setRollbackPoint_self, if_neg (not_not.mpr hlevel₁), hrestart, ok_bind]

theorem round_above (cfg : Config) (completeLogs : ℕ → Logs → Logs) (fuel : ℕ) (collective : Bool)
    {next : ℕ} (hcur : s.phaseTree.current = some p)
    (hbegun : (s.cds target).begun = true)
    (hlt : s.rollbackPoint < (s.cds target).level) (hvalid : s.rollbackPoint < invalidRollbackPoint)
    (hnext : s.path.dropLast[(s.cds target).level - 1]? = some next)
    (habove : cfg.tuningEnabled = true ∨ (s.phaseTree.node p).parent.isSome) :
    ∃ s', s.getCDToRecover cfg completeLogs (fuel + 1) target collective =
        s'.getCDToRecover cfg completeLogs fuel next false ∧
      Left cfg s s' p target (s.cds target).givenUp ∧ s'.path = s.path.dropLast ∧
      s'.rollbackPoint =
        if cfg.mpi ∧ collective then invalidRollbackPoint else s.rollbackPoint := by
  obtain ⟨s₁, henter, h₁⟩ := enter_spec cfg completeLogs target hcur
  have hset := set_new cfg s₁ collective
  have hbegun₁ : (s₁.cds target).begun = true := by rw [h₁.cds, hbegun]
  have hpath : s.path ≠ [] := by
    intro hnil
    rw [hnil] at hnext
    cases hnext
  obtain ⟨s', hgive, hleft, hpath', hpoint⟩ := giveUp_spec cfg (p := p)
    (s := { s₁ with rollbackPoint :=
      if cfg.mpi ∧ collective then invalidRollbackPoint else s₁.rollbackPoint })
    (h₁.current.trans hcur) hbegun₁ (by rw [h₁.path]; exact hpath)
    (by rw [h₁.nodes.parent]; exact habove)
  have hpath'' : s'.path = s.path.dropLast := hpath'.trans (by rw [h₁.path])
  have hleft₁ : Left cfg s₁ s' p target (s.cds target).givenUp :=
    ⟨hleft.cds.trans (by rw [h₁.cds]), hleft.nodes, hleft.current⟩
  refine ⟨s', ?_, h₁.left hleft₁, hpath'', hpoint.trans (by rw [h₁.rollbackPoint])⟩
  rw [Runtime.getCDToRecover, henter, ok_bind]
  dsimp only
  rw [h₁.cds, h₁.rollbackPoint, if_neg (Nat.ne_of_gt hlt), if_pos ⟨hlt, Nat.ne_of_lt hvalid⟩,
    hset, hgive, ok_bind, Runtime.getCDLevel, hpath'', hnext]
  exact ok_bind _ _

theorem round_invalid (cfg : Config) (completeLogs : ℕ → Logs → Logs) (fuel : ℕ)
    (collective : Bool) (hcur : s.phaseTree.current = some p)
    (hlt : (s.cds target).level < invalidRollbackPoint)
    (hinvalid : s.rollbackPoint = invalidRollbackPoint) :
    s.getCDToRecover cfg completeLogs (fuel + 1) target collective = .error .invalidEscalation := by
  obtain ⟨s₁, henter, h₁⟩ := enter_spec cfg completeLogs target hcur
  rw [Runtime.getCDToRecover, henter, ok_bind]
  dsimp only
  rw [h₁.cds, h₁.rollbackPoint, hinvalid, if_neg (Nat.ne_of_lt hlt),
    if_neg fun hand => hand.2 rfl]

end Round

section Levels

variable {Logs : Type} {cfg : Config} {completeLogs : ℕ → Logs → Logs} {s s' : Runtime Logs}

theorem Begun.node (h : Begun s) {i d : ℕ} (hd : s.path[i]? = some d) :
    ∃ p, nodeAbove s (i + 1) = some p ∧ s.phaseNode d = some p ∧
      (s.phaseTree.node p).parent = nodeAbove s i := by
  obtain ⟨p, hp, hparent⟩ := h.nested i d hd
  refine ⟨p, ?_, hp, hparent⟩
  rw [nodeAbove, hd]
  exact hp

theorem nodeAbove_injective (h : Begun s) (i : ℕ) : ∀ j, i ≤ s.path.length → j ≤ s.path.length →
    nodeAbove s i = nodeAbove s j → i = j := by
  have hsome : ∀ k, k + 1 ≤ s.path.length → ∃ d, s.path[k]? = some d := fun k hk =>
    ⟨_, List.getElem?_eq_getElem hk⟩
  induction i with
  | zero =>
      intro j _ hj heq
      cases j with
      | zero => rfl
      | succ j =>
          obtain ⟨d, hd⟩ := hsome j hj
          obtain ⟨p, hp, -, -⟩ := h.node hd
          rw [hp, nodeAbove] at heq
          cases heq
  | succ i ih =>
      intro j hi hj heq
      obtain ⟨d, hd⟩ := hsome i hi
      obtain ⟨p, hp, -, hparent⟩ := h.node hd
      cases j with
      | zero =>
          rw [hp, nodeAbove] at heq
          cases heq
      | succ j =>
          obtain ⟨e, he⟩ := hsome j hj
          obtain ⟨q, hq, -, hparent'⟩ := h.node he
          obtain rfl : p = q := Option.some.inj (hp.symm.trans (heq.trans hq))
          have hij := ih j (by omega) (by omega) (hparent.symm.trans hparent')
          rw [hij]

/-- The last handle of the path and what is known of it. -/
theorem Begun.last (h : Begun s) {n target : ℕ} (hlen : s.path.length = n + 1)
    (htarget : s.path[n]? = some target) :
    ∃ p, s.phaseTree.current = some p ∧ s.phaseNode target = some p ∧
      (s.phaseTree.node p).parent = nodeAbove s n ∧ (s.cds target).level = n ∧
      (s.cds target).begun = true := by
  obtain ⟨p, habove, hp, hparent⟩ := h.node htarget
  refine ⟨p, ?_, hp, hparent, h.levels n target htarget, h.begun n target htarget⟩
  rw [h.current, hlen, habove]

/-- Two levels have different handles. -/
theorem Begun.distinct (h : Begun s) {i j d : ℕ} (hi : s.path[i]? = some d)
    (hj : s.path[j]? = some d) : i = j := by
  rw [← h.levels i d hi, ← h.levels j d hj]

theorem dropLast_some {path : List ℕ} {n i d : ℕ} (hlen : path.length = n + 1)
    (hd : path.dropLast[i]? = some d) : i < n ∧ path[i]? = some d := by
  rw [List.getElem?_dropLast, hlen] at hd
  split_ifs at hd with hlt
  · exact ⟨by omega, hd⟩

theorem dropLast_of_lt {path : List ℕ} {n i : ℕ} (hlen : path.length = n + 1) (hi : i < n) :
    path.dropLast[i]? = path[i]? := by
  rw [List.getElem?_dropLast, hlen, if_pos (by omega)]

theorem Left.field {p target : ℕ} {cd : CD} (h : Left cfg s s' p target cd) {α : Type}
    (g : CD → α) (hg : g cd = g (s.cds target)) (d : ℕ) : g (s'.cds d) = g (s.cds d) := by
  rw [h.cds, Function.update_apply]
  split_ifs with hd
  · rw [hg, hd]
  · rfl

theorem Left.phaseNode {p target : ℕ} {cd : CD} (h : Left cfg s s' p target cd)
    (hg : cd.phase = (s.cds target).phase) (d : ℕ) : s'.phaseNode d = s.phaseNode d := by
  rw [Runtime.phaseNode, h.nodes.cache, h.field CD.phase hg, Runtime.phaseNode]

section Last

variable {n p target : ℕ}

theorem Left.nodeAbove (hlen : s.path.length = n + 1)
    (hleft : Left cfg s s' p target (s.cds target).givenUp) (hpath : s'.path = s.path.dropLast)
    {i : ℕ} (hi : i ≤ n) : nodeAbove s' i = nodeAbove s i := by
  cases i with
  | zero => rfl
  | succ i =>
      rw [Escalation.nodeAbove, Escalation.nodeAbove, hpath, dropLast_of_lt hlen (by omega),
        funext (hleft.phaseNode rfl)]

/-- Giving up the last domain leaves the path above it as it was. -/
theorem Left.begun (h : Begun s) (hlen : s.path.length = n + 1)
    (htarget : s.path[n]? = some target) (hp : s.phaseNode target = some p)
    (hleft : Left cfg s s' p target (s.cds target).givenUp) (hpath : s'.path = s.path.dropLast)
    (htuning : cfg.tuningEnabled = false) : Begun s' := by
  have hlen' : s'.path.length = n := by
    rw [hpath, List.length_dropLast, hlen]
    omega
  have hold : ∀ i d, s'.path[i]? = some d → i < n ∧ s.path[i]? = some d := fun i d hd =>
    dropLast_some hlen (hpath ▸ hd)
  refine ⟨?_, ?_, ?_, ?_, ?_⟩
  · have := h.depth
    omega
  · intro i d hd
    rw [hleft.field CD.level rfl, h.levels i d (hold i d hd).2]
  · intro i d hd
    obtain ⟨hi, hd'⟩ := hold i d hd
    have hne : d ≠ target := by
      rintro rfl
      have := h.distinct hd' htarget
      omega
    rw [hleft.cds, Function.update_of_ne hne, h.begun i d hd']
  · intro i d hd
    obtain ⟨hi, hd'⟩ := hold i d hd
    obtain ⟨q, hq, hparent⟩ := h.nested i d hd'
    refine ⟨q, ?_, ?_⟩
    · rw [hleft.phaseNode rfl, hq]
    · rw [hleft.nodes.parent, hparent, hleft.nodeAbove hlen hpath (by omega)]
  · obtain ⟨q, hq, hparent⟩ := h.nested n target htarget
    obtain rfl : p = q := Option.some.inj (hp.symm.trans hq)
    rw [hleft.current, htuning, hparent, hlen', hleft.nodeAbove hlen hpath (Nat.le_refl n)]
    rfl

end Last

theorem Left.recovered {n p target : ℕ} (hlen : s.path.length = n + 1)
    (htarget : s.path[n]? = some target) (hp : s.phaseNode target = some p)
    (hleft : Left cfg s s' p target (s.cds target).restarted) (hpath : s'.path = s.path)
    (htuning : cfg.tuningEnabled = false) : Recovered s s' n target where
  handle := htarget
  path := by rw [hpath, List.take_of_length_le (by omega)]
  removed := by
    intro i e hi he
    have hlt := (List.getElem?_eq_some_iff.mp he).1
    omega
  kept := hleft.field CD.directory rfl target
  others := by
    intro e he
    have hne : e ≠ target := by
      rintro rfl
      exact he n (Nat.le_refl n) htarget
    rw [hleft.cds, Function.update_of_ne hne]
  current := by
    refine ⟨p, hp, ?_⟩
    rw [hleft.current, htuning, hleft.nodes.parent]
    rfl

theorem Recovered.of_left {s₁ : Runtime Logs} (h : Begun s) {n p target lv d : ℕ}
    (hlen : s.path.length = n + 1) (htarget : s.path[n]? = some target) (hlt : lv < n)
    (hleft : Left cfg s s₁ p target (s.cds target).givenUp) (hpath : s₁.path = s.path.dropLast)
    (hrec : Recovered s₁ s' lv d) : Recovered s s' lv d := by
  have hold : ∀ {i e}, s₁.path[i]? = some e → i < n ∧ s.path[i]? = some e := fun he =>
    dropLast_some hlen (hpath ▸ he)
  have hne : ∀ {i e}, i < n → s.path[i]? = some e → e ≠ target := by
    rintro i e hi he rfl
    have := h.distinct he htarget
    omega
  -- the handle given up is not on the path any more
  have hoff : ∀ i, lv ≤ i → s₁.path[i]? ≠ some target := fun i _ he =>
    hne (hold he).1 (hold he).2 rfl
  obtain ⟨hi, hd⟩ := hold hrec.handle
  refine ⟨hd, ?_, ?_, ?_, ?_, ?_⟩
  · rw [hrec.path, hpath, List.dropLast_eq_take, List.take_take, Nat.min_eq_left (by omega)]
  · intro i e hlvi he
    have hin := (List.getElem?_eq_some_iff.mp he).1
    rcases Nat.lt_or_ge i n with hin' | hge
    · apply hrec.removed i e hlvi
      rw [hpath, dropLast_of_lt hlen hin', he]
    · obtain rfl : i = n := by omega
      obtain rfl : target = e := Option.some.inj (htarget.symm.trans he)
      rw [hrec.others target hoff, hleft.cds, Function.update_self]
      exact givenUp_cleared _
  · rw [hrec.kept, hleft.cds, Function.update_of_ne (hne hi hd)]
  · intro e he
    have hoff' : ∀ i, lv ≤ i → s₁.path[i]? ≠ some e := fun i hlvi he' =>
      he i hlvi (hold he').2
    have hne' : e ≠ target := by
      rintro rfl
      exact he n (Nat.le_of_lt hlt) htarget
    rw [hrec.others e hoff', hleft.cds, Function.update_of_ne hne']
  · obtain ⟨q, hq, hcur⟩ := hrec.current
    exact ⟨q, by rw [← hleft.phaseNode rfl, hq], hcur⟩

/-- Below the rollback point a round goes one level up. -/
theorem Begun.round (h : Begun s) (cfg : Config) (completeLogs : ℕ → Logs → Logs) (fuel : ℕ)
    (collective : Bool) {n target : ℕ} (hlen : s.path.length = n + 2)
    (htarget : s.path[n + 1]? = some target) (hlt : s.rollbackPoint < n + 1) :
    ∃ next p s', s.path[n]? = some next ∧ s.phaseNode target = some p ∧
      s.getCDToRecover cfg completeLogs (fuel + 1) target collective =
        s'.getCDToRecover cfg completeLogs fuel next false ∧
      Left cfg s s' p target (s.cds target).givenUp ∧ s'.path = s.path.dropLast ∧
      s'.rollbackPoint =
        if cfg.mpi ∧ collective then invalidRollbackPoint else s.rollbackPoint := by
  obtain ⟨p, hcur, hp, hparent, hlevel, hbegun⟩ := h.last hlen htarget
  obtain ⟨next, hnext⟩ : ∃ next, s.path[n]? = some next :=
    ⟨_, List.getElem?_eq_getElem (by omega)⟩
  obtain ⟨q, hq, -, -⟩ := h.node hnext
  have hvalid : s.rollbackPoint < invalidRollbackPoint := by
    have := h.depth
    rw [invalidRollbackPoint]
    omega
  have hnext' : s.path.dropLast[(s.cds target).level - 1]? = some next := by
    rw [hlevel, Nat.add_sub_cancel, dropLast_of_lt hlen (Nat.lt_succ_self n), hnext]
  have habove : (s.phaseTree.node p).parent.isSome := by rw [hparent, hq]; rfl
  obtain ⟨s', hround⟩ := round_above cfg completeLogs fuel collective hcur hbegun
    (by rw [hlevel]; exact hlt) hvalid hnext' (Or.inr habove)
  exact ⟨next, p, s', hnext, hp, hround⟩

theorem recovers (htuning : cfg.tuningEnabled = false) (lv k : ℕ) :
    ∀ {fuel target : ℕ} {collective : Bool} {s : Runtime Logs}, Begun s → k < fuel →
      s.path.length = lv + k + 1 → s.path[lv + k]? = some target → s.rollbackPoint = lv →
      (cfg.mpi = true → collective = true → k = 0) →
      ∃ d s', s.getCDToRecover cfg completeLogs fuel target collective = .ok (d, s') ∧
        Recovered s s' lv d := by
  induction k with
  | zero =>
      intro fuel target collective s h hfuel hlen htarget hpoint _
      obtain ⟨fuel, rfl⟩ := Nat.exists_eq_succ_of_ne_zero (Nat.ne_of_gt hfuel)
      obtain ⟨p, hcur, hp, -, hlevel, hbegun⟩ := h.last hlen htarget
      have hbound : s.rollbackPoint ≤ invalidRollbackPoint := by
        have hdepth := h.depth
        rw [hpoint, invalidRollbackPoint]
        omega
      obtain ⟨s', hround, hleft, hpath⟩ := round_at cfg completeLogs fuel collective hcur hbegun
        (hlevel.trans hpoint.symm) hbound
      exact ⟨target, s', hround, hleft.recovered hlen htarget hp hpath htuning⟩
  | succ k ih =>
      intro fuel target collective s h hfuel hlen htarget hpoint hsync
      obtain ⟨fuel, rfl⟩ := Nat.exists_eq_succ_of_ne_zero (Nat.ne_of_gt (Nat.zero_lt_of_lt hfuel))
      obtain ⟨next, p, s₁, hnext, hp, hround, hleft, hpath, hpoint₁⟩ :=
        h.round cfg completeLogs fuel collective (n := lv + k) hlen htarget (by omega)
      have hnosync : ¬ (cfg.mpi = true ∧ collective = true) := fun hand => by
        have := hsync hand.1 hand.2
        omega
      rw [if_neg hnosync, hpoint] at hpoint₁
      have hlen₁ : s₁.path.length = lv + k + 1 := by
        rw [hpath, List.length_dropLast, hlen]
        omega
      have hnext₁ : s₁.path[lv + k]? = some next := by
        rw [hpath, dropLast_of_lt hlen (by omega), hnext]
      have hbegun₁ : Begun s₁ := hleft.begun h hlen htarget hp hpath htuning
      obtain ⟨d, s', hrec, hrecovered⟩ := ih hbegun₁ (Nat.lt_of_succ_lt_succ hfuel) hlen₁ hnext₁
        hpoint₁ fun _ hfalse => absurd hfalse Bool.false_ne_true
      refine ⟨d, s', hround.trans hrec, hrecovered.of_left h hlen htarget ?_ hleft hpath⟩
      omega

theorem sync_fails (h : Begun s) (completeLogs : ℕ → Logs → Logs) (fuel : ℕ) {n target : ℕ}
    (hlen : s.path.length = n + 2) (htarget : s.path[n + 1]? = some target)
    (hlt : s.rollbackPoint < n + 1) (hmpi : cfg.mpi = true) :
    s.getCDToRecover cfg completeLogs (fuel + 2) target true = .error .invalidEscalation := by
  obtain ⟨next, p, s₁, hnext, hp, hround, hleft, hpath, hpoint⟩ :=
    h.round cfg completeLogs (fuel + 1) true hlen htarget hlt
  rw [if_pos ⟨hmpi, rfl⟩] at hpoint
  obtain ⟨q, hq, hparent⟩ := h.nested (n + 1) target htarget
  obtain rfl : p = q := Option.some.inj (hp.symm.trans hq)
  obtain ⟨r, hr, -, -⟩ := h.node hnext
  obtain ⟨c, hcur⟩ : ∃ c, s₁.phaseTree.current = some c := by
    rw [hleft.current]
    split
    · exact ⟨p, rfl⟩
    · exact ⟨r, hparent.trans hr⟩
  have hlevel : (s₁.cds next).level < invalidRollbackPoint := by
    have hdepth := h.depth
    rw [hleft.field CD.level rfl, h.levels n next hnext, invalidRollbackPoint]
    omega
  rw [hround]
  exact round_invalid cfg completeLogs fuel false hcur hlevel hpoint

end Levels

section Tuned

variable {Logs : Type} {cfg : Config} {completeLogs : ℕ → Logs → Logs} {s s' : Runtime Logs}

structure Stays (s s' : Runtime Logs) : Prop where
  nodes : SameNodes s.phaseTree s'.phaseTree
  current : s'.phaseTree.current = s.phaseTree.current

theorem Stays.of_tree (h : s'.phaseTree = s.phaseTree) : Stays s s' :=
  ⟨h ▸ SameNodes.refl _, congrArg _ h⟩

theorem Stays.trans {s'' : Runtime Logs} (h : Stays s s') (h' : Stays s' s'') : Stays s s'' :=
  ⟨h.nodes.trans h'.nodes, h'.current.trans h.current⟩

theorem bind_ok {α β : Type} {x : Except Stop α} {f : α → Except Stop β} {b : β}
    (h : x >>= f = .ok b) : ∃ a, x = .ok a ∧ f a = .ok b := by
  cases x with
  | error e => cases h
  | ok a => exact ⟨a, rfl, h⟩

theorem enter_stays {target : ℕ} (h : s.enter cfg completeLogs target = .ok s') : Stays s s' := by
  cases hcur : s.phaseTree.current with
  | none =>
      have hdec : (s.decPendingCounter cfg).phaseTree.current = none := by
        unfold Runtime.decPendingCounter
        split
        · exact hcur
        · exact hcur
      rw [Runtime.enter, Runtime.resetSeqID, hdec] at h
      cases h
  | some p =>
      obtain ⟨s₁, henter, h₁⟩ := enter_spec cfg completeLogs target hcur
      obtain rfl : s₁ = s' := Except.ok.inj (henter.symm.trans h)
      exact ⟨h₁.nodes, h₁.current⟩

theorem setRollbackPoint_tree (cfg : Config) (s : Runtime Logs) (lv : ℕ) :
    (s.setRollbackPoint cfg lv).phaseTree = s.phaseTree := by
  unfold Runtime.setRollbackPoint
  split_ifs <;> rfl

theorem completePhase_stays (htuning : cfg.tuningEnabled = true)
    (h : s.completePhase cfg = .ok s') : Stays s s' := by
  cases hcur : s.phaseTree.current with
  | none =>
      rw [Runtime.completePhase, if_pos htuning, hcur] at h
      cases h
  | some p =>
      obtain ⟨t, hcomplete, hsame, ht⟩ := completePhase_spec cfg hcur
      obtain rfl := Except.ok.inj (hcomplete.symm.trans h)
      exact ⟨hsame, by rw [ht, if_pos htuning, hcur]⟩

theorem unsetBegin_stays {target : ℕ} (h : s.unsetBegin target = .ok s') : Stays s s' := by
  unfold Runtime.unsetBegin at h
  split at h
  · obtain rfl := Except.ok.inj h
    exact Stays.of_tree rfl
  · cases h

theorem destroy_stays (h : s.destroy = .ok s') : Stays s s' := by
  unfold Runtime.destroy at h
  split at h
  · cases h
  · split at h
    · cases h
    · obtain rfl := Except.ok.inj h
      exact Stays.of_tree rfl

theorem giveUp_stays (htuning : cfg.tuningEnabled = true) {target : ℕ}
    (h : s.giveUp cfg target = .ok s') : Stays s s' := by
  obtain ⟨s₁, hcomplete, h⟩ := bind_ok h
  obtain ⟨s₂, hunset, hdestroy⟩ := bind_ok h
  have hdelete : Stays s (s.deleteEntryDirectory target) := Stays.of_tree rfl
  have hleave := hdelete.trans (completePhase_stays htuning hcomplete)
  exact (hleave.trans (unsetBegin_stays hunset)).trans (destroy_stays hdestroy)

theorem restartAt_stays (htuning : cfg.tuningEnabled = true) {target : ℕ}
    (h : s.restartAt cfg target = .ok s') : Stays s s' := by
  obtain ⟨s₁, hcomplete, hunset⟩ := bind_ok h
  have hreport : Stays s (s.modifyCD target fun cd => { cd with reportedError := false }) :=
    Stays.of_tree rfl
  exact (hreport.trans (completePhase_stays htuning hcomplete)).trans (unsetBegin_stays hunset)

theorem getCDToRecover_stays (htuning : cfg.tuningEnabled = true) (fuel : ℕ) :
    ∀ {target : ℕ} {collective : Bool} {s s' : Runtime Logs} {d : ℕ},
      s.getCDToRecover cfg completeLogs fuel target collective = .ok (d, s') → Stays s s' := by
  induction fuel with
  | zero =>
      intro target collective s s' d h
      cases h
  | succ fuel ih =>
      intro target collective s s' d h
      rw [Runtime.getCDToRecover] at h
      obtain ⟨s₁, henter, h⟩ := bind_ok h
      apply (enter_stays henter).trans
      dsimp only at h
      have hset : ∀ lv, Stays s₁ (s₁.setRollbackPoint cfg lv) := fun lv =>
        Stays.of_tree (setRollbackPoint_tree cfg s₁ lv)
      have hup : ∀ lv, ((s₁.setRollbackPoint cfg lv).giveUp cfg target >>= fun s =>
          s.getCDLevel ((s₁.cds target).level - 1) >>= fun next =>
            s.getCDToRecover cfg completeLogs fuel next false) = .ok (d, s') → Stays s₁ s' := by
        intro lv h
        obtain ⟨s₂, hgive, h⟩ := bind_ok h
        obtain ⟨next, -, h⟩ := bind_ok h
        exact ((hset lv).trans (giveUp_stays htuning hgive)).trans (ih h)
      by_cases hlevel : (s₁.cds target).level = s₁.rollbackPoint
      · rw [if_pos hlevel] at h
        generalize (if s₁.rollbackPoint < s₁.newRollbackPoint cfg collective then s₁.rollbackPoint
          else s₁.newRollbackPoint cfg collective) = new at h
        split at h
        · exact hup _ h
        · obtain ⟨s₂, hrestart, h⟩ := bind_ok h
          obtain ⟨-, rfl⟩ := Prod.mk.inj (Except.ok.inj h)
          exact (hset _).trans (restartAt_stays htuning hrestart)
      · rw [if_neg hlevel] at h
        split at h
        · exact hup _ h
        · cases h

end Tuned

section Result

variable {Logs : Type}

/-- The rollback of a begun path to `lv` returns the handle at that level, with everything below
it cleared, if and only if the tree is not tuned and no `SyncCDs` is asked for on the way up in
the MPI version. -/
theorem getCDToRecover_recovers_iff (cfg : Config) (completeLogs : ℕ → Logs → Logs)
    {s : Runtime Logs} (h : Begun s) {current : ℕ} (hcurrent : s.path.getLast? = some current)
    {lv : ℕ} (hpoint : s.rollbackPoint = lv) (hlv : lv < s.path.length) (collective : Bool) :
    (∃ d s', s.getCDToRecover cfg completeLogs s.path.length current collective = .ok (d, s') ∧
        Recovered s s' lv d) ↔
      cfg.tuningEnabled = false ∧
        (cfg.mpi = true → collective = true → lv + 1 = s.path.length) := by
  obtain ⟨k, hlen⟩ : ∃ k, s.path.length = lv + k + 1 := ⟨s.path.length - lv - 1, by omega⟩
  have htarget : s.path[lv + k]? = some current := by
    rw [List.getLast?_eq_getElem?, hlen] at hcurrent
    exact hcurrent
  constructor
  · rintro ⟨d, s', hrun, hrec⟩
    have htuning : cfg.tuningEnabled = false := by
      by_contra htuned
      have hstays := getCDToRecover_stays (Bool.eq_true_of_not_eq_false htuned) _ hrun
      obtain ⟨p, hp, hcur⟩ := hrec.current
      obtain ⟨q, -, hq, hparent⟩ := h.node hrec.handle
      obtain rfl : p = q := Option.some.inj (hp.symm.trans hq)
      rw [hstays.current, hstays.nodes.parent, hparent, h.current] at hcur
      have := nodeAbove_injective h _ _ (Nat.le_refl _) (Nat.le_of_lt hlv) hcur
      omega
    refine ⟨htuning, ?_⟩
    rintro hmpi rfl
    by_contra hne
    obtain ⟨k, rfl⟩ : ∃ j, k = j + 1 := ⟨k - 1, by omega⟩
    have hfail := sync_fails h completeLogs (lv + k) (n := lv + k) hlen htarget (by omega)
      hmpi
    rw [hlen] at hrun
    cases hfail.symm.trans hrun
  · rintro ⟨htuning, hsync⟩
    exact recovers htuning lv k h (by omega) hlen htarget hpoint fun hmpi hcollective => by
      have := hsync hmpi hcollective
      omega

/-- `CompleteLogs(true)` of strict domains: below the root the requests that are noted for the
level are dropped. -/
def invalidateLogs (level : ℕ) (requests : ℕ → List ℕ) : ℕ → List ℕ :=
  if level = 0 then requests else Function.update requests level []

/-- Three domains, one in the other, of which the last one asks for a rollback to the root. -/
def threeLevels : Runtime (ℕ → List ℕ) where
  cds d := { level := d, phase := d, begun := true, reportedError := false, preserveCount := 1,
             restoreCount := 0, entryDirectory := Packer.tiny, remoteEntryDirectoryMap := [] }
  path := [0, 1, 2]
  phaseTree :=
    { heap := [{ level := 0, phase := 0, state := .execution, label := "Root" },
        { level := 1, phase := 1, state := .execution, label := "Loop", parent := some 0 },
        { level := 2, phase := 2, state := .execution, label := "Step", parent := some 1 }]
      phaseNodeCache := [(2, 2), (1, 1), (0, 0)]
      root := some 0
      current := some 2 }
  good := false
  rollbackPoint := 0
  pendingFlag := 0
  handledEventCount := 0
  logs := fun _ => []

theorem threeLevels_begun : Begun threeLevels where
  depth := by decide
  levels := by
    intro i d hd
    match i, hd with
    | 0, rfl => rfl
    | 1, rfl => rfl
    | 2, rfl => rfl
  begun := fun _ _ _ => rfl
  nested := by
    intro i d hd
    match i, hd with
    | 0, rfl => exact ⟨0, rfl, rfl⟩
    | 1, rfl => exact ⟨1, rfl, rfl⟩
    | 2, rfl => exact ⟨2, rfl, rfl⟩
  current := rfl

theorem threeLevels_recover :
    ∃ d s', threeLevels.getCDToRecover ⟨true, false⟩ invalidateLogs 3 2 false = .ok (d, s') ∧
      Recovered threeLevels s' 0 d :=
  (getCDToRecover_recovers_iff ⟨true, false⟩ invalidateLogs threeLevels_begun rfl rfl (by decide)
    false).mpr ⟨rfl, fun _ hcollective => absurd hcollective Bool.false_ne_true⟩

theorem threeLevels_wait_fails :
    Begun threeLevels ∧
      threeLevels.getCDToRecover ⟨true, false⟩ invalidateLogs 3 2 true =
        .error .invalidEscalation :=
  ⟨threeLevels_begun, sync_fails threeLevels_begun invalidateLogs 1 rfl rfl (by decide) rfl⟩

end Result

end CDRuntime.Escalation
