import CDRuntime.CDID
import Mathlib.Algebra.Group.Int.Defs

namespace CDRuntime.Phase

inductive PrvMedium where
  | undefined | localMemory | remoteMemory | localDisk | globalDisk
  deriving DecidableEq, Repr, Inhabited

/-- A failed assertion. -/
inductive Trap where
  -- the assertion left in `GetPhaseNode` for one path of one application
  | leftover
  -- `state_ == kExecution` for a new phase
  | newPhase
  -- `state_ == kReexecution` in `FinishRecovery`
  | finishRecovery
  -- `curr_seqID should not be greater than failed_seqID`
  | passedFailure
  -- `phaseTree.current_` in `CompletePhase`, and other uses of a null node
  | noPhase
  -- `next` in `GetNextNode`
  | nextNode
  -- a remainder by an interval of zero
  | zeroInterval
  -- `phase == phase_` in the constructor for the tuned tree
  | phaseNumber
  -- a medium without a name, or a name without a medium
  | medium
  -- the exit of `LoadConfig` on an error of the parser
  | parser
  deriving DecidableEq, Repr

structure PhaseNode where
  level : ℕ
  phase : ℕ
  seqBegin : ℕ := 0
  seqEnd : ℕ := 0
  seqMax : ℕ := 0
  seqAcc : ℕ := 0
  seqAccRb : ℕ := 0
  state : ExecMode
  count : ℤ := 0
  interval : ℤ := -1
  errortype : ℤ := -1
  parent : Option ℕ := none
  left : Option ℕ := none
  right : Option ℕ := none
  children : List ℕ := []
  label : String
  medium : PrvMedium := .undefined
  deriving DecidableEq, Repr, Inhabited

/-- A pointer is a position in `heap`, which holds every node ever allocated; nodes are never
freed. In `phasePath` and `phaseNodeCache` a later insertion stands before the earlier ones. -/
structure PhaseTree where
  heap : List PhaseNode := []
  phaseGen : ℕ := 0
  phasePath : List (String × ℕ) := []
  phaseNodeCache : List (ℕ × ℕ) := []
  root : Option ℕ := none
  current : Option ℕ := none
  deriving DecidableEq, Repr, Inhabited

/-- What the runtime is started with: the task, whether it is built for tuning, and label,
error type and medium of the nodes of `tuned::phaseNodeCache`, by phase. -/
structure Env where
  myTaskID : ℕ := 0
  tuning : Bool := false
  tuned : List (String × ℤ × PrvMedium) := []
  deriving DecidableEq, Repr, Inhabited

/-- `MarkSeqID`; its argument is not used. -/
def PhaseNode.markSeqID (n : PhaseNode) (left : Option PhaseNode) : PhaseNode :=
  match left with
  | none => { n with seqBegin := 0, seqEnd := 0 }
  | some l => { n with seqBegin := l.seqBegin, seqEnd := l.seqBegin }

def PhaseNode.incSeqID (n : PhaseNode) (errFreeExec : Bool) : PhaseNode :=
  let n := if errFreeExec then { n with seqEnd := n.seqEnd + 1, seqAcc := n.seqAcc + 1 } else n
  { n with seqAccRb := n.seqAccRb + 1, seqMax := if n.seqEnd > n.seqMax then n.seqEnd else n.seqMax }

def PhaseNode.resetSeqID (n : PhaseNode) (rollbackLv : ℕ) : PhaseNode :=
  if rollbackLv < n.level then { n with seqEnd := n.seqBegin } else n

namespace PhaseTree

def node (t : PhaseTree) (p : ℕ) : PhaseNode :=
  t.heap.getD p default

def modify (t : PhaseTree) (p : ℕ) (f : PhaseNode → PhaseNode) : PhaseTree :=
  { t with heap := t.heap.modify p f }

def push (t : PhaseTree) (n : PhaseNode) : PhaseTree :=
  { t with heap := t.heap ++ [n] }

/-- The constructor of `PhaseNode` for `cd::phaseTree`, with `Init`: the new node is the last
child of its parent and starts at the sequence number of the sibling before it, taken as a
32-bit number. -/
def newNode (t : PhaseTree) (parent : Option ℕ) (level : ℕ) (label : String)
    (state : ExecMode) : PhaseTree :=
  let p := t.heap.length
  let n : PhaseNode := { level := level, phase := t.phaseGen, state := state, label := label }
  let t := { t with phaseGen := (t.phaseGen + 1) % 2 ^ 32 }
  match parent with
  | none => t.push n
  | some q =>
      match (t.node q).children.getLast? with
      | none =>
          let t := t.modify q fun m => { m with children := m.children ++ [p] }
          t.push { n with parent := some q }
      | some l =>
          let last := (t.node l).seqEnd % 2 ^ 32
          let t := t.modify l fun m => { m with right := some p }
          let t := t.modify q fun m => { m with children := m.children ++ [p] }
          t.push { n with parent := some q, left := some l, seqBegin := last, seqEnd := last }

/-- `GetPhasePath()`, up the parent pointers; a parent is allocated before its children, so
the own position is fuel enough. -/
def getPhasePath (t : PhaseTree) : ℕ → ℕ → String
  | 0, p => (t.node p).label
  | fuel + 1, p =>
      match (t.node p).parent with
      | some q => t.getPhasePath fuel q ++ "_" ++ (t.node p).label
      | none => (t.node p).label

/-- `GetPhasePath(label)`: below the root the root's label is left out. -/
def getPhasePathOf (t : PhaseTree) (p : ℕ) (label : String) : String :=
  match (t.node p).parent with
  | some _ => t.getPhasePath p p ++ "_" ++ label
  | none => label

/-- Error type and medium of the node begun, from the configuration or from the call. -/
def configure (env : Env) (t : PhaseTree) (p : ℕ) (label : String) (medium : PrvMedium)
    (errorVec : ℤ) : PhaseTree :=
  if env.tuning then t
  else
    match env.tuned.lookup label with
    | some (e, m) => t.modify p fun n => { n with errortype := e, medium := m }
    | none => t.modify p fun n => { n with errortype := errorVec, medium := medium }

/-- The new phase of `GetPhaseNode`, in the state of its parent `self`. -/
def addPhase (t : PhaseTree) (self : ℕ) (level : ℕ) (label path : String) : PhaseTree :=
  let p := t.heap.length
  let phase := t.phaseGen
  let t := t.newNode t.current level label (t.node self).state
  { t with
    current := some p
    phasePath := (path, phase) :: t.phasePath
    phaseNodeCache := (phase, p) :: t.phaseNodeCache }

/-- The old phase of `GetPhaseNode`, which inherits the re-execution of `self`. -/
def enterPhase (t : PhaseTree) (self p : ℕ) : PhaseTree :=
  let state := (t.node self).state
  let t := { t with current := some p }
  if state = .reexecution then t.modify p fun n => { n with state := .reexecution } else t

def getPhaseNode (env : Env) (t : PhaseTree) (self : ℕ) (level : ℕ) (label : String)
    (medium : PrvMedium) (errorVec : ℤ) : Except Trap (ℕ × PhaseTree) :=
  let path := t.getPhasePathOf self label
  if env.myTaskID = 0 ∧ path = "Root_MainLoop_CalcPos" then .error .leftover
  else
    match t.phasePath.lookup path with
    | none =>
        if (t.node self).state ≠ .execution then .error .newPhase
        else
          .ok (t.phaseGen,
            (t.addPhase self level label path).configure env t.heap.length label medium errorVec)
    | some phase =>
        let p := (t.phaseNodeCache.lookup phase).getD 0
        .ok (phase, (t.enterPhase self p).configure env p label medium errorVec)

/-- `PhaseTree::Init`, which does not enter the root's label in `phasePath`. -/
def init (t : PhaseTree) (level : ℕ) (label : String) : ℕ × PhaseTree :=
  let p := t.heap.length
  let phase := t.phaseGen
  let t := t.newNode none level label .execution
  (phase, { t with
    root := some p
    current := some p
    phaseNodeCache := (phase, p) :: t.phaseNodeCache })

/-- `CD::BeginPhase`; when the root begins again its label is ignored. -/
def beginPhase (env : Env) (t : PhaseTree) (level : ℕ) (label : String) (medium : PrvMedium)
    (errorVec : ℤ) : Except Trap (ℕ × PhaseTree) :=
  match t.current with
  | some self => t.getPhaseNode env self level label medium errorVec
  | none =>
      match t.root with
      | none =>
          let (phase, t) := t.init level label
          .ok (phase, t.modify (t.root.getD 0) fun n =>
            { n with medium := .globalDisk, errortype := -1 })
      | some r => .ok ((t.node r).phase, { t with current := some r })

/-- `CompletePhase`, with `IsGood()` as an argument. -/
def completePhase (t : PhaseTree) (good : Bool) (isReexec : Bool) : Except Trap PhaseTree :=
  match t.current with
  | none => .error .noPhase
  | some p =>
      let t := t.modify p (·.incSeqID (good && !isReexec))
      let t := if good then t else t.modify p fun n => { n with state := .reexecution }
      .ok { t with current := (t.node p).parent }

section Updates

variable (t : PhaseTree) (p q : ℕ) (f : PhaseNode → PhaseNode)

@[simp] theorem modify_length : (t.modify p f).heap.length = t.heap.length := by
  simp [modify]

@[simp] theorem modify_phaseGen : (t.modify p f).phaseGen = t.phaseGen := rfl
@[simp] theorem modify_phasePath : (t.modify p f).phasePath = t.phasePath := rfl
@[simp] theorem modify_cache : (t.modify p f).phaseNodeCache = t.phaseNodeCache := rfl
@[simp] theorem modify_root : (t.modify p f).root = t.root := rfl
@[simp] theorem modify_current : (t.modify p f).current = t.current := rfl

@[simp] theorem push_length (n : PhaseNode) : (t.push n).heap.length = t.heap.length + 1 := by
  simp [push]

theorem node_push (n : PhaseNode) :
    (t.push n).node q = if q = t.heap.length then n else t.node q := by
  simp only [node, push, List.getD_eq_getElem?_getD, List.getElem?_append]
  rcases Nat.lt_trichotomy q t.heap.length with h | h | h
  · simp [h, Nat.ne_of_lt h]
  · simp [h]
  · have hsub : q - t.heap.length ≠ 0 := by omega
    simp [Nat.not_lt_of_lt h, Nat.ne_of_gt h, hsub]

theorem node_modify (h : p < t.heap.length) :
    (t.modify p f).node q = if p = q then f (t.node q) else t.node q := by
  simp only [node, modify, List.getD_eq_getElem?_getD, List.getElem?_modify]
  by_cases hq : p = q
  · subst hq
    simp [h]
  · simp [hq]

theorem node_modify_self (h : p < t.heap.length) : (t.modify p f).node p = f (t.node p) := by
  simp [node_modify, h]

theorem node_modify_ne (h : p ≠ q) : (t.modify p f).node q = t.node q := by
  simp [node, modify, List.getD_eq_getElem?_getD, h]

/-- An update that keeps a field of every node keeps it behind every pointer. -/
theorem modify_field {α : Type*} (g : PhaseNode → α) (hg : ∀ n, g (f n) = g n) :
    g ((t.modify p f).node q) = g (t.node q) := by
  by_cases h : p < t.heap.length
  · rw [node_modify _ _ _ _ h]
    split
    · exact hg _
    · rfl
  · rw [modify, List.modify_eq_self (Nat.le_of_not_lt h)]

end Updates

section NewNode

variable (t : PhaseTree) (parent : Option ℕ) (level : ℕ) (label : String) (state : ExecMode)

/-- The sibling that a new child is put after. -/
def lastChild (t : PhaseTree) (parent : Option ℕ) : Option ℕ :=
  parent.bind fun q => (t.node q).children.getLast?

@[simp] theorem newNode_length :
    (t.newNode parent level label state).heap.length = t.heap.length + 1 := by
  unfold newNode
  cases parent with
  | none => simp
  | some q =>
      dsimp only
      split <;> simp

@[simp] theorem newNode_phaseGen :
    (t.newNode parent level label state).phaseGen = (t.phaseGen + 1) % 2 ^ 32 := by
  unfold newNode
  cases parent with
  | none => rfl
  | some q =>
      dsimp only
      split <;> rfl

@[simp] theorem newNode_phasePath :
    (t.newNode parent level label state).phasePath = t.phasePath := by
  unfold newNode
  cases parent with
  | none => rfl
  | some q =>
      dsimp only
      split <;> rfl

@[simp] theorem newNode_cache :
    (t.newNode parent level label state).phaseNodeCache = t.phaseNodeCache := by
  unfold newNode
  cases parent with
  | none => rfl
  | some q =>
      dsimp only
      split <;> rfl

@[simp] theorem newNode_root : (t.newNode parent level label state).root = t.root := by
  unfold newNode
  cases parent with
  | none => rfl
  | some q =>
      dsimp only
      split <;> rfl

/-- The new node. -/
theorem node_newNode_self : (t.newNode parent level label state).node t.heap.length =
    { level := level, phase := t.phaseGen, state := state, label := label, parent := parent,
      left := t.lastChild parent,
      seqBegin := ((t.lastChild parent).map fun l => (t.node l).seqEnd % 2 ^ 32).getD 0,
      seqEnd := ((t.lastChild parent).map fun l => (t.node l).seqEnd % 2 ^ 32).getD 0 } := by
  unfold newNode
  cases parent with
  | none =>
      dsimp only
      rw [node_push, if_pos rfl]
      rfl
  | some q =>
      dsimp only
      split <;> rename_i hl
      · have hl' : t.lastChild (some q) = none := hl
        rw [node_push, if_pos (by simp), hl']
        rfl
      · have hl' : t.lastChild (some q) = some _ := hl
        rw [node_push, if_pos (by simp), hl']
        rfl

/-- The other nodes keep everything but their links to children and right sibling. -/
theorem newNode_field {α : Type*} (g : PhaseNode → α)
    (hc : ∀ n cs, g { n with children := cs } = g n) (hr : ∀ n r, g { n with right := r } = g n)
    (q : ℕ) (hq : q ≠ t.heap.length) :
    g ((t.newNode parent level label state).node q) = g (t.node q) := by
  unfold newNode
  cases parent with
  | none =>
      dsimp only
      rw [node_push, if_neg hq]
      rfl
  | some q =>
      dsimp only
      split
      · rw [node_push, if_neg (by simpa using hq), modify_field _ _ _ _ g fun n => hc n _]
        rfl
      · rw [node_push, if_neg (by simpa using hq), modify_field _ _ _ _ g fun n => hc n _,
          modify_field _ _ _ _ g fun n => hr n _]
        rfl

theorem newNode_children (q : ℕ) (hq : q < t.heap.length) :
    ((t.newNode parent level label state).node q).children =
      if parent = some q then (t.node q).children ++ [t.heap.length]
      else (t.node q).children := by
  unfold newNode
  cases parent with
  | none =>
      dsimp only
      rw [node_push, if_neg (Nat.ne_of_lt hq)]
      simp [node]
  | some r =>
      have hadd : ∀ t' : PhaseTree, q < t'.heap.length →
          (t'.node q).children = (t.node q).children →
          ((t'.modify r fun m => { m with children := m.children ++ [t.heap.length] }).node
            q).children = if some r = some q then (t.node q).children ++ [t.heap.length]
              else (t.node q).children := by
        intro t' hq' hc
        by_cases hr : r = q
        · subst hr
          rw [node_modify_self _ _ _ hq', if_pos rfl, hc]
        · rw [node_modify_ne _ _ _ _ hr, if_neg (by simp [hr]), hc]
      dsimp only
      split
      · rw [node_push, if_neg (by simp; omega)]
        exact hadd _ hq rfl
      · rw [node_push, if_neg (by simp; omega)]
        apply hadd
        · simpa using hq
        · exact modify_field _ _ _ _ (·.children) fun _ => rfl

end NewNode

section Configure

variable (env : Env) (t : PhaseTree) (p : ℕ) (label : String) (medium : PrvMedium) (errorVec : ℤ)

theorem configure_cases : t.configure env p label medium errorVec = t ∨
    ∃ e m, t.configure env p label medium errorVec =
      t.modify p fun n => { n with errortype := e, medium := m } := by
  unfold configure
  split
  · exact .inl rfl
  · split
    · exact .inr ⟨_, _, rfl⟩
    · exact .inr ⟨_, _, rfl⟩

/-- So everything it leaves alone in every node is left alone in the tree. -/
theorem configure_keeps {α : Type*} (g : PhaseTree → α)
    (hg : ∀ e m, g (t.modify p fun n => { n with errortype := e, medium := m }) = g t) :
    g (t.configure env p label medium errorVec) = g t := by
  obtain h | ⟨e, m, h⟩ := t.configure_cases env p label medium errorVec
  · rw [h]
  · rw [h, hg]

theorem configure_field {α : Type*} (g : PhaseNode → α)
    (hg : ∀ n e m, g { n with errortype := e, medium := m } = g n) (q : ℕ) :
    g ((t.configure env p label medium errorVec).node q) = g (t.node q) :=
  t.configure_keeps env p label medium errorVec (fun t => g (t.node q))
    fun _ _ => modify_field _ _ _ _ g fun n => hg n _ _

theorem configure_length :
    (t.configure env p label medium errorVec).heap.length = t.heap.length :=
  t.configure_keeps env p label medium errorVec (·.heap.length) fun _ _ => modify_length _ _ _

theorem configure_current : (t.configure env p label medium errorVec).current = t.current :=
  t.configure_keeps env p label medium errorVec (·.current) fun _ _ => rfl

theorem configure_maps : (t.configure env p label medium errorVec).phaseGen = t.phaseGen ∧
    (t.configure env p label medium errorVec).phasePath = t.phasePath ∧
    (t.configure env p label medium errorVec).phaseNodeCache = t.phaseNodeCache ∧
    (t.configure env p label medium errorVec).root = t.root :=
  ⟨t.configure_keeps env p label medium errorVec (·.phaseGen) fun _ _ => rfl,
    t.configure_keeps env p label medium errorVec (·.phasePath) fun _ _ => rfl,
    t.configure_keeps env p label medium errorVec (·.phaseNodeCache) fun _ _ => rfl,
    t.configure_keeps env p label medium errorVec (·.root) fun _ _ => rfl⟩

end Configure

section EnterPhase

variable (t : PhaseTree) (self p : ℕ)

/-- Entering an old phase is at most an update of its state. -/
theorem enterPhase_cases : t.enterPhase self p = { t with current := some p } ∨
    t.enterPhase self p =
      { t with current := some p }.modify p fun n => { n with state := .reexecution } := by
  unfold enterPhase
  dsimp only
  split
  · exact .inr rfl
  · exact .inl rfl

theorem enterPhase_field {α : Type*} (g : PhaseNode → α)
    (hg : ∀ n st, g { n with state := st } = g n) (q : ℕ) :
    g ((t.enterPhase self p).node q) = g (t.node q) := by
  obtain h | h := t.enterPhase_cases self p
  · rw [h]
    rfl
  · rw [h, modify_field _ _ _ _ g fun n => hg n _]
    rfl

theorem enterPhase_length : (t.enterPhase self p).heap.length = t.heap.length := by
  obtain h | h := t.enterPhase_cases self p <;> simp [h]

theorem enterPhase_current : (t.enterPhase self p).current = some p := by
  obtain h | h := t.enterPhase_cases self p <;> simp [h]

theorem enterPhase_maps : (t.enterPhase self p).phaseGen = t.phaseGen ∧
    (t.enterPhase self p).phasePath = t.phasePath ∧
    (t.enterPhase self p).phaseNodeCache = t.phaseNodeCache ∧
    (t.enterPhase self p).root = t.root := by
  obtain h | h := t.enterPhase_cases self p <;> simp [h]

end EnterPhase

end PhaseTree
end CDRuntime.Phase
