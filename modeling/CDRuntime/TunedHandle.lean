import CDRuntime.PhaseTree

namespace CDRuntime.Phase

namespace PhaseTree

/-- `GetNextNode`: the node itself, else its last child with the label. -/
def getNextNode (t : PhaseTree) (p : ℕ) (label : String) : Option ℕ :=
  if (t.node p).label = label then some p
  else (t.node p).children.reverse.find? fun c => (t.node c).label = label

def getLeftMostNode (t : PhaseTree) : ℕ → ℕ → ℕ
  | 0, p => p
  | fuel + 1, p =>
      match (t.node p).left with
      | some l => if (t.node l).interval = 0 then t.getLeftMostNode fuel l else p
      | none => p

def getRightMostNode (t : PhaseTree) : ℕ → ℕ → ℕ
  | 0, p => p
  | fuel + 1, p =>
      match (t.node p).right with
      | some r => if (t.node r).interval = 0 then t.getRightMostNode fuel r else p
      | none => p

end PhaseTree

/-- Both trees, and how often the underlying handle was begun and completed. -/
structure TunedState where
  tuned : PhaseTree
  cd : PhaseTree
  begun : ℕ := 0
  completed : ℕ := 0

section Model

variable (env : Env) (level : ℕ) (label : String) (sysErrVec : ℤ)

def beginUnderlying (cd : PhaseTree) : Except Trap PhaseTree :=
  match cd.current with
  | some self =>
      match cd.getPhaseNode env self level label .undefined sysErrVec with
      | .ok (_, cd) => .ok cd
      | .error e => .error e
  | none => .ok (cd.init level label).2

def TunedState.begin (s : TunedState) : Except Trap TunedState :=
  match s.tuned.current with
  | none => .error .noPhase
  | some q =>
      match s.tuned.getNextNode q label with
      | none => .error .nextNode
      | some p =>
          let n := s.tuned.node p
          let s := { s with tuned := { s.tuned with current := some p } }
          if 0 < n.interval ∧ n.count.tmod n.interval = 0 then
            match beginUnderlying env level label sysErrVec s.cd with
            | .ok cd => .ok { s with cd := cd, begun := s.begun + 1 }
            | .error e => .error e
          else .ok s

/-- The underlying handle is completed; `CompletePhase` does not move `cd::phaseTree` while
tuning is enabled, the tuned handle does. -/
def TunedState.completeUnderlying (s : TunedState) (merging : ℕ) : Except Trap TunedState :=
  match s.cd.current with
  | none => .error .noPhase
  | some c =>
      .ok { s with
        tuned := s.tuned.modify merging fun n => { n with count := n.count + 1 }
        cd := { s.cd with current := (s.cd.node c).parent }
        completed := s.completed + 1 }

def TunedState.leave (p : ℕ) (s : TunedState) : TunedState :=
  { s with tuned := { s.tuned with current := (s.tuned.node p).parent } }

def TunedState.complete (s : TunedState) (terminate : Bool) : Except Trap TunedState :=
  match s.tuned.current with
  | none => .error .noPhase
  | some p =>
      let merging := s.tuned.getLeftMostNode s.tuned.heap.length p
      let n := s.tuned.node merging
      if p = s.tuned.getRightMostNode s.tuned.heap.length p then
        if terminate then (s.completeUnderlying merging).map (leave p)
        else if n.interval = 0 then .error .zeroInterval
        else if n.count.tmod n.interval = n.interval - 1 then
          (s.completeUnderlying merging).map (leave p)
        else .ok (s.leave p)
      else .ok (s.leave p)

def TunedState.iterate : ℕ → TunedState → Except Trap (List (TunedState × TunedState))
  | 0, _ => .ok []
  | n + 1, s =>
      match s.begin env level label sysErrVec with
      | .error e => .error e
      | .ok s₁ =>
          match s₁.complete false with
          | .error e => .error e
          | .ok s₂ =>
              match iterate n s₂ with
              | .error e => .error e
              | .ok rest => .ok ((s, s₂) :: rest)

end Model

/-- What the `i`-th iteration is meant to do: begin the underlying CD at multiples of `k`,
complete it just before them, and leave both trees where the open CDs are. -/
structure Merged (k : ℕ) (s₀ : TunedState) (i : ℕ) (s s' : TunedState) : Prop where
  begun : s'.begun = s.begun + if i % k = 0 then 1 else 0
  completed : s'.completed = s.completed + if i % k = k - 1 then 1 else 0
  tuned : s'.tuned.current = s.tuned.current
  alternate : s'.begun = s'.completed ∨ s'.begun = s'.completed + 1
  closed : s'.begun = s'.completed → s'.cd.current = s₀.cd.current
  opened : s'.begun = s'.completed + 1 →
    ∃ c, s'.cd.current = some c ∧ (s'.cd.node c).parent = s₀.cd.current

def Refines (env : Env) (level : ℕ) (label : String) (sysErrVec : ℤ) (k n : ℕ)
    (s : TunedState) : Prop :=
  ∃ its, s.iterate env level label sysErrVec n = .ok its ∧
    ∀ i b a, its[i]? = some (b, a) → Merged k s i b a

/-- The tuned phase `p` below `q` has interval `k` and no merged sibling after it. -/
structure Ready (label : String) (k q p : ℕ) (t : PhaseTree) : Prop where
  current : t.current = some q
  differs : (t.node q).label ≠ label
  next : t.getNextNode q label = some p
  parent : (t.node p).parent = some q
  valid : p < t.heap.length
  interval : (t.node p).interval = k
  pos : 0 < k
  last : ∀ r, (t.node p).right = some r → (t.node r).interval ≠ 0

structure Closed (t : PhaseTree) : Prop where
  current : ∀ c, t.current = some c → c < t.heap.length
  parents : ∀ i j, (t.node i).parent = some j → j < t.heap.length

/-- The phase is about to be iterated for the first time. -/
structure Start (label : String) (k q p : ℕ) (s : TunedState) : Prop where
  tuned : Ready label k q p s.tuned
  count : (s.tuned.node p).count = 0
  cd : Closed s.cd
  begun : s.begun = 0
  completed : s.completed = 0

/-- The node before the phase is not merged into the one before it. -/
def LeftClear (t : PhaseTree) (p : ℕ) : Prop :=
  ∀ l, (t.node p).left = some l → (t.node l).interval ≠ 0

/-- `GetPhaseNode` passes its assertions and finds or makes a child of the current node. -/
def BeginOk (env : Env) (label : String) (cd : PhaseTree) : Prop :=
  match cd.current with
  | none => True
  | some self =>
      ¬ (env.myTaskID = 0 ∧ cd.getPhasePathOf self label = "Root_MainLoop_CalcPos") ∧
        match cd.phasePath.lookup (cd.getPhasePathOf self label) with
        | none => (cd.node self).state = .execution
        | some phase => (cd.node ((cd.phaseNodeCache.lookup phase).getD 0)).parent = some self

section Siblings

variable {t : PhaseTree} {p : ℕ}

theorem getRightMostNode_eq (h : ∀ r, (t.node p).right = some r → (t.node r).interval ≠ 0)
    (fuel : ℕ) : t.getRightMostNode fuel p = p := by
  cases fuel with
  | zero => rfl
  | succ fuel =>
      rw [PhaseTree.getRightMostNode]
      cases hr : (t.node p).right with
      | none => rfl
      | some r => exact if_neg (h r hr)

theorem getLeftMostNode_eq (h : LeftClear t p) (fuel : ℕ) : t.getLeftMostNode fuel p = p := by
  cases fuel with
  | zero => rfl
  | succ fuel =>
      rw [PhaseTree.getLeftMostNode]
      cases hl : (t.node p).left with
      | none => rfl
      | some l => exact if_neg (h l hl)

theorem getLeftMostNode_zero (fuel : ℕ) : ∀ p, (t.node p).interval = 0 →
    (t.node (t.getLeftMostNode fuel p)).interval = 0 := by
  induction fuel with
  | zero => intro p h; exact h
  | succ fuel ih =>
      intro p h
      rw [PhaseTree.getLeftMostNode]
      cases (t.node p).left with
      | none => exact h
      | some l =>
          dsimp only
          split
          · exact ih l ‹_›
          · exact h

theorem getLeftMostNode_of_merged (h : ¬ LeftClear t p) (fuel : ℕ) :
    (t.node (t.getLeftMostNode (fuel + 1) p)).interval = 0 := by
  simp only [LeftClear, not_forall, not_not] at h
  obtain ⟨l, hl, hzero⟩ := h
  rw [PhaseTree.getLeftMostNode, hl]
  dsimp only
  rw [if_pos hzero]
  exact getLeftMostNode_zero fuel l hzero

end Siblings

theorem complete_eq {s : TunedState} {p m : ℕ} (hcur : s.tuned.current = some p)
    (hlast : ∀ r, (s.tuned.node p).right = some r → (s.tuned.node r).interval ≠ 0)
    (hm : s.tuned.getLeftMostNode s.tuned.heap.length p = m) :
    s.complete false =
      if (s.tuned.node m).interval = 0 then .error .zeroInterval
      else if (s.tuned.node m).count.tmod (s.tuned.node m).interval =
          (s.tuned.node m).interval - 1 then
        (s.completeUnderlying m).map (TunedState.leave p)
      else .ok (s.leave p) := by
  have hright := getRightMostNode_eq hlast s.tuned.heap.length
  unfold TunedState.complete
  rw [hcur]
  dsimp only
  rw [hm, if_pos hright.symm, if_neg Bool.false_ne_true]

section Iteration

variable {env : Env} {level : ℕ} {label : String} {sysErrVec : ℤ} {k q p : ℕ} {s : TunedState}

def TunedState.enter (s : TunedState) (p : ℕ) (cd : PhaseTree) : TunedState :=
  { s with tuned := { s.tuned with current := some p }, cd := cd, begun := s.begun + 1 }

theorem Ready.begin (h : Ready label k q p s.tuned) (hc : (s.tuned.node p).count.tmod k = 0) :
    s.begin env level label sysErrVec =
      (beginUnderlying env level label sysErrVec s.cd).map (s.enter p) := by
  unfold TunedState.begin
  rw [h.current]
  dsimp only
  rw [h.next]
  dsimp only
  rw [h.interval, if_pos ⟨Int.natCast_pos.mpr h.pos, hc⟩]
  cases beginUnderlying env level label sysErrVec s.cd <;> rfl

theorem Ready.complete_merged (h : Ready label k q p s.tuned) (cd : PhaseTree)
    (hleft : ¬ LeftClear s.tuned p) : (s.enter p cd).complete false = .error .zeroInterval := by
  have hlen : s.tuned.heap.length - 1 + 1 = s.tuned.heap.length := by have := h.valid; omega
  have hleft' : ¬ LeftClear (s.enter p cd).tuned p := hleft
  have hzero := getLeftMostNode_of_merged hleft' (s.tuned.heap.length - 1)
  have hlast : ∀ r, ((s.enter p cd).tuned.node p).right = some r →
      ((s.enter p cd).tuned.node r).interval ≠ 0 := h.last
  rw [hlen] at hzero
  rw [complete_eq rfl hlast rfl]
  exact if_pos hzero

/-- Without one, it is the phase itself. -/
theorem Ready.complete (h : Ready label k q p s.tuned) (cd : PhaseTree)
    (hleft : LeftClear s.tuned p) :
    (s.enter p cd).complete false =
      if (s.tuned.node p).count.tmod k = (k : ℤ) - 1 then
        ((s.enter p cd).completeUnderlying p).map (TunedState.leave p)
      else .ok ((s.enter p cd).leave p) := by
  have hleft' : LeftClear (s.enter p cd).tuned p := hleft
  have hlast : ∀ r, ((s.enter p cd).tuned.node p).right = some r →
      ((s.enter p cd).tuned.node r).interval ≠ 0 := h.last
  have hk : ((s.enter p cd).tuned.node p).interval = k := h.interval
  have hcount : ((s.enter p cd).tuned.node p).count = (s.tuned.node p).count := rfl
  have hpos := h.pos
  rw [complete_eq rfl hlast (getLeftMostNode_eq hleft' _), hk, hcount, if_neg (by omega)]

end Iteration

section Underlying

variable {env : Env} {level : ℕ} {label : String} {sysErrVec : ℤ} {cd : PhaseTree}

theorem getPhasePath_congr {t t' : PhaseTree}
    (hparents : ∀ i j, (t.node i).parent = some j → j < t.heap.length)
    (hkeep : ∀ i < t.heap.length, (t'.node i).label = (t.node i).label ∧
      (t'.node i).parent = (t.node i).parent) (fuel : ℕ) :
    ∀ p < t.heap.length, t'.getPhasePath fuel p = t.getPhasePath fuel p := by
  induction fuel with
  | zero => intro p hp; exact (hkeep p hp).1
  | succ fuel ih =>
      intro p hp
      rw [PhaseTree.getPhasePath, PhaseTree.getPhasePath, (hkeep p hp).1, (hkeep p hp).2]
      cases hq : (t.node p).parent with
      | none => rfl
      | some q =>
          dsimp only
          rw [ih q (hparents p q hq)]

theorem getPhasePathOf_congr {t t' : PhaseTree}
    (hparents : ∀ i j, (t.node i).parent = some j → j < t.heap.length)
    (hkeep : ∀ i < t.heap.length, (t'.node i).label = (t.node i).label ∧
      (t'.node i).parent = (t.node i).parent) {p : ℕ} (hp : p < t.heap.length) (label : String) :
    t'.getPhasePathOf p label = t.getPhasePathOf p label := by
  unfold PhaseTree.getPhasePathOf
  rw [(hkeep p hp).2, getPhasePath_congr hparents hkeep p p hp]

theorem beginOk_old {self phase : ℕ} (hcur : cd.current = some self)
    (hl : cd.phasePath.lookup (cd.getPhasePathOf self label) = some phase) :
    BeginOk env label cd ↔
      ¬ (env.myTaskID = 0 ∧ cd.getPhasePathOf self label = "Root_MainLoop_CalcPos") ∧
        (cd.node ((cd.phaseNodeCache.lookup phase).getD 0)).parent = some self := by
  unfold BeginOk
  rw [hcur]
  dsimp only
  rw [hl]

theorem beginOk_new {self : ℕ} (hcur : cd.current = some self)
    (hl : cd.phasePath.lookup (cd.getPhasePathOf self label) = none) :
    BeginOk env label cd ↔
      ¬ (env.myTaskID = 0 ∧ cd.getPhasePathOf self label = "Root_MainLoop_CalcPos") ∧
        (cd.node self).state = .execution := by
  unfold BeginOk
  rw [hcur]
  dsimp only
  rw [hl]

/-- A tree in which the underlying CD is open: its node is a child of the node that was
current, the old nodes keep their place, and the phase will be found again from there. -/
structure Opened (env : Env) (label : String) (cd cd' : PhaseTree) (c : ℕ) : Prop where
  current : cd'.current = some c
  parent : (cd'.node c).parent = cd.current
  grow : cd.heap.length ≤ cd'.heap.length
  parents : ∀ i j, (cd'.node i).parent = some j → j < cd'.heap.length
  again : BeginOk env label { cd' with current := cd.current }

theorem opened_init (hcur : cd.current = none)
    (hparents : ∀ i j, (cd.node i).parent = some j → j < cd.heap.length) :
    Opened env label cd (cd.init level label).2 cd.heap.length := by
  have hnode : ∀ i, (cd.init level label).2.node i =
      (cd.newNode none level label .execution).node i := fun _ => rfl
  refine ⟨rfl, ?_, ?_, ?_, ?_⟩
  · rw [hnode, PhaseTree.node_newNode_self, hcur]
  · simp [PhaseTree.init]
  · intro i j hij
    rw [hnode] at hij
    by_cases hi : i = cd.heap.length
    · rw [hi, PhaseTree.node_newNode_self] at hij
      cases hij
    · rw [cd.newNode_field none level label .execution (·.parent) (fun _ _ => rfl)
        (fun _ _ => rfl) i hi] at hij
      have := hparents i j hij
      simp [PhaseTree.init]
      omega
  · unfold BeginOk
    rw [hcur]
    trivial

theorem beginOk_again {cd' : PhaseTree} {self phase : ℕ} (hself : self < cd.heap.length)
    (hparents : ∀ i j, (cd.node i).parent = some j → j < cd.heap.length)
    (hkeep : ∀ i < cd.heap.length, (cd'.node i).label = (cd.node i).label ∧
      (cd'.node i).parent = (cd.node i).parent)
    (hleft : ¬ (env.myTaskID = 0 ∧ cd.getPhasePathOf self label = "Root_MainLoop_CalcPos"))
    (hl : cd'.phasePath.lookup (cd.getPhasePathOf self label) = some phase)
    (hparent : (cd'.node ((cd'.phaseNodeCache.lookup phase).getD 0)).parent = some self) :
    BeginOk env label { cd' with current := some self } := by
  have hkeep' : ∀ i < cd.heap.length,
      (({ cd' with current := some self } : PhaseTree).node i).label = (cd.node i).label ∧
      (({ cd' with current := some self } : PhaseTree).node i).parent = (cd.node i).parent := hkeep
  have hpath := getPhasePathOf_congr hparents hkeep' hself label
  rw [beginOk_old rfl (by rw [hpath]; exact hl), hpath]
  exact ⟨hleft, hparent⟩

theorem opened_old {self phase : ℕ} (hcur : cd.current = some self)
    (hself : self < cd.heap.length)
    (hparents : ∀ i j, (cd.node i).parent = some j → j < cd.heap.length)
    (hl : cd.phasePath.lookup (cd.getPhasePathOf self label) = some phase)
    (hok : BeginOk env label cd) (medium : PrvMedium) :
    Opened env label cd
      ((cd.enterPhase self ((cd.phaseNodeCache.lookup phase).getD 0)).configure env
        ((cd.phaseNodeCache.lookup phase).getD 0) label medium sysErrVec)
      ((cd.phaseNodeCache.lookup phase).getD 0) := by
  obtain ⟨hleft, hparent⟩ := (beginOk_old hcur hl).mp hok
  generalize hp : (cd.phaseNodeCache.lookup phase).getD 0 = p at hparent ⊢
  have hfield : ∀ {α : Type} (g : PhaseNode → α), (∀ n st, g { n with state := st } = g n) →
      (∀ n e m, g { n with errortype := e, medium := m } = g n) → ∀ q,
      g (((cd.enterPhase self p).configure env p label medium sysErrVec).node q) =
        g (cd.node q) := by
    intro α g hst hem q
    rw [PhaseTree.configure_field _ _ _ _ _ _ g hem, PhaseTree.enterPhase_field _ _ _ g hst]
  have hlength : ((cd.enterPhase self p).configure env p label medium sysErrVec).heap.length =
      cd.heap.length := by
    rw [PhaseTree.configure_length, PhaseTree.enterPhase_length]
  obtain ⟨-, hpath, hcache, -⟩ := (cd.enterPhase self p).configure_maps env p label medium sysErrVec
  obtain ⟨-, hpath', hcache', -⟩ := cd.enterPhase_maps self p
  refine ⟨?_, ?_, Nat.le_of_eq hlength.symm, ?_, ?_⟩
  · rw [PhaseTree.configure_current, PhaseTree.enterPhase_current]
  · rw [hfield (·.parent) (fun _ _ => rfl) (fun _ _ _ => rfl), hparent, hcur]
  · intro i j hij
    rw [hfield (·.parent) (fun _ _ => rfl) (fun _ _ _ => rfl)] at hij
    rw [hlength]
    exact hparents i j hij
  · rw [hcur]
    apply beginOk_again hself hparents _ hleft
    · rw [hpath, hpath']
      exact hl
    · rw [hcache, hcache', hp, hfield (·.parent) (fun _ _ => rfl) (fun _ _ _ => rfl), hparent]
    · intro i _
      exact ⟨hfield (·.label) (fun _ _ => rfl) (fun _ _ _ => rfl) i,
        hfield (·.parent) (fun _ _ => rfl) (fun _ _ _ => rfl) i⟩

theorem opened_new {self : ℕ} (hcur : cd.current = some self)
    (hself : self < cd.heap.length)
    (hparents : ∀ i j, (cd.node i).parent = some j → j < cd.heap.length)
    (hl : cd.phasePath.lookup (cd.getPhasePathOf self label) = none)
    (hok : BeginOk env label cd) (medium : PrvMedium) :
    Opened env label cd
      ((cd.addPhase self level label (cd.getPhasePathOf self label)).configure env cd.heap.length
        label medium sysErrVec) cd.heap.length := by
  obtain ⟨hleft, -⟩ := (beginOk_new hcur hl).mp hok
  generalize hpath : cd.getPhasePathOf self label = path at hleft ⊢
  have hnode : ∀ i, (cd.addPhase self level label path).node i =
      (cd.newNode (some self) level label (cd.node self).state).node i := by
    intro i
    rw [← hcur]
    rfl
  have hlength : ((cd.addPhase self level label path).configure env cd.heap.length label medium
      sysErrVec).heap.length = cd.heap.length + 1 := by
    rw [PhaseTree.configure_length]
    simp [PhaseTree.addPhase]
  have hnew : (((cd.addPhase self level label path).configure env cd.heap.length label medium
      sysErrVec).node cd.heap.length).parent = some self := by
    rw [PhaseTree.configure_field _ _ _ _ _ _ (·.parent) fun _ _ _ => rfl, hnode,
      PhaseTree.node_newNode_self]
  have hold : ∀ {α : Type} (g : PhaseNode → α), (∀ n c, g { n with children := c } = g n) →
      (∀ n r, g { n with right := r } = g n) →
      (∀ n e m, g { n with errortype := e, medium := m } = g n) → ∀ i, i ≠ cd.heap.length →
      g (((cd.addPhase self level label path).configure env cd.heap.length label medium
        sysErrVec).node i) = g (cd.node i) := by
    intro α g hc hr hem i hi
    rw [PhaseTree.configure_field _ _ _ _ _ _ g hem, hnode, cd.newNode_field _ _ _ _ g hc hr i hi]
  obtain ⟨-, hpp, hcache, -⟩ := (cd.addPhase self level label path).configure_maps env
    cd.heap.length label medium sysErrVec
  refine ⟨?_, ?_, by omega, ?_, ?_⟩
  · rw [PhaseTree.configure_current]
    rfl
  · rw [hnew, hcur]
  · intro i j hij
    rw [hlength]
    by_cases hi : i = cd.heap.length
    · rw [hi, hnew] at hij
      obtain rfl := Option.some.inj hij
      omega
    · rw [hold (·.parent) (fun _ _ => rfl) (fun _ _ => rfl) (fun _ _ _ => rfl) i hi] at hij
      have := hparents i j hij
      omega
  · have hlook : (cd.addPhase self level label path).phasePath.lookup path = some cd.phaseGen := by
      simp [PhaseTree.addPhase]
    have hlook' : (cd.addPhase self level label path).phaseNodeCache.lookup cd.phaseGen =
        some cd.heap.length := by
      simp [PhaseTree.addPhase]
    rw [hcur]
    apply beginOk_again hself hparents _ (by rw [hpath]; exact hleft)
    · rw [hpp, hpath]
      exact hlook
    · rw [hcache, hlook']
      exact hnew
    · intro i hi
      exact ⟨hold (·.label) (fun _ _ => rfl) (fun _ _ => rfl) (fun _ _ _ => rfl) i (by omega),
        hold (·.parent) (fun _ _ => rfl) (fun _ _ => rfl) (fun _ _ _ => rfl) i (by omega)⟩

theorem beginUnderlying_ok (level : ℕ) (sysErrVec : ℤ) (hcd : Closed cd)
    (hok : BeginOk env label cd) :
    ∃ cd' c, beginUnderlying env level label sysErrVec cd = .ok cd' ∧
      Opened env label cd cd' c := by
  unfold beginUnderlying
  cases hcur : cd.current with
  | none => exact ⟨_, _, rfl, opened_init hcur hcd.parents⟩
  | some self =>
      dsimp only [PhaseTree.getPhaseNode]
      cases hl : cd.phasePath.lookup (cd.getPhasePathOf self label) with
      | none =>
          obtain ⟨hleft, hexec⟩ := (beginOk_new hcur hl).mp hok
          rw [if_neg hleft]
          dsimp only
          rw [if_neg (not_not.mpr hexec)]
          exact ⟨_, _, rfl, opened_new hcur (hcd.current self hcur) hcd.parents hl hok .undefined⟩
      | some phase =>
          obtain ⟨hleft, -⟩ := (beginOk_old hcur hl).mp hok
          rw [if_neg hleft]
          exact ⟨_, _, rfl, opened_old hcur (hcd.current self hcur) hcd.parents hl hok .undefined⟩

theorem beginOk_of_opened {cd' : PhaseTree} {c : ℕ}
    (hbegin : beginUnderlying env level label sysErrVec cd = .ok cd') (hc : cd'.current = some c)
    (hparent : (cd'.node c).parent = cd.current) : BeginOk env label cd := by
  cases hcur : cd.current with
  | none =>
      unfold BeginOk
      rw [hcur]
      trivial
  | some self =>
      unfold beginUnderlying at hbegin
      rw [hcur] at hbegin
      dsimp only [PhaseTree.getPhaseNode] at hbegin
      by_cases hleft : env.myTaskID = 0 ∧ cd.getPhasePathOf self label = "Root_MainLoop_CalcPos"
      · rw [if_pos hleft] at hbegin
        cases hbegin
      rw [if_neg hleft] at hbegin
      cases hl : cd.phasePath.lookup (cd.getPhasePathOf self label) with
      | none =>
          rw [beginOk_new hcur hl]
          refine ⟨hleft, ?_⟩
          by_contra hexec
          rw [hl] at hbegin
          dsimp only at hbegin
          rw [if_pos hexec] at hbegin
          cases hbegin
      | some phase =>
          rw [beginOk_old hcur hl]
          refine ⟨hleft, ?_⟩
          rw [hl] at hbegin
          obtain rfl := Except.ok.inj hbegin
          rw [PhaseTree.configure_current, PhaseTree.enterPhase_current] at hc
          obtain rfl := Option.some.inj hc
          rw [PhaseTree.configure_field _ _ _ _ _ _ (·.parent) fun _ _ _ => rfl,
            PhaseTree.enterPhase_field _ _ _ (·.parent) fun _ _ => rfl, hcur] at hparent
          exact hparent

end Underlying

section Runs

variable {env : Env} {level : ℕ} {label : String} {sysErrVec : ℤ} {k q p : ℕ} {s : TunedState}

theorem getNextNode_congr {t t' : PhaseTree}
    (hkeep : ∀ i, (t'.node i).label = (t.node i).label ∧
      (t'.node i).children = (t.node i).children) (q : ℕ) :
    t'.getNextNode q label = t.getNextNode q label := by
  unfold PhaseTree.getNextNode
  rw [(hkeep q).1, (hkeep q).2]
  congr 2
  funext i
  rw [(hkeep i).1]

theorem Ready.iteration (h : Ready label 1 q p s.tuned) (hleft : LeftClear s.tuned p)
    (hclosed : Closed s.cd) (hok : BeginOk env label s.cd) (level : ℕ) (sysErrVec : ℤ) :
    ∃ s₁ s₂, s.begin env level label sysErrVec = .ok s₁ ∧ s₁.complete false = .ok s₂ ∧
      Ready label 1 q p s₂.tuned ∧ LeftClear s₂.tuned p ∧ Closed s₂.cd ∧ BeginOk env label s₂.cd ∧
      s₂.cd.current = s.cd.current ∧ s₂.tuned.current = s.tuned.current ∧
      s₂.begun = s.begun + 1 ∧ s₂.completed = s.completed + 1 := by
  obtain ⟨cd', c, hbegin, ho⟩ := beginUnderlying_ok level sysErrVec hclosed hok
  have hfield : ∀ {α : Type} (g : PhaseNode → α), (∀ n x, g { n with count := x } = g n) → ∀ i,
      g ((s.tuned.modify p fun n => { n with count := n.count + 1 }).node i) =
        g (s.tuned.node i) := by
    intro α g hg i
    exact PhaseTree.modify_field _ _ _ _ g fun n => hg n _
  let s₂ : TunedState :=
    { tuned := { s.tuned.modify p fun n => { n with count := n.count + 1 } with
        current := some q }
      cd := { cd' with current := s.cd.current }
      begun := s.begun + 1
      completed := s.completed + 1 }
  have hnode : ∀ {α : Type} (g : PhaseNode → α), (∀ n x, g { n with count := x } = g n) → ∀ i,
      g (s₂.tuned.node i) = g (s.tuned.node i) := hfield
  refine ⟨s.enter p cd', s₂, ?_, ?_, ?_, ?_, ⟨?_, ho.parents⟩, ho.again, rfl, h.current.symm, rfl,
    rfl⟩
  · rw [h.begin (by simp), hbegin]
    rfl
  · rw [h.complete cd' hleft, if_pos (by simp)]
    unfold TunedState.completeUnderlying
    have hcur : (s.enter p cd').cd.current = some c := ho.current
    have hup : (({ s.tuned with current := some p }.modify p fun n =>
        { n with count := n.count + 1 }).node p).parent = some q :=
      (hfield (·.parent) (fun _ _ => rfl) p).trans h.parent
    rw [hcur]
    dsimp only [Except.map, TunedState.leave, TunedState.enter]
    rw [hup, ho.parent]
    rfl
  · constructor
    · rfl
    · rw [hnode (·.label) fun _ _ => rfl]
      exact h.differs
    · rw [getNextNode_congr (t := s.tuned), h.next]
      intro i
      exact ⟨hnode (·.label) (fun _ _ => rfl) i, hnode (·.children) (fun _ _ => rfl) i⟩
    · rw [hnode (·.parent) fun _ _ => rfl, h.parent]
    · exact (PhaseTree.modify_length _ _ _).symm ▸ h.valid
    · rw [hnode (·.interval) fun _ _ => rfl, h.interval]
    · exact h.pos
    · intro r hr
      rw [hnode (·.right) fun _ _ => rfl] at hr
      rw [hnode (·.interval) fun _ _ => rfl]
      exact h.last r hr
  · intro l hl
    rw [hnode (·.left) fun _ _ => rfl] at hl
    rw [hnode (·.interval) fun _ _ => rfl]
    exact hleft l hl
  · intro x hx
    exact Nat.lt_of_lt_of_le (hclosed.current x hx) ho.grow

/-- The run lemma for interval 1. -/
theorem Ready.iterate (level : ℕ) (sysErrVec : ℤ) (n : ℕ) : ∀ s : TunedState,
    Ready label 1 q p s.tuned → LeftClear s.tuned p → Closed s.cd → BeginOk env label s.cd →
    ∃ its, s.iterate env level label sysErrVec n = .ok its ∧
      ∀ i b a, its[i]? = some (b, a) → b.begun = s.begun + i ∧ b.completed = s.completed + i ∧
        a.begun = b.begun + 1 ∧ a.completed = b.completed + 1 ∧
        a.tuned.current = b.tuned.current ∧ a.cd.current = s.cd.current := by
  induction n with
  | zero =>
      intro s _ _ _ _
      refine ⟨[], rfl, fun i b a h => ?_⟩
      simp at h
  | succ n ih =>
      intro s h hleft hclosed hok
      obtain ⟨s₁, s₂, hbegin, hcomplete, h₂, hleft₂, hclosed₂, hok₂, hcd, htuned, hb, hc⟩ :=
        h.iteration hleft hclosed hok level sysErrVec
      obtain ⟨its, hits, hrest⟩ := ih s₂ h₂ hleft₂ hclosed₂ hok₂
      refine ⟨(s, s₂) :: its, ?_, ?_⟩
      · rw [TunedState.iterate, hbegin]
        dsimp only
        rw [hcomplete]
        dsimp only
        rw [hits]
      · intro i b a hi
        cases i with
        | zero =>
            obtain ⟨rfl, rfl⟩ : s = b ∧ s₂ = a := by simpa using hi
            exact ⟨rfl, rfl, hb, hc, htuned, hcd⟩
        | succ i =>
            obtain ⟨h1, h2, h3, h4, h5, h6⟩ := hrest i b a (by simpa using hi)
            exact ⟨by omega, by omega, h3, h4, h5, h6.trans hcd⟩

theorem Ready.inversion (h : Ready label k q p s.tuned) (hc : (s.tuned.node p).count = 0)
    {n : ℕ} {its : List (TunedState × TunedState)}
    (hits : s.iterate env level label sysErrVec (n + 1) = .ok its) :
    ∃ cd' s₂ rest, beginUnderlying env level label sysErrVec s.cd = .ok cd' ∧
      (s.enter p cd').complete false = .ok s₂ ∧
      s₂.iterate env level label sysErrVec n = .ok rest ∧ its = (s, s₂) :: rest := by
  rw [TunedState.iterate, h.begin (by simp [hc])] at hits
  cases hbegin : beginUnderlying env level label sysErrVec s.cd with
  | error e =>
      rw [hbegin] at hits
      cases hits
  | ok cd' =>
      rw [hbegin] at hits
      dsimp only [Except.map] at hits
      cases hcomplete : (s.enter p cd').complete false with
      | error e =>
          rw [hcomplete] at hits
          cases hits
      | ok s₂ =>
          rw [hcomplete] at hits
          dsimp only at hits
          cases hrest : s₂.iterate env level label sysErrVec n with
          | error e =>
              rw [hrest] at hits
              cases hits
          | ok rest =>
              rw [hrest] at hits
              exact ⟨cd', s₂, rest, rfl, hcomplete, hrest, (Except.ok.inj hits).symm⟩

theorem Ready.complete_stuck (h : Ready label k q p s.tuned) (hc : (s.tuned.node p).count = 0)
    (hk : 1 < k) (hleft : LeftClear s.tuned p) (cd : PhaseTree) :
    (s.enter p cd).complete false = .ok ((s.enter p cd).leave p) := by
  rw [h.complete cd hleft, if_neg]
  rw [hc, Int.zero_tmod]
  omega

theorem Start.refines_one (h : Start label 1 q p s) (hleft : LeftClear s.tuned p)
    (hok : BeginOk env label s.cd) (n : ℕ) : Refines env level label sysErrVec 1 n s := by
  obtain ⟨its, hits, hrun⟩ := Ready.iterate level sysErrVec n s h.tuned hleft h.cd hok
  refine ⟨its, hits, fun i b a hi => ?_⟩
  obtain ⟨hb, hc, hb', hc', htuned, hcd⟩ := hrun i b a hi
  have hzero := h.begun
  have hzero' := h.completed
  constructor
  · rw [if_pos (Nat.mod_one i), hb']
  · rw [if_pos (Nat.mod_one i), hc']
  · exact htuned
  · exact .inl (by omega)
  · intro _
    exact hcd
  · intro hopen
    omega

theorem Start.refines_first (h : Start label k q p s) (hk : 1 < k) (hleft : LeftClear s.tuned p)
    (hok : BeginOk env label s.cd) : Refines env level label sysErrVec k 1 s := by
  obtain ⟨cd', c, hbegin, ho⟩ := beginUnderlying_ok level sysErrVec h.cd hok
  have hcomplete := h.tuned.complete_stuck h.count hk hleft cd'
  refine ⟨[(s, (s.enter p cd').leave p)], ?_, fun i b a hi => ?_⟩
  · rw [TunedState.iterate, h.tuned.begin (by simp [h.count]), hbegin]
    dsimp only [Except.map]
    rw [hcomplete]
    rfl
  · obtain rfl : i = 0 := by
      have := (List.getElem?_eq_some_iff.mp hi).1
      simpa using this
    obtain ⟨rfl, rfl⟩ : s = b ∧ (s.enter p cd').leave p = a := by simpa using hi
    have hb : ((s.enter p cd').leave p).begun = s.begun + 1 := rfl
    have hc : ((s.enter p cd').leave p).completed = s.completed := rfl
    have hzero := h.begun
    have hzero' := h.completed
    constructor
    · rw [hb, if_pos (Nat.zero_mod k)]
    · rw [hc, Nat.zero_mod, if_neg (by omega)]
      rfl
    · exact h.tuned.parent.trans h.tuned.current.symm
    · exact .inr (by omega)
    · intro hclosed
      omega
    · intro _
      exact ⟨c, ho.current, ho.parent⟩

theorem Start.of_refines (h : Start label k q p s) {n : ℕ}
    (hr : Refines env level label sysErrVec k (n + 1) s) :
    LeftClear s.tuned p ∧ BeginOk env label s.cd := by
  obtain ⟨its, hits, hrun⟩ := hr
  obtain ⟨cd', s₂, rest, hbegin, hcomplete, -, rfl⟩ := h.tuned.inversion h.count hits
  have hfirst := hrun 0 s s₂ rfl
  have hzero := h.begun
  have hzero' := h.completed
  have hleft : LeftClear s.tuned p := by
    by_contra hleft
    rw [h.tuned.complete_merged cd' hleft] at hcomplete
    cases hcomplete
  refine ⟨hleft, ?_⟩
  by_cases hk : k = 1
  · -- completed at once: the node above the new one is the old current node
    subst hk
    rw [h.tuned.complete cd' hleft, if_pos (by simp)] at hcomplete
    cases hcur : cd'.current with
    | none =>
        have hcur' : (s.enter p cd').cd.current = none := hcur
        unfold TunedState.completeUnderlying at hcomplete
        rw [hcur'] at hcomplete
        cases hcomplete
    | some c =>
        have hcur' : (s.enter p cd').cd.current = some c := hcur
        unfold TunedState.completeUnderlying at hcomplete
        rw [hcur'] at hcomplete
        obtain rfl := Except.ok.inj hcomplete
        have hb := hfirst.begun
        have hc := hfirst.completed
        rw [if_pos (Nat.mod_one 0)] at hb hc
        exact beginOk_of_opened hbegin hcur (hfirst.closed (by omega))
  · have hk' : 1 < k := by have := h.tuned.pos; omega
    rw [h.tuned.complete_stuck h.count hk' hleft cd'] at hcomplete
    obtain rfl := Except.ok.inj hcomplete
    have hb := hfirst.begun
    have hc := hfirst.completed
    rw [if_pos (Nat.zero_mod k)] at hb
    rw [Nat.zero_mod, if_neg (by omega)] at hc
    obtain ⟨c, hcur, hparent⟩ := hfirst.opened (by omega)
    exact beginOk_of_opened hbegin hcur hparent

theorem Start.not_refines (h : Start label k q p s) (hk : 1 < k) (n : ℕ) :
    ¬ Refines env level label sysErrVec k (n + 2) s := by
  intro hr
  obtain ⟨hleft, -⟩ := h.of_refines hr
  obtain ⟨its, hits, hrun⟩ := hr
  obtain ⟨cd', s₂, rest, hbegin, hcomplete, hrest, rfl⟩ := h.tuned.inversion h.count hits
  rw [h.tuned.complete_stuck h.count hk hleft cd'] at hcomplete
  obtain rfl := Except.ok.inj hcomplete
  have hback : ((s.enter p cd').leave p).tuned = s.tuned := by
    have : ((s.enter p cd').leave p).tuned = { s.tuned with current := (s.tuned.node p).parent } :=
      rfl
    rw [this, h.tuned.parent, ← h.tuned.current]
  have hready : Ready label k q p ((s.enter p cd').leave p).tuned := hback ▸ h.tuned
  have hleft' : LeftClear ((s.enter p cd').leave p).tuned p := hback ▸ hleft
  have hcount : (((s.enter p cd').leave p).tuned.node p).count = 0 := hback ▸ h.count
  obtain ⟨cd'', s₄, rest', -, hcomplete', -, rfl⟩ := hready.inversion hcount hrest
  rw [hready.complete_stuck hcount hk hleft' cd''] at hcomplete'
  obtain rfl := Except.ok.inj hcomplete'
  have hsecond := (hrun 1 _ _ rfl).begun
  rw [Nat.mod_eq_of_lt hk, if_neg Nat.one_ne_zero] at hsecond
  exact absurd hsecond (Nat.succ_ne_self _)

end Runs

/-- The tuned iterations follow the interval exactly when it is 1 or there is one iteration,
given that the underlying CD can be begun at all and no merged sibling precedes the phase. -/
theorem refines_iff {label : String} {k q p : ℕ} {s : TunedState} (h : Start label k q p s)
    (env : Env) (level : ℕ) (sysErrVec : ℤ) (n : ℕ) :
    Refines env level label sysErrVec k n s ↔
      n = 0 ∨ LeftClear s.tuned p ∧ BeginOk env label s.cd ∧ (k = 1 ∨ n = 1) := by
  have hpos := h.tuned.pos
  constructor
  · intro hr
    match n with
    | 0 => exact .inl rfl
    | n + 1 =>
        obtain ⟨hleft, hok⟩ := h.of_refines hr
        refine .inr ⟨hleft, hok, ?_⟩
        by_contra hlong
        match n with
        | 0 => exact hlong (.inr rfl)
        | n + 1 => exact h.not_refines (by omega) n hr
  · rintro (rfl | ⟨hleft, hok, hone⟩)
    · refine ⟨[], rfl, fun i b a hi => ?_⟩
      simp at hi
    · by_cases hk : k = 1
      · subst hk
        exact h.refines_one hleft hok n
      · obtain rfl : n = 1 := hone.resolve_left hk
        exact h.refines_first (by omega) hleft hok

/-- A loop `a` with interval `k` in the root `R`, whose underlying CD is open. -/
def loop (k : ℕ) : TunedState where
  tuned :=
    { heap := [{ level := 0, phase := 0, state := .execution, interval := 1, label := "R",
                 children := [1] },
               { level := 1, phase := 1, state := .execution, interval := k, label := "a",
                 parent := some 0 }]
      phaseGen := 2
      root := some 0
      current := some 0 }
  cd := (PhaseTree.init {} 0 "R").2

theorem loop_start (k : ℕ) (hk : 0 < k) : Start "a" k 0 1 (loop k) where
  tuned :=
    { current := rfl
      differs := by simp [loop, PhaseTree.node]
      next := by simp [loop, PhaseTree.getNextNode, PhaseTree.node]
      parent := rfl
      valid := by simp [loop]
      interval := rfl
      pos := hk
      last := by intro r hr; cases hr }
  count := rfl
  cd :=
    { current := by intro c hc; cases hc; exact Nat.zero_lt_one
      parents := by
        intro i j hij
        cases i with
        | zero => cases hij
        | succ i => cases hij }
  begun := rfl
  completed := rfl

theorem loop_of_interval_one : Refines {} 1 "a" 0 1 3 (loop 1) := by
  apply (refines_iff (loop_start 1 Nat.one_pos) {} 1 0 3).mpr
  have hok : BeginOk {} "a" (loop 1).cd := by
    rw [beginOk_new rfl rfl]
    exact ⟨by decide, rfl⟩
  exact .inr ⟨(fun l hl => (by cases hl)), hok, .inl rfl⟩

theorem loop_of_interval_two : Start "a" 2 0 1 (loop 2) ∧ ¬ Refines {} 1 "a" 0 2 2 (loop 2) :=
  ⟨loop_start 2 Nat.two_pos, (loop_start 2 Nat.two_pos).not_refines Nat.one_lt_two 0⟩

end CDRuntime.Phase
