import CDRuntime.PhaseRewind
import CDRuntime.PhaseSound
import Mathlib.Logic.Relation

namespace CDRuntime.Phase

/-- `ResetToExec`, down the children; these come after their parent, so the number of nodes is
fuel enough. -/
def PhaseTree.resetToExec : ℕ → PhaseTree → ℕ → PhaseTree
  | 0, t, p => t.modify p fun n => { n with state := .execution }
  | fuel + 1, t, p =>
      (t.node p).children.foldl (fun t c => t.resetToExec fuel c)
        (t.modify p fun n => { n with state := .execution })

/-- `FinishRecovery`, up the parents. -/
def PhaseTree.finishRecovery (t : PhaseTree) : ℕ → ℕ → Except Trap PhaseTree
  | 0, p =>
      if (t.node p).state ≠ .reexecution then .error .finishRecovery
      else .ok (t.resetToExec t.heap.length p)
  | fuel + 1, p =>
      if (t.node p).state ≠ .reexecution then .error .finishRecovery
      else
        match (t.node p).parent with
        | none => .ok (t.resetToExec t.heap.length p)
        | some q =>
            if (t.node q).state ≠ .reexecution then .ok (t.resetToExec t.heap.length p)
            else t.finishRecovery fuel q

/-- `t'` has the nodes of `t` with the same links, numbers and labels. -/
structure SameLinks (t t' : PhaseTree) : Prop where
  length : t'.heap.length = t.heap.length
  gen : t'.phaseGen = t.phaseGen
  path : t'.phasePath = t.phasePath
  cache : t'.phaseNodeCache = t.phaseNodeCache
  root : t'.root = t.root
  level : ∀ q, (t'.node q).level = (t.node q).level
  phase : ∀ q, (t'.node q).phase = (t.node q).phase
  label : ∀ q, (t'.node q).label = (t.node q).label
  parent : ∀ q, (t'.node q).parent = (t.node q).parent
  left : ∀ q, (t'.node q).left = (t.node q).left
  children : ∀ q, (t'.node q).children = (t.node q).children

section SameLinks

variable {t t' t'' : PhaseTree}

theorem SameLinks.refl (t : PhaseTree) : SameLinks t t :=
  ⟨rfl, rfl, rfl, rfl, rfl, fun _ => rfl, fun _ => rfl, fun _ => rfl, fun _ => rfl, fun _ => rfl,
    fun _ => rfl⟩

theorem SameLinks.trans (h : SameLinks t t') (h' : SameLinks t' t'') : SameLinks t t'' where
  length := h'.length.trans h.length
  gen := h'.gen.trans h.gen
  path := h'.path.trans h.path
  cache := h'.cache.trans h.cache
  root := h'.root.trans h.root
  level q := (h'.level q).trans (h.level q)
  phase q := (h'.phase q).trans (h.phase q)
  label q := (h'.label q).trans (h.label q)
  parent q := (h'.parent q).trans (h.parent q)
  left q := (h'.left q).trans (h.left q)
  children q := (h'.children q).trans (h.children q)

structure KeepsLinks (f : PhaseNode → PhaseNode) : Prop where
  level : ∀ n, (f n).level = n.level
  phase : ∀ n, (f n).phase = n.phase
  label : ∀ n, (f n).label = n.label
  parent : ∀ n, (f n).parent = n.parent
  left : ∀ n, (f n).left = n.left
  children : ∀ n, (f n).children = n.children

theorem SameLinks.modify (t : PhaseTree) (p : ℕ) {f : PhaseNode → PhaseNode} (hf : KeepsLinks f) :
    SameLinks t (t.modify p f) where
  length := PhaseTree.modify_length t p f
  gen := rfl
  path := rfl
  cache := rfl
  root := rfl
  level q := PhaseTree.modify_field t p q f _ hf.level
  phase q := PhaseTree.modify_field t p q f _ hf.phase
  label q := PhaseTree.modify_field t p q f _ hf.label
  parent q := PhaseTree.modify_field t p q f _ hf.parent
  left q := PhaseTree.modify_field t p q f _ hf.left
  children q := PhaseTree.modify_field t p q f _ hf.children

theorem SameLinks.setCurrent (t : PhaseTree) (c : Option ℕ) :
    SameLinks t { t with current := c } :=
  ⟨rfl, rfl, rfl, rfl, rfl, fun _ => rfl, fun _ => rfl, fun _ => rfl, fun _ => rfl, fun _ => rfl,
    fun _ => rfl⟩

theorem keepsLinks_state (st : ExecMode) : KeepsLinks fun n => { n with state := st } :=
  ⟨fun _ => rfl, fun _ => rfl, fun _ => rfl, fun _ => rfl, fun _ => rfl, fun _ => rfl⟩

theorem keepsLinks_incSeqID (errFree : Bool) : KeepsLinks (·.incSeqID errFree) := by
  constructor <;> (intro n; unfold PhaseNode.incSeqID; dsimp only; split <;> rfl)

theorem keepsLinks_resetSeqID (rollbackLv : ℕ) : KeepsLinks (·.resetSeqID rollbackLv) := by
  constructor <;> (intro n; unfold PhaseNode.resetSeqID; split <;> rfl)

theorem keepsLinks_markSeqID (left : PhaseNode → Option PhaseNode) :
    KeepsLinks fun n => n.markSeqID (left n) := by
  constructor <;> (intro n; unfold PhaseNode.markSeqID; split <;> rfl)

theorem SameLinks.configure (t : PhaseTree) (env : Env) (p : ℕ) (label : String)
    (medium : PrvMedium) (errorVec : ℤ) :
    SameLinks t (t.configure env p label medium errorVec) := by
  obtain heq | ⟨e, m, heq⟩ := t.configure_cases env p label medium errorVec
  · rw [heq]
    exact SameLinks.refl t
  · rw [heq]
    exact SameLinks.modify t p
      ⟨fun _ => rfl, fun _ => rfl, fun _ => rfl, fun _ => rfl, fun _ => rfl, fun _ => rfl⟩

theorem SameLinks.enterPhase (t : PhaseTree) (self p : ℕ) : SameLinks t (t.enterPhase self p) := by
  have hcur := SameLinks.setCurrent t (some p)
  obtain heq | heq := t.enterPhase_cases self p
  · rw [heq]
    exact hcur
  · rw [heq]
    exact hcur.trans (SameLinks.modify _ p (keepsLinks_state _))

theorem Represents.sameLinks {cs : List (List String)} (h : Represents t cs)
    (hs : SameLinks t t') : Represents t' cs :=
  h.congr hs.length hs.gen hs.path hs.cache hs.root fun q => ⟨hs.phase q, hs.label q, hs.parent q⟩

theorem Sound.sameLinks (h : Sound t) (hs : SameLinks t t')
    (hcur : ∀ c, t'.current = some c → c < t.heap.length) : Sound t' where
  gen := hs.gen ▸ h.gen
  level i := hs.level i ▸ h.level i
  phase i := hs.phase i ▸ h.phase i
  current c hc := hs.length ▸ hcur c hc
  root r hr := by
    rw [hs.length]
    exact h.root r (hs.root ▸ hr)
  cache x hx := by
    rw [hs.length]
    exact h.cache x (hs.cache ▸ hx)
  parents i j hij := by
    rw [hs.length]
    exact h.parents i j (hs.parent i ▸ hij)
  children i c hc := by
    rw [hs.length]
    exact h.children i c (hs.children i ▸ hc)

end SameLinks

def PhaseTree.state (t : PhaseTree) (q : ℕ) : ExecMode := (t.node q).state

section States

variable (t : PhaseTree)

theorem state_modify_other (p q : ℕ) {f : PhaseNode → PhaseNode}
    (hf : ∀ n, (f n).state = n.state) : (t.modify p f).state q = t.state q :=
  PhaseTree.modify_field t p q f (·.state) hf

theorem state_modify_state {p : ℕ} (hp : p < t.heap.length) (q : ℕ) (st : ExecMode) :
    (t.modify p fun n => { n with state := st }).state q = if q = p then st else t.state q := by
  rw [PhaseTree.state, PhaseTree.node_modify _ _ _ _ hp]
  by_cases hq : p = q
  · rw [if_pos hq, if_pos hq.symm]
  · rw [if_neg hq, if_neg (Ne.symm hq)]
    rfl

theorem state_incSeqID (p q : ℕ) (errFree : Bool) :
    (t.modify p (·.incSeqID errFree)).state q = t.state q := by
  apply state_modify_other
  intro n
  unfold PhaseNode.incSeqID
  dsimp only
  split <;> rfl

/-- What `CompletePhase` does: outside healthy state it marks the node. -/
theorem completePhase_spec {t : PhaseTree} {p : ℕ} (hcur : t.current = some p)
    (hp : p < t.heap.length) (good isReexec : Bool) :
    ∃ t', t.completePhase good isReexec = .ok t' ∧ SameLinks t t' ∧
      t'.current = (t.node p).parent ∧
      ∀ q, t'.state q = if good = false ∧ q = p then .reexecution else t.state q := by
  have hinc := SameLinks.modify t p (keepsLinks_incSeqID (good && !isReexec))
  unfold PhaseTree.completePhase
  rw [hcur]
  dsimp only
  cases good with
  | true =>
      rw [if_pos rfl]
      refine ⟨_, rfl, hinc.trans (SameLinks.setCurrent _ _), hinc.parent p, fun q => ?_⟩
      rw [if_neg fun h => Bool.noConfusion h.1]
      exact state_incSeqID t p q _
  | false =>
      rw [if_neg Bool.false_ne_true]
      have hmark := hinc.trans (SameLinks.modify _ p (keepsLinks_state .reexecution))
      refine ⟨_, rfl, hmark.trans (SameLinks.setCurrent _ _), hmark.parent p, fun q => ?_⟩
      have hstate := state_modify_state (t.modify p (·.incSeqID (false && !isReexec)))
        (by rw [PhaseTree.modify_length]; exact hp) q .reexecution
      rw [state_incSeqID] at hstate
      rw [if_congr (and_iff_right rfl) rfl rfl]
      exact hstate

theorem state_enterPhase {t : PhaseTree} {self p : ℕ} (hp : p < t.heap.length) (q : ℕ) :
    (t.enterPhase self p).state q =
      if t.state self = .reexecution ∧ q = p then .reexecution else t.state q := by
  unfold PhaseTree.enterPhase
  dsimp only
  by_cases hself : (t.node self).state = .reexecution
  · rw [if_pos hself]
    have hstate := state_modify_state { t with current := some p } hp q .reexecution
    rw [hstate]
    by_cases hq : q = p
    · rw [if_pos hq, if_pos ⟨hself, hq⟩]
    · rw [if_neg hq, if_neg fun h => hq h.2]
      rfl
  · rw [if_neg hself, if_neg fun h => hself h.1]
    rfl

theorem state_configure (env : Env) (p : ℕ) (label : String) (medium : PrvMedium) (errorVec : ℤ)
    (q : ℕ) : (t.configure env p label medium errorVec).state q = t.state q :=
  t.configure_field env p label medium errorVec (·.state) (fun _ _ _ => rfl) q

theorem resetCurrent_spec (t : PhaseTree) (rollbackLv : ℕ) :
    SameLinks t (t.resetCurrent rollbackLv) ∧
      (t.resetCurrent rollbackLv).current = t.current ∧
      ∀ q, (t.resetCurrent rollbackLv).state q = t.state q := by
  unfold PhaseTree.resetCurrent
  split
  · exact ⟨SameLinks.refl t, rfl, fun _ => rfl⟩
  · refine ⟨SameLinks.modify t _ (keepsLinks_resetSeqID rollbackLv), rfl, fun q => ?_⟩
    apply state_modify_other
    intro n
    unfold PhaseNode.resetSeqID
    split <;> rfl

end States

/-- `t'` is `t` with the marks of some nodes taken away. -/
structure Cleared (t t' : PhaseTree) : Prop where
  links : SameLinks t t'
  current : t'.current = t.current
  state : ∀ q, t'.state q = .execution ∨ t'.state q = t.state q

section ResetToExec

variable {t t' t'' : PhaseTree}

theorem Cleared.refl (t : PhaseTree) : Cleared t t :=
  ⟨SameLinks.refl t, rfl, fun _ => .inr rfl⟩

theorem Cleared.trans (h : Cleared t t') (h' : Cleared t' t'') : Cleared t t'' where
  links := h.links.trans h'.links
  current := h'.current.trans h.current
  state q := by
    obtain hexec | hsame := h'.state q
    · exact .inl hexec
    · rw [hsame]
      exact h.state q

theorem Cleared.keeps (h : Cleared t t') {q : ℕ} (hq : t.state q = .execution) :
    t'.state q = .execution := by
  obtain hexec | hsame := h.state q
  · exact hexec
  · exact hsame.trans hq

theorem cleared_modify (t : PhaseTree) (p : ℕ) :
    Cleared t (t.modify p fun n => { n with state := .execution }) where
  links := SameLinks.modify t p (keepsLinks_state .execution)
  current := rfl
  state q := by
    by_cases hp : p < t.heap.length
    · rw [state_modify_state t hp]
      split
      · exact .inl rfl
      · exact .inr rfl
    · rw [PhaseTree.modify, List.modify_eq_self (Nat.le_of_not_lt hp)]
      exact .inr rfl

theorem cleared_foldl {f : PhaseTree → ℕ → PhaseTree} (hf : ∀ t c, Cleared t (f t c))
    (cs : List ℕ) : ∀ t, Cleared t (cs.foldl f t) := by
  induction cs with
  | nil => exact Cleared.refl
  | cons c cs ih => exact fun t => (hf t c).trans (ih (f t c))

theorem cleared_resetToExec (fuel : ℕ) : ∀ (t : PhaseTree) (p : ℕ),
    Cleared t (t.resetToExec fuel p) := by
  induction fuel with
  | zero => exact cleared_modify
  | succ fuel ih => exact fun t p => (cleared_modify t p).trans (cleared_foldl ih _ _)

/-- `q` lies in the subtree of `p`. -/
def Reaches (t : PhaseTree) : ℕ → ℕ → Prop :=
  Relation.ReflTransGen fun p c => c ∈ (t.node p).children

theorem Reaches.sameLinks (hs : SameLinks t t') {p q : ℕ} (h : Reaches t p q) :
    Reaches t' p q := by
  have hchild : ∀ a b, b ∈ (t.node a).children → b ∈ (t'.node a).children := by
    intro a b hab
    rwa [hs.children a]
  exact Relation.ReflTransGen.mono hchild p q h

theorem resetToExec_reaches (fuel : ℕ) : ∀ {t : PhaseTree} {p q : ℕ},
    (∀ i, ∀ c ∈ (t.node i).children, i < c ∧ c < t.heap.length) → p < t.heap.length →
    t.heap.length ≤ p + fuel → Reaches t p q → (t.resetToExec fuel p).state q = .execution := by
  induction fuel with
  | zero =>
      intro t p q _ hp hfuel _
      omega
  | succ fuel ih =>
      intro t p q hchildren hp hfuel hreach
      have hclear := cleared_foldl (cleared_resetToExec fuel)
      rw [PhaseTree.resetToExec]
      obtain rfl | ⟨c, hc, hrest⟩ := hreach.cases_head
      · apply (hclear _ _).keeps
        rw [state_modify_state t hp, if_pos rfl]
      · -- the children before `c` keep its subtree, those after it keep what is reset
        obtain ⟨before, after, hsplit⟩ := List.append_of_mem hc
        rw [hsplit, List.foldl_append, List.foldl_cons]
        have hlinks := ((cleared_modify t p).trans (hclear before _)).links
        generalize before.foldl (fun t c => t.resetToExec fuel c)
          (t.modify p fun n => { n with state := .execution }) = t₁ at hlinks
        apply (hclear after _).keeps
        have hafter := hchildren p c hc
        apply ih
        · intro i d hd
          rw [hlinks.length]
          exact hchildren i d (hlinks.children i ▸ hd)
        · rw [hlinks.length]
          exact hafter.2
        · rw [hlinks.length]
          omega
        · exact Reaches.sameLinks hlinks hrest

end ResetToExec

/-- The tree stands for `cs`, and every node is listed among the children of its parent. -/
structure Grown (t : PhaseTree) (cs : List (List String)) : Prop where
  tree : Represents t cs
  sound : Sound t
  listed : ∀ i j, (t.node i).parent = some j → i ∈ (t.node j).children

section Grown

variable {t t' : PhaseTree} {cs : List (List String)}

theorem Grown.sameLinks (h : Grown t cs) (hs : SameLinks t t')
    (hcur : ∀ c, t'.current = some c → c < t.heap.length) : Grown t' cs where
  tree := h.tree.sameLinks hs
  sound := h.sound.sameLinks hs hcur
  listed i j hij := by
    rw [hs.children j]
    exact h.listed i j (hs.parent i ▸ hij)

/-- The node of a longer chain lies in the subtree of the node of a shorter one. -/
theorem Grown.reaches (h : Grown t cs) {p : ℕ} {base : List String} (hp : cs[p]? = some base)
    (ls : List String) : ∀ {q : ℕ}, cs[q]? = some (ls ++ base) → Reaches t p q := by
  induction ls with
  | nil =>
      intro q hq
      rw [h.tree.key_injective hp hq rfl]
      exact Relation.ReflTransGen.refl
  | cons l ls ih =>
      intro q hq
      obtain ⟨m, c, hm⟩ := List.exists_cons_of_ne_nil (show ls ++ base ≠ [] by
        simp [h.tree.ne_nil hp])
      have hq' : cs[q]? = some (l :: m :: c) := by rw [hq, List.cons_append, hm]
      obtain ⟨j, hparent, -, hj⟩ := h.tree.parent_some hq'
      rw [← hm] at hj
      exact (ih hj).tail (h.listed q j hparent)

/-- Marked are some nodes of the subtree of `base`, among them `base` itself and what lies on
the way from it to `c`. -/
structure MarkedBelow (t : PhaseTree) (cs : List (List String)) (base c : List String) : Prop where
  only : ∀ i d, cs[i]? = some d → t.state i = .execution ∨ t.state i = .reexecution ∧ base <:+ d
  origin : ∀ i, cs[i]? = some base → t.state i = .reexecution
  way : ∀ i d, cs[i]? = some d → base <:+ d → d <:+ c → t.state i = .reexecution

/-- Nothing changes on the way up. -/
theorem MarkedBelow.congr {base c c' : List String} (h : MarkedBelow t cs base c)
    (hsame : ∀ q, t'.state q = t.state q) (hc : c' <:+ c) : MarkedBelow t' cs base c' where
  only i d hd := by
    rw [hsame]
    exact h.only i d hd
  origin i hi := by
    rw [hsame]
    exact h.origin i hi
  way i d hd hle hsuf := by
    rw [hsame]
    exact h.way i d hd hle (hsuf.trans hc)

/-- The node that is entered is `base` or lies below it, and inherits the mark on the way. -/
theorem MarkedBelow.enter {base c : List String} {l : String} {i : ℕ} (h : MarkedBelow t cs base c)
    (hr : Represents t cs) (hi : cs[i]? = some (l :: c)) (hwhere : l :: c = base ∨ base <:+ c)
    (hother : ∀ q, q ≠ i → t'.state q = t.state q)
    (hself : t'.state i = t.state i ∨ t'.state i = .reexecution)
    (hinherit : base <:+ c → t'.state i = .reexecution) : MarkedBelow t' cs base (l :: c) := by
  have hkeep : ∀ q, t.state q = .reexecution → t'.state q = .reexecution := by
    intro q hq
    by_cases hqi : q = i
    · subst hqi
      obtain hsame | hmark := hself
      · exact hsame.trans hq
      · exact hmark
    · rw [hother q hqi, hq]
  constructor
  · intro q d hd
    by_cases hqi : q = i
    · subst hqi
      obtain rfl := Option.some.inj (hi.symm.trans hd)
      obtain hsame | hmark := hself
      · rw [hsame]
        exact h.only q _ hd
      · refine .inr ⟨hmark, ?_⟩
        obtain heq | hin := hwhere
        · rw [heq]
        · exact hin.trans (List.suffix_cons _ _)
    · rw [hother q hqi]
      exact h.only q d hd
  · exact fun q hq => hkeep q (h.origin q hq)
  · intro q d hd hle hsuf
    obtain rfl | hsuf := List.suffix_cons_iff.mp hsuf
    · obtain heq | hin := hwhere
      · exact hkeep q (h.origin q (heq ▸ hd))
      · obtain rfl := hr.key_injective hd hi rfl
        exact hinherit hin
    · exact hkeep q (h.way q d hd hle hsuf)

/-- `FinishRecovery` on such a way goes up to `base` and resets the subtree. -/
theorem MarkedBelow.finishRecovery {base c : List String} (h : MarkedBelow t cs base c)
    (hg : Grown t cs) {b : ℕ} (hb : cs[b]? = some base) (ls : List String) :
    ∀ {fuel p : ℕ}, p ≤ fuel → cs[p]? = some (ls ++ base) → ls ++ base <:+ c →
      t.finishRecovery fuel p = .ok (t.resetToExec t.heap.length b) := by
  induction ls with
  | nil =>
      intro fuel p hfuel hp _
      obtain rfl := hg.tree.key_injective hp hb rfl
      have hmark : (t.node p).state = .reexecution := h.origin p hp
      cases fuel with
      | zero => rw [PhaseTree.finishRecovery, if_neg (by simp [hmark])]
      | succ fuel =>
          rw [PhaseTree.finishRecovery, if_neg (by simp [hmark])]
          cases hparent : (t.node p).parent with
          | none => rfl
          | some q =>
              -- the parent's chain is too short to be marked
              have hq := (hg.tree.link p _ hp).chain
              obtain ⟨rest, hrest, hq⟩ := hq
              rw [hparent] at hq
              have hexec : (t.node q).state ≠ .reexecution := by
                intro hmarked
                obtain hex | ⟨-, hsuf⟩ := h.only q rest hq.2
                · exact absurd (hmarked.symm.trans hex) (by simp)
                · have hlen := hsuf.length_le
                  rw [List.nil_append] at hrest
                  rw [hrest, List.length_cons] at hlen
                  omega
              exact if_pos hexec
  | cons l ls ih =>
      intro fuel p hfuel hp hc
      obtain ⟨m, c', hm⟩ := List.exists_cons_of_ne_nil (show ls ++ base ≠ [] by
        simp [hg.tree.ne_nil hb])
      have hp' : cs[p]? = some (l :: m :: c') := by rw [hp, List.cons_append, hm]
      obtain ⟨q, hparent, hlt, hq⟩ := hg.tree.parent_some hp'
      rw [← hm] at hq
      have hcq : ls ++ base <:+ c := (List.suffix_cons l _).trans hc
      have hmark : (t.node p).state = .reexecution :=
        h.way p _ hp ((List.suffix_append ls base).trans (List.suffix_cons l _)) hc
      have hmarkq : (t.node q).state = .reexecution :=
        h.way q _ hq (List.suffix_append ls base) hcq
      cases fuel with
      | zero => omega
      | succ fuel =>
          rw [PhaseTree.finishRecovery, if_neg (by simp [hmark]), hparent]
          dsimp only
          rw [if_neg (by simp [hmarkq])]
          exact ih (by omega) hq hcq

theorem MarkedBelow.finished {base c : List String} (h : MarkedBelow t cs base c)
    (hg : Grown t cs) {b : ℕ} (hb : cs[b]? = some base) (i : ℕ) (hi : i < cs.length) :
    (t.resetToExec t.heap.length b).state i = .execution := by
  obtain ⟨d, hd⟩ : ∃ d, cs[i]? = some d := ⟨_, List.getElem?_eq_getElem hi⟩
  obtain hex | ⟨-, ls, rfl⟩ := h.only i d hd
  · exact (cleared_resetToExec _ _ _).keeps hex
  · have hlt := hg.tree.lt hb
    exact resetToExec_reaches _ hg.sound.children hlt (by omega) (hg.reaches hb ls hd)

end Grown

theorem beginPhase_cases {t t' : PhaseTree} {env : Env} {level : ℕ} {label : String}
    {medium : PrvMedium} {errorVec : ℤ} {phase : ℕ}
    (h : t.beginPhase env level label medium errorVec = .ok (phase, t')) :
    (SameLinks t t' ∧ ((∃ self, t.current = some self ∧ t.state self = .reexecution) ∨
        ∀ q, t'.state q = t.state q)) ∨
      (t'.heap.length = t.heap.length + 1 ∧ ∀ q,
        (t'.node q).parent = ((t.newNode t.current level label .execution).node q).parent ∧
        (t'.node q).children = ((t.newNode t.current level label .execution).node q).children ∧
        t'.state q = (t.newNode t.current level label .execution).state q) := by
  unfold PhaseTree.beginPhase at h
  cases hcur : t.current with
  | none =>
      rw [hcur] at h
      dsimp only at h
      cases hroot : t.root with
      | none =>
          right
          rw [hroot] at h
          obtain rfl := congrArg Prod.snd (Except.ok.inj h)
          refine ⟨by simp [PhaseTree.init], fun q => ⟨?_, ?_, ?_⟩⟩
          · exact PhaseTree.modify_field _ _ _ _ (·.parent) fun _ => rfl
          · exact PhaseTree.modify_field _ _ _ _ (·.children) fun _ => rfl
          · exact PhaseTree.modify_field _ _ _ _ (·.state) fun _ => rfl
      | some r =>
          left
          rw [hroot] at h
          obtain rfl := congrArg Prod.snd (Except.ok.inj h)
          rw [← hroot]
          exact ⟨SameLinks.setCurrent t _, .inr fun _ => rfl⟩
  | some self =>
      rw [hcur] at h
      dsimp only [PhaseTree.getPhaseNode] at h
      split at h
      · cases h
      split at h
      · split at h
        · cases h
        · rename_i hstate
          right
          have hexec : (t.node self).state = .execution := not_not.mp hstate
          obtain rfl := congrArg Prod.snd (Except.ok.inj h)
          have hnode : ∀ q, (t.addPhase self level label (t.getPhasePathOf self label)).node q =
              (t.newNode (some self) level label .execution).node q := by
            intro q
            rw [← hexec, ← hcur]
            rfl
          refine ⟨?_, fun q => ⟨?_, ?_, ?_⟩⟩
          · rw [PhaseTree.configure_length]
            exact PhaseTree.newNode_length t t.current level label (t.node self).state
          · rw [PhaseTree.configure_field _ _ _ _ _ _ (·.parent) fun _ _ _ => rfl, hnode]
          · rw [PhaseTree.configure_field _ _ _ _ _ _ (·.children) fun _ _ _ => rfl, hnode]
          · rw [state_configure, PhaseTree.state, hnode]
            rfl
      · left
        rename_i phase' _
        obtain rfl := congrArg Prod.snd (Except.ok.inj h)
        refine ⟨(SameLinks.enterPhase t self _).trans (SameLinks.configure _ _ _ _ _ _), ?_⟩
        by_cases hself : t.state self = .reexecution
        · exact .inl ⟨self, rfl, hself⟩
        · right
          intro q
          rw [state_configure]
          unfold PhaseTree.enterPhase
          dsimp only
          rw [if_neg (show ¬ (t.node self).state = .reexecution from hself)]
          rfl

theorem beginPhase_executing {t t' : PhaseTree} {env : Env} {level : ℕ} {label : String}
    {medium : PrvMedium} {errorVec : ℤ} {phase : ℕ} (hs : Sound t)
    (hexec : ∀ q < t.heap.length, t.state q = .execution)
    (h : t.beginPhase env level label medium errorVec = .ok (phase, t')) :
    ∀ q < t'.heap.length, t'.state q = .execution := by
  intro q hq
  obtain ⟨hlinks, hmark | hsame⟩ | ⟨hlength, hnode⟩ := beginPhase_cases h
  · obtain ⟨self, hcur, hself⟩ := hmark
    have := hexec self (hs.current self hcur)
    rw [hself] at this
    cases this
  · rw [hsame]
    exact hexec q (hlinks.length ▸ hq)
  · rw [(hnode q).2.2, PhaseTree.state]
    by_cases hnew : q = t.heap.length
    · rw [hnew, PhaseTree.node_newNode_self]
    · rw [t.newNode_field _ _ _ _ (·.state) (fun _ _ => rfl) (fun _ _ => rfl) q hnew]
      exact hexec q (by omega)

theorem beginPhase_trap {t : PhaseTree} {env : Env} {level : ℕ} {label : String}
    {medium : PrvMedium} {errorVec : ℤ} (hs : Sound t)
    (hexec : ∀ q < t.heap.length, t.state q = .execution) {e : Trap}
    (h : t.beginPhase env level label medium errorVec = .error e) : e = .leftover := by
  unfold PhaseTree.beginPhase at h
  cases hcur : t.current with
  | none =>
      rw [hcur] at h
      dsimp only at h
      cases hroot : t.root <;> rw [hroot] at h <;> cases h
  | some self =>
      rw [hcur] at h
      dsimp only [PhaseTree.getPhaseNode] at h
      split at h
      · exact (Except.error.inj h).symm
      split at h
      · rw [if_neg] at h
        · cases h
        · have hself := hexec self (hs.current self hcur)
          exact not_not_intro hself
      · cases h

theorem listed_beginPhase {t t' : PhaseTree} {env : Env} {level : ℕ} {label : String}
    {medium : PrvMedium} {errorVec : ℤ} {phase : ℕ} (hs : Sound t)
    (hlisted : ∀ i j, (t.node i).parent = some j → i ∈ (t.node j).children)
    (h : t.beginPhase env level label medium errorVec = .ok (phase, t')) :
    ∀ i j, (t'.node i).parent = some j → i ∈ (t'.node j).children := by
  intro i j hij
  obtain ⟨hlinks, -⟩ | ⟨-, hnode⟩ := beginPhase_cases h
  · rw [hlinks.children]
    exact hlisted i j (hlinks.parent i ▸ hij)
  · rw [(hnode i).1] at hij
    rw [(hnode j).2.1]
    by_cases hnew : i = t.heap.length
    · rw [hnew, PhaseTree.node_newNode_self] at hij
      rw [t.newNode_children _ _ _ _ j (hs.current j hij), if_pos hij, hnew]
      exact List.mem_append_right _ List.mem_cons_self
    · rw [t.newNode_field _ _ _ _ (·.parent) (fun _ _ => rfl) (fun _ _ => rfl) i hnew] at hij
      have hmem := hlisted i j hij
      rw [t.newNode_children _ _ _ _ j (hs.parents i j hij)]
      split
      · exact List.mem_append_left _ hmem
      · exact hmem

section Rollback

variable {t : PhaseTree} {cs : List (List String)} {c : List String}

theorem Represents.position_parent (h : Represents t cs) {p : ℕ} {l : String}
    (hp : cs[p]? = some (l :: c)) : Position cs c (t.node p).parent := by
  have hparent := (h.parent hp).2
  cases hq : (t.node p).parent with
  | none =>
      rw [hq] at hparent
      exact hparent.1
  | some j =>
      rw [hq] at hparent
      exact hparent.2

theorem Position.lt (h : Represents t cs) (hpos : Position cs c t.current) :
    ∀ p, t.current = some p → p < t.heap.length := by
  intro p hp
  rw [hp] at hpos
  exact h.lt hpos

theorem Grown.begin_known (h : Grown t cs) (hpos : Position cs c t.current) {l : String}
    (hmem : l :: c ∈ cs) (env : Env)
    (hleft : env.myTaskID = 0 → keyOf (l :: c) ≠ some "Root_MainLoop_CalcPos") (level : ℕ)
    (medium : PrvMedium) (errorVec : ℤ) :
    ∃ i t', t.beginPhase env level l medium errorVec = .ok (i, t') ∧ cs[i]? = some (l :: c) ∧
      SameLinks t t' ∧ t'.current = some i ∧ (∀ q, q ≠ i → t'.state q = t.state q) ∧
      (t'.state i = t.state i ∨ t'.state i = .reexecution) ∧
      ∀ p, t.current = some p → t.state p = .reexecution → t'.state i = .reexecution := by
  obtain ⟨i, hi⟩ := List.mem_iff_getElem?.mp hmem
  cases hcur : t.current with
  | none =>
      rw [hcur] at hpos
      obtain rfl : c = [] := hpos
      obtain rfl := h.tree.root_index hi
      have hbegin := begin_again env level l medium errorVec h.tree hcur (List.ne_nil_of_mem hmem)
      exact ⟨0, _, hbegin, hi, SameLinks.setCurrent t _, rfl, fun _ _ => rfl, .inl rfl, by simp⟩
  | some self =>
      rw [hcur] at hpos
      obtain ⟨k, hk⟩ : ∃ k, keyOf (l :: c) = some k := ⟨_, h.tree.getPhasePathOf hpos l⟩
      have hlookup := (h.tree.path k i).mpr ⟨_, hi, hk⟩
      have hno : ¬ (env.myTaskID = 0 ∧ k = "Root_MainLoop_CalcPos") := by
        rintro ⟨htask, rfl⟩
        exact hleft htask hk
      have hstate : ∀ q, ((t.enterPhase self i).configure env i l medium errorVec).state q =
          if t.state self = .reexecution ∧ q = i then .reexecution else t.state q := by
        intro q
        rw [state_configure, state_enterPhase (h.tree.lt hi)]
      refine ⟨i, (t.enterPhase self i).configure env i l medium errorVec, ?_, hi,
        (SameLinks.enterPhase t self i).trans (SameLinks.configure _ _ _ _ _ _), ?_, ?_, ?_, ?_⟩
      · rw [h.tree.beginPhase hcur hpos hk, if_neg hno, hlookup]
      · rw [PhaseTree.configure_current, PhaseTree.enterPhase_current]
      · intro q hq
        rw [hstate, if_neg fun h => hq h.2]
      · rw [hstate]
        split
        · exact .inr rfl
        · exact .inl rfl
      · rintro p hp hmark
        obtain rfl := Option.some.inj hp
        rw [hstate, if_pos ⟨hmark, rfl⟩]

/-- A rollback marks the phases that it completes, and only these. -/
theorem Grown.rewind (rollbackLv : ℕ) (ls : List String) : ∀ {t : PhaseTree}, Grown t cs →
    Position cs (ls ++ c) t.current →
    ∃ t', t.rewind rollbackLv ls.length = .ok t' ∧ SameLinks t t' ∧ Position cs c t'.current ∧
      (∀ i d, cs[i]? = some d → c.length < d.length → d <:+ ls ++ c →
        t'.state i = .reexecution) ∧
      ∀ i d, cs[i]? = some d → ¬ (c.length < d.length ∧ d <:+ ls ++ c) →
        t'.state i = t.state i := by
  induction ls with
  | nil =>
      intro t h hpos
      refine ⟨t, rfl, SameLinks.refl t, hpos, ?_, fun _ _ _ _ => rfl⟩
      intro i d _ hlt hsuf
      have := hsuf.length_le
      rw [List.nil_append] at this
      omega
  | cons l ls ih =>
      intro t h hpos
      obtain ⟨p, hcur, hp⟩ : ∃ p, t.current = some p ∧ cs[p]? = some (l :: (ls ++ c)) := by
        cases hcur : t.current with
        | none =>
            rw [hcur] at hpos
            cases hpos
        | some p =>
            rw [hcur] at hpos
            exact ⟨p, rfl, hpos⟩
      obtain ⟨hreset, hrcur, hrstate⟩ := resetCurrent_spec t rollbackLv
      have hlt := h.tree.lt hp
      obtain ⟨t₁, hcomplete, hlinks, hcur₁, hstate₁⟩ :=
        completePhase_spec (hrcur.trans hcur) (hreset.length ▸ hlt) false true
      have hlinks := hreset.trans hlinks
      have hpos₁ : Position cs (ls ++ c) t₁.current := by
        rw [hcur₁, hreset.parent]
        exact h.tree.position_parent hp
      have hg₁ : Grown t₁ cs := h.sameLinks hlinks fun q hq => by
        rw [hcur₁, hreset.parent] at hq
        exact h.sound.parents p q hq
      obtain ⟨t', hrest, hlinks', hpos', hmarked, hother⟩ := ih hg₁ hpos₁
      refine ⟨t', ?_, hlinks.trans hlinks', hpos', ?_, ?_⟩
      · rw [List.length_cons, PhaseTree.rewind, hcomplete]
        exact hrest
      · intro i d hd hlen hsuf
        obtain rfl | hsuf := List.suffix_cons_iff.mp hsuf
        · -- the node completed first keeps the mark that it is given
          rw [h.tree.key_injective hd hp rfl, hother p _ hp, hstate₁, if_pos ⟨rfl, rfl⟩]
          rintro ⟨-, hsuf⟩
          have := hsuf.length_le
          rw [List.length_cons] at this
          omega
        · exact hmarked i d hd hlen hsuf
      · intro i d hd hnot
        rw [hother i d hd fun hin => hnot ⟨hin.1, hin.2.trans (List.suffix_cons l _)⟩, hstate₁,
          if_neg, hrstate]
        rintro ⟨-, rfl⟩
        obtain rfl := Option.some.inj (hd.symm.trans hp)
        apply hnot
        constructor
        · rw [List.length_cons, List.length_append]
          omega
        · exact List.suffix_refl _

end Rollback

end CDRuntime.Phase
