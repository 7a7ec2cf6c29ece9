import CDRuntime.PhaseIdentity

namespace CDRuntime.Phase
open Runs

/-- Pointers lead to nodes, children come after their parent, and the numbers have 32 bits. -/
structure Sound (t : PhaseTree) : Prop where
  gen : t.phaseGen < 2 ^ 32
  level : ∀ i, (t.node i).level < 2 ^ 32
  phase : ∀ i, (t.node i).phase < 2 ^ 32
  current : ∀ c, t.current = some c → c < t.heap.length
  root : ∀ r, t.root = some r → r < t.heap.length
  cache : ∀ x ∈ t.phaseNodeCache, x.2 < t.heap.length
  parents : ∀ i j, (t.node i).parent = some j → j < t.heap.length
  children : ∀ i, ∀ c ∈ (t.node i).children, i < c ∧ c < t.heap.length

theorem sound_empty : Sound {} where
  gen := by decide
  level i := by simp [PhaseTree.node]; decide
  phase i := by simp [PhaseTree.node]; decide
  current := by simp
  root := by simp
  cache := by simp
  parents i j hij := by cases hij
  children := by simp [PhaseTree.node]; decide

section Sound

variable {t : PhaseTree}

theorem Sound.modify (h : Sound t) (p : ℕ) {f : PhaseNode → PhaseNode}
    (hlevel : ∀ n, (f n).level = n.level) (hphase : ∀ n, (f n).phase = n.phase)
    (hparent : ∀ n, (f n).parent = n.parent) (hchildren : ∀ n, (f n).children = n.children) :
    Sound (t.modify p f) where
  gen := h.gen
  level i := by rw [PhaseTree.modify_field _ _ _ _ (·.level) hlevel]; exact h.level i
  phase i := by rw [PhaseTree.modify_field _ _ _ _ (·.phase) hphase]; exact h.phase i
  current := by rw [PhaseTree.modify_length]; exact h.current
  root := by rw [PhaseTree.modify_length]; exact h.root
  cache := by rw [PhaseTree.modify_length]; exact h.cache
  parents i j hij := by
    rw [PhaseTree.modify_field _ _ _ _ (·.parent) hparent] at hij
    rw [PhaseTree.modify_length]
    exact h.parents i j hij
  children i c hc := by
    rw [PhaseTree.modify_field _ _ _ _ (·.children) hchildren] at hc
    rw [PhaseTree.modify_length]
    exact h.children i c hc

theorem Sound.setCurrent (h : Sound t) {c : Option ℕ} (hc : ∀ p, c = some p → p < t.heap.length) :
    Sound { t with current := c } :=
  ⟨h.gen, h.level, h.phase, hc, h.root, h.cache, h.parents, h.children⟩

/-- A new node below an existing one, made current, with or without becoming the root. -/
theorem Sound.newNode (h : Sound t) (parent : Option ℕ)
    (hparent : ∀ q, parent = some q → q < t.heap.length) {level : ℕ} (hlevel : level < 2 ^ 32)
    (label : String) (state : ExecMode) (root : Option ℕ)
    (hroot : ∀ r, root = some r → r ≤ t.heap.length) (path : List (String × ℕ)) :
    Sound { t.newNode parent level label state with
      current := some t.heap.length
      root := root
      phasePath := path
      phaseNodeCache := (t.phaseGen, t.heap.length) :: t.phaseNodeCache } := by
  have hnode : ∀ i, ({ t.newNode parent level label state with
      current := some t.heap.length
      root := root
      phasePath := path
      phaseNodeCache := (t.phaseGen, t.heap.length) :: t.phaseNodeCache } : PhaseTree).node i =
        (t.newNode parent level label state).node i := fun _ => rfl
  have hlen := t.newNode_length parent level label state
  constructor
  · simp only [PhaseTree.newNode_phaseGen]
    omega
  · intro i
    rw [hnode]
    by_cases hi : i = t.heap.length
    · rw [hi, PhaseTree.node_newNode_self]
      exact hlevel
    · rw [t.newNode_field _ _ _ _ (·.level) (fun _ _ => rfl) (fun _ _ => rfl) i hi]
      exact h.level i
  · intro i
    rw [hnode]
    by_cases hi : i = t.heap.length
    · rw [hi, PhaseTree.node_newNode_self]
      exact h.gen
    · rw [t.newNode_field _ _ _ _ (·.phase) (fun _ _ => rfl) (fun _ _ => rfl) i hi]
      exact h.phase i
  · intro c hc
    cases hc
    simp
  · intro r hr
    have := hroot r hr
    simp only [hlen]
    omega
  · intro x hx
    simp only [hlen]
    obtain rfl | hx := List.mem_cons.mp hx
    · exact Nat.lt_succ_self _
    · exact Nat.lt_succ_of_lt (h.cache x hx)
  · intro i j hij
    rw [hnode] at hij
    simp only [hlen]
    by_cases hi : i = t.heap.length
    · rw [hi, PhaseTree.node_newNode_self] at hij
      exact Nat.lt_succ_of_lt (hparent j hij)
    · rw [t.newNode_field _ _ _ _ (·.parent) (fun _ _ => rfl) (fun _ _ => rfl) i hi] at hij
      exact Nat.lt_succ_of_lt (h.parents i j hij)
  · intro i c hc
    rw [hnode] at hc
    simp only [hlen]
    by_cases hi : i < t.heap.length
    · rw [t.newNode_children _ _ _ _ i hi] at hc
      split at hc
      · obtain hc | hc := List.mem_append.mp hc
        · have := h.children i c hc
          omega
        · rw [List.mem_singleton.mp hc]
          omega
      · have := h.children i c hc
        omega
    · by_cases hi' : i = t.heap.length
      · rw [hi', PhaseTree.node_newNode_self] at hc
        cases hc
      · have hdefault : (t.newNode parent level label state).node i = default := by
          rw [PhaseTree.node, List.getD_eq_getElem?_getD,
            List.getElem?_eq_none (by rw [hlen]; omega)]
          rfl
        rw [hdefault] at hc
        cases hc

theorem Sound.configure (h : Sound t) (env : Env) (p : ℕ) (label : String) (medium : PrvMedium)
    (errorVec : ℤ) : Sound (t.configure env p label medium errorVec) := by
  obtain heq | ⟨e, m, heq⟩ := t.configure_cases env p label medium errorVec
  · rw [heq]
    exact h
  · rw [heq]
    exact h.modify p (fun _ => rfl) (fun _ => rfl) (fun _ => rfl) (fun _ => rfl)

theorem Sound.enterPhase (h : Sound t) (self : ℕ) {p : ℕ} (hp : p < t.heap.length) :
    Sound (t.enterPhase self p) := by
  have hcur : Sound { t with current := some p } := h.setCurrent (by rintro q ⟨⟩; exact hp)
  obtain heq | heq := t.enterPhase_cases self p
  · rw [heq]
    exact hcur
  · rw [heq]
    exact hcur.modify p (fun _ => rfl) (fun _ => rfl) (fun _ => rfl) (fun _ => rfl)

theorem Sound.beginPhase (h : Sound t) {env : Env} {level : ℕ} (hlevel : level < 2 ^ 32)
    {label : String} {medium : PrvMedium} {errorVec : ℤ} {phase : ℕ} {t' : PhaseTree}
    (hbegin : t.beginPhase env level label medium errorVec = .ok (phase, t')) : Sound t' := by
  unfold PhaseTree.beginPhase at hbegin
  cases hcur : t.current with
  | none =>
      rw [hcur] at hbegin
      dsimp only at hbegin
      cases hroot : t.root with
      | none =>
          rw [hroot] at hbegin
          obtain rfl := congrArg Prod.snd (Except.ok.inj hbegin)
          refine Sound.modify ?_ _ (fun _ => rfl) (fun _ => rfl) (fun _ => rfl) (fun _ => rfl)
          have hnew := h.newNode none (by simp) hlevel label .execution
            (some t.heap.length) (by rintro r ⟨⟩; exact Nat.le_refl _)
            (t.newNode none level label .execution).phasePath
          rw [← t.newNode_cache none level label .execution] at hnew
          exact hnew
      | some r =>
          rw [hroot] at hbegin
          obtain rfl := congrArg Prod.snd (Except.ok.inj hbegin)
          have hcur : Sound { t with current := some r } := by
            apply h.setCurrent
            rintro q ⟨⟩
            exact h.root r hroot
          rw [hroot] at hcur
          exact hcur
  | some self =>
      rw [hcur] at hbegin
      dsimp only [PhaseTree.getPhaseNode] at hbegin
      split at hbegin
      · cases hbegin
      split at hbegin
      · split at hbegin
        · cases hbegin
        · obtain rfl := congrArg Prod.snd (Except.ok.inj hbegin)
          apply Sound.configure
          have hnew := h.newNode t.current h.current hlevel label (t.node self).state
            (t.newNode t.current level label (t.node self).state).root
            (by rw [t.newNode_root]; intro r hr; exact Nat.le_of_lt (h.root r hr))
            ((t.getPhasePathOf self label, t.phaseGen) ::
              (t.newNode t.current level label (t.node self).state).phasePath)
          rw [← t.newNode_cache t.current level label (t.node self).state] at hnew
          exact hnew
      · rename_i phase' _
        obtain rfl := congrArg Prod.snd (Except.ok.inj hbegin)
        apply Sound.configure
        apply h.enterPhase
        cases hl : t.phaseNodeCache.lookup phase' with
        | none => exact Nat.lt_of_le_of_lt (Nat.zero_le _) (h.current self hcur)
        | some p =>
            obtain ⟨l₁, l₂, heq, -⟩ := List.lookup_eq_some_iff.mp hl
            exact h.cache (phase', p) (by simp [heq])

theorem Sound.completePhase (h : Sound t) {good isReexec : Bool} {t' : PhaseTree}
    (hcomplete : t.completePhase good isReexec = .ok t') : Sound t' := by
  unfold PhaseTree.completePhase at hcomplete
  cases hcur : t.current with
  | none => rw [hcur] at hcomplete; cases hcomplete
  | some p =>
      rw [hcur] at hcomplete
      obtain rfl := Except.ok.inj hcomplete
      have hinc : Sound (t.modify p (·.incSeqID (good && !isReexec))) := by
        refine h.modify p ?_ ?_ ?_ ?_ <;>
          (intro n; unfold PhaseNode.incSeqID; dsimp only; split <;> rfl)
      cases good with
      | true => exact hinc.setCurrent fun q hq => hinc.parents p q hq
      | false =>
          have hstate : Sound ((t.modify p (·.incSeqID (false && !isReexec))).modify p fun n =>
              { n with state := .reexecution }) :=
            hinc.modify p (fun _ => rfl) (fun _ => rfl) (fun _ => rfl) (fun _ => rfl)
          exact hstate.setCurrent fun q hq => hstate.parents p q hq

theorem Sound.step {env : Env} {s s' : Scopes} {op : Op} (h : Sound s.tree)
    (hstep : s.step env op = some s') : Sound s'.tree := by
  cases op with
  | beginPhase label medium errorVec =>
      simp only [Scopes.step] at hstep
      split at hstep
      · cases hstep
      cases hbegin : s.tree.beginPhase env (s.frames.length % 2 ^ 32) label medium errorVec with
      | error e =>
          rw [hbegin] at hstep
          obtain rfl := Option.some.inj hstep
          exact h
      | ok r =>
          rw [hbegin] at hstep
          obtain rfl := Option.some.inj hstep
          exact h.beginPhase (Nat.mod_lt _ (by decide)) hbegin
  | completePhase =>
      simp only [Scopes.step] at hstep
      split at hstep
      · cases hstep
      cases hf : s.frames with
      | nil => rw [hf] at hstep; cases hstep
      | cons f fs =>
          rw [hf] at hstep
          dsimp only at hstep
          cases hcomplete : s.tree.completePhase true false with
          | error e =>
              rw [hcomplete] at hstep
              obtain rfl := Option.some.inj hstep
              exact h
          | ok t =>
              rw [hcomplete] at hstep
              obtain rfl := Option.some.inj hstep
              exact h.completePhase hcomplete

theorem Sound.beginPhase_root (h : Sound t) {env : Env} {level r : ℕ} {label : String}
    {medium : PrvMedium} {errorVec : ℤ} {phase : ℕ} {t' : PhaseTree} (hroot : t.root = some r)
    (hbegin : t.beginPhase env level label medium errorVec = .ok (phase, t')) :
    t'.root = some r ∧ (t'.node r).level = (t.node r).level := by
  have hr : r ≠ t.heap.length := Nat.ne_of_lt (h.root r hroot)
  unfold PhaseTree.beginPhase at hbegin
  cases hcur : t.current with
  | none =>
      rw [hcur, hroot] at hbegin
      obtain rfl := congrArg Prod.snd (Except.ok.inj hbegin)
      exact ⟨rfl, rfl⟩
  | some self =>
      rw [hcur] at hbegin
      dsimp only [PhaseTree.getPhaseNode] at hbegin
      split at hbegin
      · cases hbegin
      split at hbegin
      · split at hbegin
        · cases hbegin
        · obtain rfl := congrArg Prod.snd (Except.ok.inj hbegin)
          dsimp only
          rw [(PhaseTree.configure_maps env _ _ label medium errorVec).2.2.2,
            PhaseTree.configure_field env _ _ label medium errorVec (·.level) fun _ _ _ => rfl]
          exact ⟨(t.newNode_root _ _ _ _).trans hroot,
            t.newNode_field _ _ _ _ (·.level) (fun _ _ => rfl) (fun _ _ => rfl) r hr⟩
      · obtain rfl := congrArg Prod.snd (Except.ok.inj hbegin)
        dsimp only
        rw [(PhaseTree.configure_maps env _ _ label medium errorVec).2.2.2,
          PhaseTree.configure_field env _ _ label medium errorVec (·.level) fun _ _ _ => rfl,
          (t.enterPhase_maps _ _).2.2.2, t.enterPhase_field _ _ (·.level) fun _ _ => rfl]
        exact ⟨hroot, rfl⟩

theorem beginPhase_init {env : Env} {level : ℕ} {label : String} {medium : PrvMedium}
    {errorVec : ℤ} {phase : ℕ} {t' : PhaseTree} (hcur : t.current = none) (hroot : t.root = none)
    (hbegin : t.beginPhase env level label medium errorVec = .ok (phase, t')) :
    t'.root = some t.heap.length ∧ (t'.node t.heap.length).level = level := by
  rw [PhaseTree.beginPhase, hcur, hroot] at hbegin
  obtain rfl := congrArg Prod.snd (Except.ok.inj hbegin)
  refine ⟨rfl, ?_⟩
  refine (PhaseTree.modify_field _ _ _ (fun n => { n with medium := .globalDisk, errortype := -1 })
    (·.level) fun _ => rfl).trans ?_
  exact congrArg PhaseNode.level (t.node_newNode_self none level label .execution)

/-- The root of the tree was made by the outermost call. -/
structure Rooted (s : Scopes) : Prop where
  sound : Sound s.tree
  empty : s.tree.root = none → s.tree.current = none ∧ s.frames = []
  level : ∀ r, s.tree.root = some r → (s.tree.node r).level = 0

theorem Rooted.step {env : Env} {s s' : Scopes} {op : Op} (h : Rooted s)
    (hstep : s.step env op = some s') : Rooted s' := by
  have hsound := h.sound.step hstep
  cases op with
  | beginPhase label medium errorVec =>
      simp only [Scopes.step] at hstep
      split at hstep
      · cases hstep
      cases hbegin : s.tree.beginPhase env (s.frames.length % 2 ^ 32) label medium errorVec with
      | error e =>
          rw [hbegin] at hstep
          obtain rfl := Option.some.inj hstep
          exact ⟨hsound, h.empty, h.level⟩
      | ok res =>
          rw [hbegin] at hstep
          obtain rfl := Option.some.inj hstep
          obtain ⟨phase, t'⟩ := res
          cases hroot : s.tree.root with
          | some r =>
              obtain ⟨hroot', hlevel⟩ := h.sound.beginPhase_root hroot hbegin
              refine ⟨hsound, fun hnone => ?_, fun r' hr' => ?_⟩
              · rw [hroot'] at hnone
                cases hnone
              · obtain rfl := Option.some.inj (hroot'.symm.trans hr')
                exact hlevel.trans (h.level r hroot)
          | none =>
              obtain ⟨hcur, hframes⟩ := h.empty hroot
              obtain ⟨hroot', hlevel⟩ := beginPhase_init hcur hroot hbegin
              refine ⟨hsound, fun hnone => ?_, fun r' hr' => ?_⟩
              · rw [hroot'] at hnone
                cases hnone
              · obtain rfl := Option.some.inj (hroot'.symm.trans hr')
                rw [hlevel, hframes]
                rfl
  | completePhase =>
      simp only [Scopes.step] at hstep
      split at hstep
      · cases hstep
      cases hf : s.frames with
      | nil => rw [hf] at hstep; cases hstep
      | cons f fs =>
          have hroot : s.tree.root ≠ none := by
            intro hnone
            rw [(h.empty hnone).2] at hf
            cases hf
          rw [hf] at hstep
          dsimp only at hstep
          cases hcur : s.tree.current with
          | none =>
              rw [PhaseTree.completePhase, hcur] at hstep
              obtain rfl := Option.some.inj hstep
              exact ⟨hsound, fun hnone => absurd hnone hroot, h.level⟩
          | some p =>
              rw [PhaseTree.completePhase, hcur] at hstep
              obtain rfl := Option.some.inj hstep
              refine ⟨hsound, fun hnone => absurd hnone hroot, fun r hr => ?_⟩
              refine (PhaseTree.modify_field _ _ _ _ (·.level) fun n => ?_).trans (h.level r hr)
              unfold PhaseNode.incSeqID
              dsimp only
              split <;> rfl

theorem rooted_of_run {env : Env} {ops : List Op} {s : Scopes}
    (hrun : run (Scopes.step env) {} ops = some s) : Rooted s := by
  have hstep : ∀ (s : Scopes) op s', Rooted s → s.step env op = some s' → Rooted s' :=
    fun _ _ _ h hstep => h.step hstep
  have hinit : Rooted {} := ⟨sound_empty, fun _ => ⟨rfl, rfl⟩, by simp⟩
  exact (always_of_step hstep ops ({} : Scopes) hinit).last ops {} s hrun

end Sound

end CDRuntime.Phase
