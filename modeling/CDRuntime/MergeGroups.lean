import CDRuntime.TunedHandle
import Mathlib.Data.List.Nodup
import Mathlib.Data.List.Perm.Subperm

namespace CDRuntime.Phase

structure Siblings (t : PhaseTree) (ps : List ℕ) : Prop where
  first : ∀ p, ps[0]? = some p → (t.node p).left = none
  left : ∀ i p, ps[i + 1]? = some p → (t.node p).left = ps[i]?
  right : ∀ i p, ps[i]? = some p → (t.node p).right = ps[i + 1]?
  valid : ∀ p ∈ ps, p < t.heap.length
  nodup : ps.Nodup

/-- The `i`-th sibling is merged into the one before it. -/
def MergedAt (t : PhaseTree) (ps : List ℕ) (i : ℕ) : Prop :=
  ∃ p, ps[i]? = some p ∧ (t.node p).interval = 0

structure HeadOf (t : PhaseTree) (ps : List ℕ) (i h : ℕ) : Prop where
  le : h ≤ i
  between : ∀ m, h < m → m ≤ i → MergedAt t ps m
  own : ¬ MergedAt t ps h

structure LastOf (t : PhaseTree) (ps : List ℕ) (i l : ℕ) : Prop where
  le : i ≤ l
  between : ∀ m, i < m → m ≤ l → MergedAt t ps m
  next : ¬ MergedAt t ps (l + 1)

/-- Every run of merged phases is preceded by a phase with a positive interval. -/
def WellGrouped (t : PhaseTree) (ps : List ℕ) : Prop :=
  ∀ i, MergedAt t ps i → ∃ h p, HeadOf t ps i h ∧ ps[h]? = some p ∧ 0 < (t.node p).interval

namespace PhaseTree

/-- The `interval` of `count % interval` in the tuned `Complete`. -/
def completeInterval (t : PhaseTree) (p : ℕ) : ℤ :=
  (t.node (t.getLeftMostNode t.heap.length p)).interval

/-- `cur->phase_` after the tuned `Begin`; the phase of a CD that is switched off is `-1`. -/
def handlePhase (t : PhaseTree) (p : ℕ) : ℕ :=
  if 0 < (t.node p).interval then (t.node p).phase
  else if (t.node p).interval = 0 then (t.node (t.getLeftMostNode t.heap.length p)).phase
  else 2 ^ 32 - 1

end PhaseTree

/-- What the tuned handle relies on for the `i`-th sibling `p`. -/
structure Consistent (t : PhaseTree) (ps : List ℕ) (i p : ℕ) : Prop where
  head : ∃ h q, HeadOf t ps i h ∧ ps[h]? = some q ∧
    t.getLeftMostNode t.heap.length p = q ∧ t.handlePhase p = (t.node q).phase
  last : ∃ l q, LastOf t ps i l ∧ ps[l]? = some q ∧ t.getRightMostNode t.heap.length p = q
  positive : 0 < t.completeInterval p

namespace PhaseTree

variable (t : PhaseTree) (q level : ℕ) (label : String) (state : ExecMode)

theorem newNode_right (i : ℕ) (hi : i < t.heap.length) :
    ((t.newNode (some q) level label state).node i).right =
      if (t.node q).children.getLast? = some i then some t.heap.length else (t.node i).right := by
  unfold newNode
  dsimp only
  split <;> rename_i hl
  · have hnone : (t.node q).children.getLast? = none := hl
    rw [hnone, if_neg (by simp), node_push, if_neg (by simp; omega)]
    exact modify_field _ _ _ _ (·.right) fun _ => rfl
  · rename_i l
    have hlast : (t.node q).children.getLast? = some l := hl
    rw [hlast, node_push, if_neg (by simp; omega)]
    rw [modify_field _ q i (fun m => { m with children := m.children ++ [t.heap.length] })
      (·.right) fun _ => rfl]
    by_cases hli : l = i
    · subst hli
      rw [if_pos rfl]
      exact congrArg PhaseNode.right (node_modify_self { t with phaseGen := _ } _ _ hi)
    · rw [if_neg (fun h => hli (Option.some.inj h)), node_modify_ne _ _ _ _ hli]
      rfl

end PhaseTree

theorem siblings_nil (t : PhaseTree) : Siblings t [] where
  first p hp := absurd hp (by simp)
  left i p hp := absurd hp (by simp)
  right i p hp := absurd hp (by simp)
  valid p hp := absurd hp List.not_mem_nil
  nodup := List.nodup_nil

theorem siblings_newNode {t : PhaseTree} {q : ℕ} (hq : q < t.heap.length)
    (h : Siblings t (t.node q).children) (level : ℕ) (label : String) (state : ExecMode) :
    Siblings (t.newNode (some q) level label state)
      ((t.newNode (some q) level label state).node q).children := by
  rw [t.newNode_children _ _ _ _ q hq, if_pos rfl]
  generalize hps : (t.node q).children = ps at h
  have hold : ∀ {i p}, ps[i]? = some p → p < t.heap.length := fun hp =>
    h.valid _ (List.mem_of_getElem? hp)
  have hleft : ∀ p, p ≠ t.heap.length →
      ((t.newNode (some q) level label state).node p).left = (t.node p).left := fun p hp =>
    t.newNode_field _ _ _ _ (·.left) (fun _ _ => rfl) (fun _ _ => rfl) p hp
  have hnew : ((t.newNode (some q) level label state).node t.heap.length).left = ps.getLast? := by
    rw [PhaseTree.node_newNode_self, ← hps]
    rfl
  have hget : ∀ {i p}, (ps ++ [t.heap.length])[i]? = some p →
      ps[i]? = some p ∨ (i = ps.length ∧ p = t.heap.length) := by
    intro i p hp
    rcases Nat.lt_trichotomy i ps.length with hi | rfl | hi
    · rw [List.getElem?_append_left hi] at hp
      exact .inl hp
    · rw [List.getElem?_append_right (Nat.le_refl _), Nat.sub_self] at hp
      exact .inr ⟨rfl, (Option.some.inj hp).symm⟩
    · rw [List.getElem?_eq_none (by simp; omega)] at hp
      exact absurd hp (by simp)
  refine ⟨fun p hp => ?_, fun i p hp => ?_, fun i p hp => ?_, fun p hp => ?_, ?_⟩
  · rcases hget hp with hp | ⟨hlen, rfl⟩
    · rw [hleft p (Nat.ne_of_lt (hold hp))]
      exact h.first p hp
    · rw [hnew, List.length_eq_zero_iff.mp hlen.symm]
      rfl
  · rcases hget hp with hp | ⟨hlen, rfl⟩
    · rw [hleft p (Nat.ne_of_lt (hold hp)), h.left i p hp]
      have hi := (List.getElem?_eq_some_iff.mp hp).1
      rw [List.getElem?_append_left (by omega)]
    · rw [hnew, List.getLast?_eq_getElem?, List.getElem?_append_left (by omega), ← hlen,
        Nat.add_sub_cancel]
  · rcases hget hp with hp | ⟨rfl, rfl⟩
    · rw [t.newNode_right q level label state p (hold hp), hps, List.getLast?_eq_getElem?]
      have hi := (List.getElem?_eq_some_iff.mp hp).1
      by_cases hlast : i + 1 = ps.length
      · rw [← hlast, Nat.add_sub_cancel, if_pos hp, hlast,
          List.getElem?_append_right (Nat.le_refl _), Nat.sub_self]
        rfl
      · rw [if_neg, h.right i p hp, List.getElem?_append_left (by omega)]
        -- a phase occurs only once among its siblings
        intro heq
        have := (List.getElem?_inj (show ps.length - 1 < ps.length by omega) h.nodup).mp
          (heq.trans hp.symm)
        omega
    · rw [PhaseTree.node_newNode_self, List.getElem?_eq_none (by simp)]
  · rw [PhaseTree.newNode_length]
    rcases List.mem_append.mp hp with hp | hp
    · exact Nat.lt_succ_of_lt (h.valid p hp)
    · rw [List.mem_singleton.mp hp]
      exact Nat.lt_succ_self _
  · rw [List.nodup_append]
    refine ⟨h.nodup, List.nodup_singleton _, fun p hp p' hp' => ?_⟩
    rw [List.mem_singleton.mp hp']
    exact Nat.ne_of_lt (h.valid p hp)

/-- The links are all that makes siblings. -/
theorem Siblings.modify {t : PhaseTree} {ps : List ℕ} (h : Siblings t ps) (p : ℕ)
    (f : PhaseNode → PhaseNode) (hl : ∀ n, (f n).left = n.left) (hr : ∀ n, (f n).right = n.right) :
    Siblings (t.modify p f) ps where
  first q hq := (PhaseTree.modify_field t p q f (·.left) hl).trans (h.first q hq)
  left i q hq := (PhaseTree.modify_field t p q f (·.left) hl).trans (h.left i q hq)
  right i q hq := (PhaseTree.modify_field t p q f (·.right) hr).trans (h.right i q hq)
  valid q hq := (PhaseTree.modify_length t p f).symm ▸ h.valid q hq
  nodup := h.nodup

theorem complete_zeroInterval_iff {s : TunedState} {p : ℕ} (hcur : s.tuned.current = some p) :
    s.complete false = .error .zeroInterval ↔
      p = s.tuned.getRightMostNode s.tuned.heap.length p ∧ s.tuned.completeInterval p = 0 := by
  unfold TunedState.complete PhaseTree.completeInterval
  rw [hcur]
  dsimp only
  by_cases hlast : p = s.tuned.getRightMostNode s.tuned.heap.length p
  · rw [if_pos hlast, if_neg Bool.false_ne_true]
    by_cases hzero : (s.tuned.node (s.tuned.getLeftMostNode s.tuned.heap.length p)).interval = 0
    · rw [if_pos hzero]
      exact iff_of_true rfl ⟨hlast, hzero⟩
    · rw [if_neg hzero]
      refine iff_of_false ?_ fun h => hzero h.2
      split_ifs
      · unfold TunedState.completeUnderlying
        cases s.cd.current <;> simp [Except.map]
      · simp
  · rw [if_neg hlast]
    exact iff_of_false (by simp) fun h => hlast h.1

section Groups

variable {t : PhaseTree} {ps : List ℕ} {i p : ℕ}

theorem Siblings.length_le (h : Siblings t ps) : ps.length ≤ t.heap.length := by
  have hsub : ps ⊆ List.range t.heap.length := fun p hp => List.mem_range.mpr (h.valid p hp)
  have hle := (List.subperm_of_subset h.nodup hsub).length_le
  rwa [List.length_range] at hle

theorem getRightMostNode_spec (h : Siblings t ps) (fuel : ℕ) : ∀ i p, ps[i]? = some p →
    ps.length ≤ i + fuel →
      ∃ l q, LastOf t ps i l ∧ ps[l]? = some q ∧ t.getRightMostNode fuel p = q := by
  induction fuel with
  | zero =>
      intro i p hp hlen
      have := (List.getElem?_eq_some_iff.mp hp).1
      omega
  | succ fuel ih =>
      intro i p hp hlen
      have hself : ¬ MergedAt t ps (i + 1) → LastOf t ps i i := fun hnext =>
        ⟨Nat.le_refl _, fun m hm hm' => absurd hm (Nat.not_lt_of_le hm'), hnext⟩
      rw [PhaseTree.getRightMostNode, h.right i p hp]
      cases hr : ps[i + 1]? with
      | none =>
          refine ⟨i, p, hself ?_, hp, rfl⟩
          rintro ⟨r, hr', -⟩
          rw [hr] at hr'
          exact absurd hr' (by simp)
      | some r =>
          dsimp only
          by_cases hzero : (t.node r).interval = 0
          · rw [if_pos hzero]
            obtain ⟨l, q, hl, hq, heq⟩ := ih (i + 1) r hr (by omega)
            refine ⟨l, q, ⟨Nat.le_of_succ_le hl.le, fun m hm hm' => ?_, hl.next⟩, hq, heq⟩
            rcases Nat.eq_or_lt_of_le (show i + 1 ≤ m from hm) with rfl | hm
            · exact ⟨r, hr, hzero⟩
            · exact hl.between m hm hm'
          · rw [if_neg hzero]
            refine ⟨i, p, hself ?_, hp, rfl⟩
            rintro ⟨r', hr', hzero'⟩
            rw [hr] at hr'
            exact hzero (Option.some.inj hr' ▸ hzero')

theorem consistent_of_leftClear (h : Siblings t ps) (hp : ps[i]? = some p)
    (hpos : 0 < (t.node p).interval) (hclear : LeftClear t p) : Consistent t ps i p := by
  have hleft := getLeftMostNode_eq hclear t.heap.length
  have hown : ¬ MergedAt t ps i := by
    rintro ⟨q, hq, hzero⟩
    rw [hp] at hq
    obtain rfl := Option.some.inj hq
    omega
  have hself : HeadOf t ps i i :=
    ⟨Nat.le_refl _, fun m hm hm' => absurd hm (Nat.not_lt_of_le hm'), hown⟩
  refine ⟨⟨i, p, hself, hp, hleft, ?_⟩, ?_, ?_⟩
  · rw [PhaseTree.handlePhase, if_pos hpos]
  · apply getRightMostNode_spec h t.heap.length i p hp
    have := h.length_le
    omega
  · rw [PhaseTree.completeInterval, hleft]
    exact hpos

theorem Consistent.leftClear (h : Siblings t ps) (hp : ps[i]? = some p)
    (hc : Consistent t ps i p) : (t.node p).interval ≠ 0 ∧ LeftClear t p := by
  have hlen : t.heap.length - 1 + 1 = t.heap.length := by
    have := h.valid p (List.mem_of_getElem? hp)
    omega
  have hne : t.completeInterval p ≠ 0 := Int.ne_of_gt hc.positive
  refine ⟨fun hzero => hne (getLeftMostNode_zero _ p hzero), ?_⟩
  by_contra hmerged
  have hzero := getLeftMostNode_of_merged hmerged (t.heap.length - 1)
  rw [hlen] at hzero
  exact hne hzero

theorem Consistent.interval_pos (h : Siblings t ps) (hp : ps[i]? = some p)
    (hc : Consistent t ps i p) : 0 < (t.node p).interval := by
  have hpos := hc.positive
  rwa [PhaseTree.completeInterval, getLeftMostNode_eq (hc.leftClear h hp).2] at hpos

/-- All the groups among the siblings are served as claimed exactly when every interval is
positive. -/
theorem groups_consistent_iff (h : Siblings t ps) :
    (∀ i p, ps[i]? = some p → Consistent t ps i p) ↔ ∀ p ∈ ps, 0 < (t.node p).interval := by
  constructor
  · intro hall p hp
    obtain ⟨i, hi⟩ := List.mem_iff_getElem?.mp hp
    exact (hall i p hi).interval_pos h hi
  · intro hpos i p hp
    refine consistent_of_leftClear h hp (hpos p (List.mem_of_getElem? hp)) fun l hl => ?_
    cases i with
    | zero =>
        rw [h.first p hp] at hl
        exact absurd hl (by simp)
    | succ i =>
        rw [h.left i p hp] at hl
        exact Int.ne_of_gt (hpos l (List.mem_of_getElem? hl))

end Groups

/-- A root with two children of the intervals `a` and `b`. -/
def pairTree (a b : ℤ) : PhaseTree :=
  let t := (PhaseTree.init {} 0 "Root").2
  let t := (t.newNode (some 0) 1 "A" .execution).newNode (some 0) 1 "B" .execution
  (t.modify 1 fun n => { n with interval := a }).modify 2 fun n => { n with interval := b }

theorem pairTree_siblings (a b : ℤ) : Siblings (pairTree a b) [1, 2] := by
  let root := (PhaseTree.init {} 0 "Root").2
  let one := root.newNode (some 0) 1 "A" .execution
  have hzero : Siblings root (root.node 0).children := siblings_nil root
  have hone : Siblings one (one.node 0).children := siblings_newNode (by decide) hzero 1 "A" .execution
  have htwo := siblings_newNode (t := one) (by decide) hone 1 "B" .execution
  exact (htwo.modify 1 (fun n => { n with interval := a }) (fun _ => rfl) fun _ => rfl).modify 2
    (fun n => { n with interval := b }) (fun _ => rfl) fun _ => rfl

theorem unmerged_pair_consistent : Consistent (pairTree 2 3) [1, 2] 1 2 :=
  (groups_consistent_iff (pairTree_siblings 2 3)).mpr (by decide) 1 2 rfl

theorem merged_phase_divides_by_zero :
    WellGrouped (pairTree 2 0) [1, 2] ∧
      (pairTree 2 0).getLeftMostNode 3 2 = 2 ∧ (pairTree 2 0).completeInterval 2 = 0 ∧
      TunedState.complete { tuned := { pairTree 2 0 with current := some 2 }, cd := {} } false =
        .error .zeroInterval ∧
      ¬ Consistent (pairTree 2 0) [1, 2] 1 2 := by
  refine ⟨?_, by decide, by decide, (complete_zeroInterval_iff rfl).mpr ⟨by decide, by decide⟩,
    fun h => absurd h.positive (by decide)⟩
  rintro i ⟨p, hp, hzero⟩
  match i with
  | 0 =>
      obtain rfl := Option.some.inj hp
      exact absurd hzero (by decide)
  | 1 =>
      refine ⟨0, 1, ⟨by decide, fun m hm hm' => ?_, ?_⟩, rfl, by decide⟩
      · obtain rfl : m = 1 := by omega
        exact ⟨2, rfl, by decide⟩
      · rintro ⟨q, hq, hzero'⟩
        obtain rfl := Option.some.inj hq
        exact absurd hzero' (by decide)
  | i + 2 => exact absurd hp (by simp)

end CDRuntime.Phase
