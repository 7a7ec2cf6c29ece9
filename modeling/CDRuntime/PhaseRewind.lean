import CDRuntime.PhaseIdentity

namespace CDRuntime.Phase

/-- The tree stands for `cs` and its current node for `c`. -/
structure At (t : PhaseTree) (cs : List (List String)) (c : List String) : Prop where
  tree : Represents t cs
  current : Position cs c t.current

section At

variable {t : PhaseTree} {cs : List (List String)} {c : List String}

theorem At.modify (h : At t cs c) (p : ℕ) {f : PhaseNode → PhaseNode}
    (hphase : ∀ n, (f n).phase = n.phase) (hlabel : ∀ n, (f n).label = n.label)
    (hparent : ∀ n, (f n).parent = n.parent) : At (t.modify p f) cs c :=
  ⟨h.tree.modify p hphase hlabel hparent, h.current⟩

theorem At.current_some {l : String} (h : At t cs (l :: c)) :
    ∃ i, t.current = some i ∧ cs[i]? = some (l :: c) := by
  have hpos := h.current
  cases hcur : t.current with
  | none =>
      rw [hcur] at hpos
      exact absurd hpos (by simp [Position])
  | some i =>
      rw [hcur] at hpos
      exact ⟨i, rfl, hpos⟩

/-- `CompletePhase` goes up, whether the execution is good or not. -/
theorem At.completePhase {l : String} (h : At t cs (l :: c)) (good isReexec : Bool) :
    ∃ t', t.completePhase good isReexec = .ok t' ∧ At t' cs c := by
  obtain ⟨p, hcur, hp⟩ := h.current_some
  unfold PhaseTree.completePhase
  rw [hcur]
  dsimp only
  generalize htree : (if good then t.modify p (·.incSeqID (good && !isReexec))
    else (t.modify p (·.incSeqID (good && !isReexec))).modify p fun n =>
      { n with state := .reexecution }) = t'
  have hrep : Represents t' cs := by
    have hinc : Represents (t.modify p (·.incSeqID (good && !isReexec))) cs := by
      apply h.tree.modify p <;> intro n <;> unfold PhaseNode.incSeqID <;> dsimp only <;> split <;> rfl
    rw [← htree]
    split
    · exact hinc
    · exact hinc.modify p (fun _ => rfl) (fun _ => rfl) (fun _ => rfl)
  refine ⟨_, rfl, hrep.setCurrent _, ?_⟩
  have hparent := (hrep.parent hp).2
  show Position cs c (t'.node p).parent
  cases hq : (t'.node p).parent with
  | none =>
      rw [hq] at hparent
      exact hparent.1
  | some j =>
      rw [hq] at hparent
      exact hparent.2

/-- `BeginPhase` of a chain that is known goes down to its node. -/
theorem At.beginPhase {l : String} (h : At t cs c) (hmem : l :: c ∈ cs) (env : Env)
    (hleft : env.myTaskID = 0 → keyOf (l :: c) ≠ some "Root_MainLoop_CalcPos") (level : ℕ)
    (medium : PrvMedium) (errorVec : ℤ) :
    ∃ i t', t.beginPhase env level l medium errorVec = .ok (i, t') ∧ cs[i]? = some (l :: c) ∧
      At t' cs (l :: c) := by
  obtain ⟨i, hi⟩ := List.mem_iff_getElem?.mp hmem
  have hpos := h.current
  cases hcur : t.current with
  | none =>
      rw [hcur] at hpos
      obtain rfl : c = [] := hpos
      obtain rfl := h.tree.root_index hi
      have hroot : t.root = some 0 := by
        rw [h.tree.root, if_neg (List.ne_nil_of_mem hmem)]
      refine ⟨0, { t with current := some 0 }, ?_, hi, h.tree.setCurrent _, hi⟩
      unfold PhaseTree.beginPhase
      rw [hcur]
      dsimp only
      rw [hroot]
      dsimp only
      rw [(h.tree.link 0 _ hi).phase]
  | some self =>
      rw [hcur] at hpos
      obtain ⟨k, hk⟩ : ∃ k, keyOf (l :: c) = some k :=
        ⟨_, h.tree.getPhasePathOf hpos l⟩
      have hlookup := (h.tree.path k i).mpr ⟨_, hi, hk⟩
      have hno : ¬ (env.myTaskID = 0 ∧ k = "Root_MainLoop_CalcPos") := by
        rintro ⟨htask, rfl⟩
        exact hleft htask hk
      refine ⟨i, (t.enterPhase self i).configure env i l medium errorVec, ?_, hi,
        (h.tree.enterPhase self i).configure env i l medium errorVec, ?_⟩
      · rw [h.tree.beginPhase hcur hpos hk, if_neg hno, hlookup]
      · rw [PhaseTree.configure_current, PhaseTree.enterPhase_current]
        exact hi

end At

def PhaseTree.resetCurrent (t : PhaseTree) (rollbackLv : ℕ) : PhaseTree :=
  match t.current with
  | none => t
  | some p => t.modify p (·.resetSeqID rollbackLv)

/-- The innermost `n` open phases are completed on the way to `rollbackLv`. -/
def PhaseTree.rewind (rollbackLv : ℕ) : ℕ → PhaseTree → Except Trap PhaseTree
  | 0, t => .ok t
  | n + 1, t => do
      let t ← (t.resetCurrent rollbackLv).completePhase false true
      t.rewind rollbackLv n

theorem At.resetCurrent {t : PhaseTree} {cs : List (List String)} {c : List String}
    (h : At t cs c) (rollbackLv : ℕ) : At (t.resetCurrent rollbackLv) cs c := by
  unfold PhaseTree.resetCurrent
  split
  · exact h
  · apply h.modify <;> intro n <;> unfold PhaseNode.resetSeqID <;> split <;> rfl

theorem At.rewind {cs : List (List String)} {c : List String} (rollbackLv : ℕ)
    (ls : List String) : ∀ {t : PhaseTree}, At t cs (ls ++ c) →
      ∃ t', t.rewind rollbackLv ls.length = .ok t' ∧ At t' cs c := by
  induction ls with
  | nil =>
      intro t h
      exact ⟨t, rfl, h⟩
  | cons l ls ih =>
      intro t h
      obtain ⟨t₁, hcomplete, h₁⟩ := (h.resetCurrent rollbackLv).completePhase (l := l) false true
      obtain ⟨t', hrest, h'⟩ := ih h₁
      refine ⟨t', ?_, h'⟩
      rw [List.length_cons, PhaseTree.rewind, hcomplete]
      exact hrest

end CDRuntime.Phase
