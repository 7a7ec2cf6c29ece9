import CDRuntime.RecoveryStates

namespace CDRuntime.Phase
open Recovery

/-- `seq_begin_` and `seq_end_` behind a pointer. -/
def PhaseTree.seqIDs (t : PhaseTree) (q : ℕ) : ℕ × ℕ :=
  ((t.node q).seqBegin, (t.node q).seqEnd)

/-- The phase under which a chain of labels is entered; the root is the first one. -/
def PhaseTree.phaseOf (t : PhaseTree) (c : List String) : ℕ :=
  match keyOf c with
  | none => 0
  | some k => (t.phasePath.lookup k).getD 0

section SeqIDs

variable {t t' : PhaseTree}

theorem Represents.phaseOf {cs : List (List String)} (h : Represents t cs) {i : ℕ}
    {c : List String} (hi : cs[i]? = some c) : t.phaseOf c = i := by
  unfold PhaseTree.phaseOf
  cases hk : keyOf c with
  | none =>
      obtain ⟨l, rfl⟩ := keyOf_eq_none (h.ne_nil hi) hk
      exact (h.root_index hi).symm
  | some k =>
      dsimp only
      rw [(h.path k i).mpr ⟨c, hi, hk⟩]
      rfl

theorem SameLinks.phaseOf (h : SameLinks t t') (c : List String) :
    t'.phaseOf c = t.phaseOf c := by
  unfold PhaseTree.phaseOf
  rw [h.path]

theorem SameLinks.returnedFromChildLv (h : SameLinks t t')
    (prevPhase : Option ℕ) (level : ℕ) :
    Recovery.returnedFromChildLv t' prevPhase level =
      Recovery.returnedFromChildLv t prevPhase level := by
  cases prevPhase with
  | none => rfl
  | some q =>
      unfold Recovery.returnedFromChildLv PhaseTree.nodeOf
      simp only [h.cache, h.level]

theorem seqIDs_modify_other (t : PhaseTree) (p q : ℕ) {f : PhaseNode → PhaseNode}
    (hf : ∀ n, ((f n).seqBegin, (f n).seqEnd) = (n.seqBegin, n.seqEnd)) :
    (t.modify p f).seqIDs q = t.seqIDs q :=
  PhaseTree.modify_field t p q f (fun n => (n.seqBegin, n.seqEnd)) hf

theorem seqIDs_beginPhase {env : Env} {level : ℕ} {label : String} {medium : PrvMedium}
    {errorVec : ℤ} {phase : ℕ}
    (h : t.beginPhase env level label medium errorVec = .ok (phase, t'))
    (hlength : t'.heap.length = t.heap.length) (q : ℕ) : t'.seqIDs q = t.seqIDs q := by
  unfold PhaseTree.beginPhase at h
  cases hcur : t.current with
  | none =>
      rw [hcur] at h
      dsimp only at h
      cases hroot : t.root with
      | none =>
          rw [hroot] at h
          obtain rfl := congrArg Prod.snd (Except.ok.inj h)
          simp [PhaseTree.init] at hlength
      | some r =>
          rw [hroot] at h
          obtain rfl := congrArg Prod.snd (Except.ok.inj h)
          rfl
  | some self =>
      rw [hcur] at h
      dsimp only [PhaseTree.getPhaseNode] at h
      split at h
      · cases h
      split at h
      · split at h
        · cases h
        · obtain rfl := congrArg Prod.snd (Except.ok.inj h)
          rw [PhaseTree.configure_length] at hlength
          have hnew := t.newNode_length t.current level label (t.node self).state
          exact absurd (hnew.symm.trans hlength) (Nat.succ_ne_self _)
      · obtain rfl := congrArg Prod.snd (Except.ok.inj h)
        exact (PhaseTree.configure_field _ _ _ _ _ _ (fun n => (n.seqBegin, n.seqEnd))
          (fun _ _ _ => rfl) q).trans
          (t.enterPhase_field self _ (fun n => (n.seqBegin, n.seqEnd)) (fun _ _ => rfl) q)

theorem seqIDs_completePhase {isReexec : Bool} (h : t.completePhase false isReexec = .ok t')
    (q : ℕ) : t'.seqIDs q = t.seqIDs q := by
  unfold PhaseTree.completePhase at h
  cases hcur : t.current with
  | none =>
      rw [hcur] at h
      cases h
  | some p =>
      rw [hcur] at h
      obtain rfl := Except.ok.inj h
      have hinc : (t.modify p (·.incSeqID (false && !isReexec))).seqIDs q = t.seqIDs q :=
        seqIDs_modify_other t p q fun _ => rfl
      rw [← hinc]
      exact seqIDs_modify_other (f := fun n => { n with state := .reexecution }) _ p q fun _ => rfl

theorem seqIDs_resetCurrent {p : ℕ} (hcur : t.current = some p) (hp : p < t.heap.length)
    (rollbackLv q : ℕ) : (t.resetCurrent rollbackLv).seqIDs q =
      if q = p ∧ rollbackLv < (t.node q).level then ((t.seqIDs q).1, (t.seqIDs q).1)
      else t.seqIDs q := by
  unfold PhaseTree.resetCurrent
  rw [hcur]
  dsimp only
  rw [PhaseTree.seqIDs, PhaseTree.node_modify _ _ _ _ hp]
  by_cases hq : p = q
  · subst hq
    rw [if_pos rfl, PhaseNode.resetSeqID, if_congr (and_iff_right rfl) rfl rfl]
    split <;> rfl
  · rw [if_neg hq, if_neg fun h => hq h.1.symm]
    rfl

theorem rewind_seqIDs (rollbackLv n : ℕ) : ∀ {t t' : PhaseTree} {ps : List ℕ},
    (∀ p rest, p :: rest <:+ ps → p < t.heap.length ∧ (t.node p).parent = rest.head?) →
    t.current = ps.head? → t.rewind rollbackLv n = .ok t' → SameLinks t t' ∧ ∀ q, t'.seqIDs q =
      if q ∈ ps.take n ∧ rollbackLv < (t.node q).level then ((t.seqIDs q).1, (t.seqIDs q).1)
      else t.seqIDs q := by
  induction n with
  | zero =>
      intro t t' ps _ _ h
      obtain rfl := Except.ok.inj h
      refine ⟨SameLinks.refl t, fun q => ?_⟩
      rw [List.take_zero, if_neg fun h => List.not_mem_nil h.1]
  | succ n ih =>
      intro t t' ps hpath hcur h
      rw [PhaseTree.rewind] at h
      cases ps with
      | nil =>
          have hnone : (t.resetCurrent rollbackLv).current = none :=
            (resetCurrent_spec t rollbackLv).2.1.trans hcur
          rw [PhaseTree.completePhase, hnone] at h
          cases h
      | cons p rest =>
          obtain ⟨hp, hparent⟩ := hpath p rest (List.suffix_refl _)
          obtain ⟨hreset, hrcur, -⟩ := resetCurrent_spec t rollbackLv
          obtain ⟨t₁, hcomplete, hlinks, hcur₁, -⟩ :=
            completePhase_spec (hrcur.trans hcur) (hreset.length ▸ hp) false true
          rw [hcomplete] at h
          have hlinks := hreset.trans hlinks
          have hids : ∀ q, t₁.seqIDs q = (t.resetCurrent rollbackLv).seqIDs q :=
            seqIDs_completePhase hcomplete
          have hpath₁ : ∀ q r, q :: r <:+ rest →
              q < t₁.heap.length ∧ (t₁.node q).parent = r.head? := by
            intro q r hq
            rw [hlinks.length, hlinks.parent]
            exact hpath q r (hq.trans (List.suffix_cons p rest))
          obtain ⟨hlinks', hrest⟩ :=
            ih hpath₁ (hcur₁.trans ((hreset.parent p).trans hparent)) h
          refine ⟨hlinks.trans hlinks', fun q => ?_⟩
          rw [hrest, hlinks.level, hids, seqIDs_resetCurrent hcur hp, List.take_succ_cons]
          by_cases hlevel : rollbackLv < (t.node q).level
          · by_cases hq : q = p
            · subst hq
              simp only [hlevel, List.mem_cons, true_and, true_or, if_true, ite_self]
            · simp only [hq, hlevel, List.mem_cons, false_or, and_true, if_false]
          · simp only [hlevel, and_false, if_false]

theorem seqIDs_markBegun {phase : ℕ} (hcur : t.current = some phase) (hp : phase < t.heap.length)
    (prevPhase : Option ℕ) (level q : ℕ) : (markBegun t prevPhase phase level).seqIDs q =
      if prevPhase = some phase ∨ returnedFromChildLv t prevPhase level then t.seqIDs q
      else if q = phase then
        let v := ((t.node phase).left.map fun l => (t.seqIDs l).1).getD 0
        (v, v)
      else t.seqIDs q := by
  unfold markBegun
  split
  · rfl
  · rw [hcur]
    dsimp only
    rw [PhaseTree.seqIDs, PhaseTree.node_modify _ _ _ _ hp]
    by_cases hq : phase = q
    · subst hq
      rw [if_pos rfl, if_pos rfl]
      cases (t.node phase).left <;> rfl
    · rw [if_neg hq, if_neg (Ne.symm hq)]
      rfl

end SeqIDs

end CDRuntime.Phase

namespace CDRuntime.Recovery
open Phase Runs

/-- The sequence numbers of the phases, and the phase begun last. -/
structure Numbers where
  ids : ℕ → ℕ × ℕ
  prevPhase : Option ℕ

/-- What a rollback leaves: the open phases that it completes are reset below its level. -/
def Task.resetNumbers (s : Task) (rollbackLv : ℕ) : Numbers where
  ids q :=
    if q ∈ (s.cds.map (·.phase)).take (s.cds.length - rollbackLv) ∧
        rollbackLv < (s.tree.node q).level then
      ((s.tree.seqIDs q).1, (s.tree.seqIDs q).1)
    else s.tree.seqIDs q
  prevPhase := s.prevPhase

/-- What the `Begin` of a known phase of `t` does. -/
def Numbers.begin (t : PhaseTree) (x : Numbers) (phase level : ℕ) : Numbers where
  ids q :=
    if x.prevPhase = some phase ∨ returnedFromChildLv t x.prevPhase level then x.ids q
    else if q = phase then
      let v := ((t.node phase).left.map fun l => (x.ids l).1).getD 0
      (v, v)
    else x.ids q
  prevPhase := some phase

/-- The numbers after the `Begin`s among the `k` calls from call `b` on. -/
def Numbers.repeated (program : List Op) (t : PhaseTree) (b : ℕ) (x : Numbers) : ℕ → Numbers
  | 0 => x
  | k + 1 =>
      match program[b + k]? with
      | some (.beginPhase label _ _) =>
          (x.repeated program t b k).begin t
            (t.phaseOf (label :: (opened program (b + k)).map Prod.fst))
            ((opened program (b + k)).length % 2 ^ 32)
      | _ => x.repeated program t b k

/-- The call that re-execution starts with. -/
def Task.target (s : Task) (rollbackLv : ℕ) : ℕ :=
  (s.cds[s.cds.length - rollbackLv - 1]?.map (·.jump)).getD 0

/-- `seq_end_` of phase `p` when re-execution comes to call `i`. -/
def Task.replayedID (program : List Op) (s : Task) (rollbackLv p i : ℕ) : ℕ :=
  (((s.resetNumbers rollbackLv).repeated program s.tree (s.target rollbackLv)
    (i - s.target rollbackLv)).ids p).2

/-- Re-execution comes back to the sequence number at which the current phase fails, and only
to smaller ones at the earlier completions of that phase. -/
def Retraces (program : List Op) (s : Task) (rollbackLv : ℕ) : Prop :=
  ∀ p ∈ s.tree.current,
    (∀ i < s.pos, s.target rollbackLv ≤ i → program[i]? = some .completePhase →
      (opened program i).map Prod.fst = s.labels →
      s.replayedID program rollbackLv p i < (s.tree.node p).seqEnd) ∧
    s.replayedID program rollbackLv p s.pos = (s.tree.node p).seqEnd

instance (program : List Op) (s : Task) (rollbackLv : ℕ) :
    Decidable (Retraces program s rollbackLv) :=
  inferInstanceAs (Decidable (∀ p ∈ s.tree.current, (∀ i < s.pos, _ → _ → _ → _) ∧ _))

/-- Re-execution from `s` on, without another failure: the failure stays recorded up to call `n`,
and the completion there takes the record away. -/
def Converges (env : Env) (program : List Op) (s : Task) (n : ℕ) : Prop :=
  (∀ k, s.pos + k ≤ n → ∃ s', run (Task.step env program) s (List.replicate k .ok) = some s' ∧
      s'.trap = none ∧ s'.failed ≠ none) ∧
    ∃ s', run (Task.step env program) s (List.replicate (n + 1 - s.pos) .ok) = some s' ∧
      s'.trap = none ∧ s'.failed = none

/-- `k` calls after the rollback in tree `t`, which left the numbers `x`. -/
structure Replaying (env : Env) (program : List Op) (t : PhaseTree) (x : Numbers) (f : Failure)
    (cs : List (List String)) (l : String) (b : ℕ) (rest : List (String × ℕ)) (k : ℕ)
    (s : Task) : Prop where
  reexec : Reexecuting env program s f cs l b rest
  pos : s.pos = b + k
  links : SameLinks t s.tree
  ids : ∀ q, s.tree.seqIDs q = (x.repeated program t b k).ids q
  prevPhase : s.prevPhase = (x.repeated program t b k).prevPhase

section Replaying

variable {env : Env} {program : List Op} {t : PhaseTree} {x : Numbers} {f : Failure}
  {cs : List (List String)} {l : String} {b : ℕ} {rest : List (String × ℕ)} {k : ℕ} {s : Task}

theorem Replaying.begin (h : Replaying env program t x f cs l b rest k s) {label : String}
    {m : PrvMedium} {e : ℤ} (hcall : program[s.pos]? = some (.beginPhase label m e)) :
    Replaying env program t x f cs l b rest (k + 1) (s.beginCD env label m e) := by
  have hnext := h.reexec.begin hcall
  obtain ⟨-, hmem⟩ := h.reexec.begins hcall
  have hbegun : label :: s.labels ∈ s.begun := (h.reexec.tracked.begun _).mp hmem
  obtain ⟨i, t', hbegin, hi, hlinks, hcur, -⟩ :=
    h.reexec.tracked.grown.begin_known h.reexec.tracked.current hmem env
      (fun htask => h.reexec.distinct.leftover htask _ hbegun) (s.cds.length % 2 ^ 32) m e
  obtain ⟨hmark, -, -⟩ := markBegun_spec t' s.prevPhase i (s.cds.length % 2 ^ 32)
  have hlt : i < t'.heap.length := hlinks.length ▸ h.reexec.tracked.grown.tree.lt hi
  -- phase and level of the call, from the program and the tree at the failure
  have hphase : t.phaseOf (label :: (opened program (b + k)).map Prod.fst) = i := by
    rw [← h.links.phaseOf, ← h.pos, ← h.reexec.tracked.labels]
    exact h.reexec.tracked.grown.tree.phaseOf hi
  have hlevel : s.cds.length = (opened program (b + k)).length := by
    rw [← h.pos, ← h.reexec.tracked.opened, List.length_map]
  have hrepeated : x.repeated program t b (k + 1) =
      (x.repeated program t b k).begin t i (s.cds.length % 2 ^ 32) := by
    rw [Numbers.repeated, ← h.pos, hcall]
    dsimp only
    rw [h.pos, hphase, hlevel]
  rw [beginCD_ok hbegin] at hnext ⊢
  refine ⟨hnext, ?_, (h.links.trans hlinks).trans hmark, fun q => ?_, ?_⟩
  · show s.pos + 1 = b + (k + 1)
    rw [h.pos, Nat.add_assoc]
  · show (markBegun t' s.prevPhase i (s.cds.length % 2 ^ 32)).seqIDs q = _
    have hids : ∀ q, t'.seqIDs q = (x.repeated program t b k).ids q := by
      intro q
      rw [seqIDs_beginPhase hbegin hlinks.length, h.ids]
    rw [seqIDs_markBegun hcur hlt, hrepeated, Numbers.begin, h.prevPhase,
      (h.links.trans hlinks).returnedFromChildLv, (h.links.trans hlinks).left, hids]
    simp only [hids]
  · rw [hrepeated]
    rfl

theorem Replaying.pass (h : Replaying env program t x f cs l b rest k s) {cd : OpenCD}
    {cds : List OpenCD} (hcds : s.cds = cd :: cds) (hcall : program[s.pos]? = some .completePhase)
    (hpos : s.pos < f.call) (hreach : s.reachFailure cd.phase = .ok (s.tree, some f)) :
    Replaying env program t x f cs l b rest (k + 1) (s.completeCD cd cds) := by
  have hnext := h.reexec.pass hcds hcall hpos (h.reexec.past_base hcall) hreach
  obtain ⟨hcur, hphase⟩ := h.reexec.tracked.current_some hcds
  obtain ⟨t', hcomplete, hlinks, -, -⟩ :=
    completePhase_spec hcur (h.reexec.tracked.grown.tree.lt hphase) false false
  have hrepeated : x.repeated program t b (k + 1) = x.repeated program t b k := by
    rw [Numbers.repeated, ← h.pos, hcall]
  rw [completeCD_ok hreach hcomplete] at hnext ⊢
  refine ⟨hnext, ?_, h.links.trans hlinks, fun q => ?_, ?_⟩
  · show s.pos + 1 = b + (k + 1)
    rw [h.pos, Nat.add_assoc]
  · rw [hrepeated, ← h.ids]
    exact seqIDs_completePhase hcomplete q
  · rw [hrepeated]
    exact h.prevPhase

/-- A completion of the phase that failed takes the failure away at its sequence number, leaves
it at a smaller one, and is an error at a larger one. -/
theorem Reexecuting.reaches (h : Reexecuting env program s f cs l b rest) {cd : OpenCD}
    {cds : List OpenCD} (hcds : s.cds = cd :: cds) (hcall : program[s.pos]? = some .completePhase)
    (hphase : f.failedPhase = cd.phase) :
    ((s.tree.seqIDs cd.phase).2 < f.failedSeqID ∧ (s.completeCD cd cds).failed = some f ∧
        s.reachFailure cd.phase = .ok (s.tree, some f)) ∨
      ((s.tree.seqIDs cd.phase).2 = f.failedSeqID ∧ (s.completeCD cd cds).trap = none ∧
        (s.completeCD cd cds).failed = none) ∨
      (f.failedSeqID < (s.tree.seqIDs cd.phase).2 ∧ (s.completeCD cd cds).trap ≠ none) := by
  obtain ⟨hcur, -⟩ := h.tracked.current_some hcds
  have hreach := reachFailure_failed h.failed hcur cd.phase
  rw [if_pos hphase] at hreach
  change _ = if f.failedSeqID = (s.tree.seqIDs cd.phase).2 then _ else
    if f.failedSeqID > (s.tree.seqIDs cd.phase).2 then _ else _ at hreach
  obtain hlt | heq | hgt := Nat.lt_trichotomy (s.tree.seqIDs cd.phase).2 f.failedSeqID
  · left
    rw [if_neg (Nat.ne_of_gt hlt), if_pos hlt] at hreach
    refine ⟨hlt, ?_, hreach⟩
    obtain ⟨t', hcomplete, -, -⟩ := h.tracked.complete hcds hcall (SameLinks.refl _) rfl false none
    rw [completeCD_ok hreach hcomplete]
  · right; left
    have hexec := h.heal hcds hcall (h.past_base hcall) hphase heq.symm
    exact ⟨heq, hexec.trap, hexec.failed⟩
  · right; right
    rw [if_neg (Nat.ne_of_lt hgt), if_neg (Nat.not_lt_of_lt hgt)] at hreach
    rw [completeCD_error hreach]
    exact ⟨hgt, nofun⟩

theorem Reexecuting.open_some (h : Reexecuting env program s f cs l b rest)
    (hcall : program[s.pos]? = some .completePhase) : ∃ cd cds, s.cds = cd :: cds := by
  apply List.exists_cons_of_ne_nil
  intro hnil
  have hin := (h.inside (h.past_base hcall)).2
  rw [Task.labels, hnil] at hin
  exact List.cons_ne_nil _ _ (List.suffix_nil.mp hin)

/-- A call before the one that failed leads on, unless it completes the phase that failed at its
sequence number or a larger one. -/
theorem Replaying.step (h : Replaying env program t x f cs l b rest k s) (hk : b + k < f.call)
    (hless : program[b + k]? = some .completePhase →
      (opened program (b + k)).map Prod.fst = (opened program f.call).map Prod.fst →
      ((x.repeated program t b k).ids f.failedPhase).2 < f.failedSeqID) :
    ∃ s', s.step env program .ok = some s' ∧
      Replaying env program t x f cs l b rest (k + 1) s' := by
  rw [← h.pos] at hk hless
  obtain ⟨op, hop⟩ : ∃ op, program[s.pos]? = some op := by
    obtain ⟨hlt, -⟩ := List.getElem?_eq_some_iff.mp h.reexec.call
    exact ⟨_, List.getElem?_eq_getElem (Nat.lt_trans hk hlt)⟩
  cases op with
  | beginPhase label m e => exact ⟨_, step_begin h.reexec.trap hop, h.begin hop⟩
  | completePhase =>
      obtain ⟨cd, cds, hcds⟩ := h.reexec.open_some hop
      refine ⟨_, step_complete h.reexec.trap hop hcds, h.pass hcds hop hk ?_⟩
      by_cases hphase : f.failedPhase = cd.phase
      · have hlabels := (h.reexec.failed_phase_iff hcds).mp hphase
        rw [h.reexec.tracked.labels] at hlabels
        have hlt := hless hop hlabels
        rw [← h.ids, hphase] at hlt
        obtain ⟨-, -, hreach⟩ | ⟨heq, -⟩ | ⟨hgt, -⟩ := h.reexec.reaches hcds hop hphase
        · exact hreach
        · exact absurd hlt (Nat.not_lt_of_le (Nat.le_of_eq heq.symm))
        · exact absurd hlt (Nat.not_lt_of_lt hgt)
      · obtain ⟨hcur, -⟩ := h.reexec.tracked.current_some hcds
        rw [reachFailure_failed h.reexec.failed hcur, if_neg hphase]

/-- The run lemma. -/
theorem Replaying.run {s₀ : Task} (h : Replaying env program t x f cs l b rest 0 s₀) :
    ∀ k, b + k ≤ f.call →
      (∀ i < b + k, b ≤ i → program[i]? = some .completePhase →
        (opened program i).map Prod.fst = (opened program f.call).map Prod.fst →
        ((x.repeated program t b (i - b)).ids f.failedPhase).2 < f.failedSeqID) →
      ∃ s, Runs.run (Task.step env program) s₀ (List.replicate k .ok) = some s ∧
        Replaying env program t x f cs l b rest k s := by
  intro k
  induction k with
  | zero => exact fun _ _ => ⟨s₀, rfl, h⟩
  | succ k ih =>
      intro hk hless
      obtain ⟨s, hrun, hs⟩ := ih (Nat.le_of_succ_le hk) fun i hi => hless i (Nat.lt_succ_of_lt hi)
      have hlast := hless (b + k) (Nat.lt_succ_self _) (Nat.le_add_right b k)
      rw [Nat.add_sub_cancel_left] at hlast
      obtain ⟨s', hstep, hs'⟩ := hs.step hk hlast
      refine ⟨s', ?_, hs'⟩
      rw [List.replicate_succ', run_concat, hrun, Option.bind_some, hstep]

/-- The completion of the phase that failed, in a run that has come to it. -/
theorem Replaying.completes {s₀ : Task} (h : Replaying env program t x f cs l b rest k s)
    (hrun : Runs.run (Task.step env program) s₀ (List.replicate k .ok) = some s)
    (hcall : program[b + k]? = some .completePhase)
    (hlabels : (opened program (b + k)).map Prod.fst = (opened program f.call).map Prod.fst) :
    ∃ s', Runs.run (Task.step env program) s₀ (List.replicate (k + 1) .ok) = some s' ∧
      (((x.repeated program t b k).ids f.failedPhase).2 < f.failedSeqID ∧ s'.failed ≠ none ∨
        ((x.repeated program t b k).ids f.failedPhase).2 = f.failedSeqID ∧ s'.trap = none ∧
          s'.failed = none ∨
        f.failedSeqID < ((x.repeated program t b k).ids f.failedPhase).2 ∧ s'.trap ≠ none) := by
  rw [← h.pos] at hcall hlabels
  obtain ⟨cd, cds, hcds⟩ := h.reexec.open_some hcall
  have hphase : f.failedPhase = cd.phase := by
    rw [h.reexec.failed_phase_iff hcds, h.reexec.tracked.labels]
    exact hlabels
  refine ⟨s.completeCD cd cds, ?_, ?_⟩
  · rw [List.replicate_succ', run_concat, hrun, Option.bind_some,
      step_complete h.reexec.trap hcall hcds]
  · rw [← h.ids, hphase]
    obtain ⟨hlt, hfailed, -⟩ | hreached := h.reexec.reaches hcds hcall hphase
    · exact .inl ⟨hlt, by simp [hfailed]⟩
    · exact .inr hreached

theorem Replaying.converges_iff {s₀ : Task} (h : Replaying env program t x f cs l b rest 0 s₀) :
    Converges env program s₀ f.call ↔
      (∀ i < f.call, b ≤ i → program[i]? = some .completePhase →
        (opened program i).map Prod.fst = (opened program f.call).map Prod.fst →
        ((x.repeated program t b (i - b)).ids f.failedPhase).2 < f.failedSeqID) ∧
      ((x.repeated program t b (f.call - b)).ids f.failedPhase).2 = f.failedSeqID := by
  have hpos : s₀.pos = b := h.pos
  have hb : b ≤ f.call := hpos ▸ h.reexec.before
  obtain ⟨m, hm⟩ := Nat.exists_eq_add_of_le hb
  rw [Converges, hpos]
  constructor
  · rintro ⟨hbefore, s', hend, htrap, hfailed⟩
    have hless : ∀ i < f.call, b ≤ i → program[i]? = some .completePhase →
        (opened program i).map Prod.fst = (opened program f.call).map Prod.fst →
        ((x.repeated program t b (i - b)).ids f.failedPhase).2 < f.failedSeqID := by
      intro i
      induction i using Nat.strong_induction_on with
      | _ i ih =>
          intro hi hbi hcall hlabels
          obtain ⟨k, rfl⟩ := Nat.exists_eq_add_of_le hbi
          rw [Nat.add_sub_cancel_left]
          obtain ⟨s, hrun, hs⟩ := h.run k (Nat.le_of_lt hi) fun j hj =>
            ih j hj (Nat.lt_trans hj hi)
          obtain ⟨s₁, hrun₁, hcases⟩ := hs.completes hrun hcall hlabels
          -- the record is still there after this completion, and no assertion has failed
          obtain ⟨s₂, hrun₂, htrap₂, hfailed₂⟩ := hbefore (k + 1) hi
          obtain rfl := Option.some.inj (hrun₁.symm.trans hrun₂)
          obtain ⟨hlt, -⟩ | ⟨-, -, hhealed⟩ | ⟨-, htrap₁⟩ := hcases
          · exact hlt
          · exact absurd hhealed hfailed₂
          · exact absurd htrap₂ htrap₁
    refine ⟨hless, ?_⟩
    obtain ⟨s, hrun, hs⟩ := h.run m (Nat.le_of_eq hm.symm) fun j hj => hless j (hm ▸ hj)
    obtain ⟨s₁, hrun₁, hcases⟩ := hs.completes hrun (hm ▸ h.reexec.call) (by rw [← hm])
    rw [show f.call + 1 - b = m + 1 by omega] at hend
    obtain rfl := Option.some.inj (hrun₁.symm.trans hend)
    rw [hm, Nat.add_sub_cancel_left]
    obtain ⟨-, hfailed₁⟩ | ⟨heq, -⟩ | ⟨-, htrap₁⟩ := hcases
    · exact absurd hfailed hfailed₁
    · exact heq
    · exact absurd htrap htrap₁
  · rintro ⟨hless, heq⟩
    refine ⟨fun k hk => ?_, ?_⟩
    · obtain ⟨s, hrun, hs⟩ := h.run k hk fun j hj => hless j (Nat.lt_of_lt_of_le hj hk)
      exact ⟨s, hrun, hs.reexec.trap, by simp [hs.reexec.failed]⟩
    · obtain ⟨s, hrun, hs⟩ := h.run m (Nat.le_of_eq hm.symm) fun j hj => hless j (hm ▸ hj)
      obtain ⟨s₁, hrun₁, hcases⟩ := hs.completes hrun (hm ▸ h.reexec.call) (by rw [← hm])
      rw [show f.call + 1 - b = m + 1 by omega]
      rw [show f.call - b = m by omega] at heq
      refine ⟨s₁, hrun₁, ?_⟩
      obtain ⟨hlt, -⟩ | ⟨-, hgood⟩ | ⟨hgt, -⟩ := hcases
      · exact absurd heq (Nat.ne_of_lt hlt)
      · exact hgood
      · exact absurd heq (Nat.ne_of_gt hgt)

end Replaying

section Failure

variable {env : Env} {program : List Op} {s s₀ : Task} {rollbackLv : ℕ}

theorem Tracked.upward {cs : List (List String)} (h : Tracked program s cs) :
    s.tree.current = (s.cds.map (·.phase)).head? ∧
      ∀ p rest, p :: rest <:+ s.cds.map (·.phase) →
        p < s.tree.heap.length ∧ (s.tree.node p).parent = rest.head? := by
  constructor
  · have hcurrent := h.current
    cases hcds : s.cds with
    | nil =>
        cases hcur : s.tree.current with
        | none => rfl
        | some p =>
            rw [hcur, Task.labels, hcds] at hcurrent
            exact absurd rfl (h.grown.tree.ne_nil hcurrent)
    | cons cd cds => exact (h.current_some hcds).1
  · rintro p rest ⟨before, hsplit⟩
    obtain ⟨cds₁, cds₂, hcds, -, htail⟩ := List.map_eq_append_iff.mp hsplit.symm
    obtain ⟨cd, cds, rfl, rfl, rfl⟩ := List.map_eq_cons_iff.mp htail
    have hsuf : cd :: cds <:+ s.cds := ⟨cds₁, hcds.symm⟩
    have hcd := h.placed cd cds hsuf
    refine ⟨h.grown.tree.lt hcd, ?_⟩
    have hparent := h.grown.tree.position_parent hcd
    cases hq : (s.tree.node cd.phase).parent with
    | none =>
        rw [hq] at hparent
        have hnil : cds.map (·.label) = [] := hparent
        rw [List.map_eq_nil_iff.mp hnil]
        rfl
    | some q =>
        rw [hq] at hparent
        cases cds with
        | nil => exact absurd rfl (h.grown.tree.ne_nil hparent)
        | cons cd' cds =>
            have hcd' := h.placed cd' cds ((List.suffix_cons cd _).trans hsuf)
            rw [h.grown.tree.key_injective hparent hcd' rfl]
            rfl

theorem rollback_ok {cd : OpenCD} (h : s.rollback cd rollbackLv = some s₀)
    (htrap : s₀.trap = none) :
    s.tree.rewind rollbackLv (s.cds.length - rollbackLv) = .ok s₀.tree ∧
      s₀.pos = s.target rollbackLv ∧ s₀.prevPhase = s.prevPhase := by
  unfold Task.rollback at h
  dsimp only at h
  rw [Task.target]
  cases htarget : s.cds[s.cds.length - rollbackLv - 1]? with
  | none =>
      rw [htarget] at h
      cases h
  | some target =>
      rw [htarget] at h
      dsimp only at h
      cases hrewind : s.tree.rewind rollbackLv (s.cds.length - rollbackLv) with
      | error e =>
          rw [hrewind] at h
          obtain rfl := Option.some.inj h
          cases htrap
      | ok t =>
          rw [hrewind] at h
          obtain rfl := Option.some.inj h
          exact ⟨rfl, rfl, rfl⟩

theorem Executing.replaying (h : Executing env program s) (hd : Distinct env.myTaskID s.begun)
    {cd : OpenCD} {cds : List OpenCD} (hcds : s.cds = cd :: cds)
    (hcall : program[s.pos]? = some .completePhase) (hlv : rollbackLv < s.cds.length)
    (hback : s.rollback cd rollbackLv = some s₀) :
    ∃ cs l rest, Replaying env program s.tree (s.resetNumbers rollbackLv) (s.setFailure cd.phase)
      cs l (s.target rollbackLv) rest 0 s₀ := by
  obtain ⟨cs₁, htracked, -⟩ := h.tracked hd
  obtain ⟨hcur, hpath⟩ := htracked.upward
  obtain ⟨s₁, cs, l, rest, hback₁, hreexec⟩ := h.rollback hd hcds hcall hlv
  obtain rfl := Option.some.inj (hback.symm.trans hback₁)
  obtain ⟨hrewind, hpos, hprev⟩ := rollback_ok hback hreexec.trap
  obtain ⟨hlinks, hids⟩ := rewind_seqIDs rollbackLv _ hpath hcur hrewind
  rw [hpos] at hreexec
  exact ⟨cs, l, rest, hreexec, hpos, hlinks, hids, hprev⟩

theorem Executing.converges_iff (h : Executing env program s)
    (hd : Distinct env.myTaskID s.begun)
    (hfail : s.step env program (.fail rollbackLv) = some s₀) :
    Converges env program s₀ s.pos ↔ Retraces program s rollbackLv := by
  obtain ⟨-, hcall, hlv, cd, cds, hcds, hback⟩ := step_fail hfail
  obtain ⟨cs₁, htracked, -⟩ := h.tracked hd
  obtain ⟨hcur, -⟩ := htracked.current_some hcds
  obtain ⟨cs, l, rest, hreplaying⟩ := h.replaying hd hcds hcall hlv hback
  have hset : s.setFailure cd.phase = ⟨cd.phase, (s.tree.node cd.phase).seqEnd, s.pos⟩ := by
    rw [Task.setFailure, h.failed, hcur]
    rfl
  rw [hset] at hreplaying
  have hiff := hreplaying.converges_iff
  rw [← htracked.labels] at hiff
  rw [Retraces, hcur]
  simp only [Option.mem_some_iff, forall_eq']
  exact hiff

theorem step_ok_healthy {s' : Task} (hfailed : s.failed = none)
    (hstep : s.step env program .ok = some s') : s'.failed = none := by
  unfold Task.step at hstep
  split at hstep
  · cases hstep
  split at hstep
  · cases hstep
  · obtain rfl := Option.some.inj hstep
    unfold Task.beginCD
    dsimp only
    split <;> exact hfailed
  · split at hstep
    · cases hstep
    · obtain rfl := Option.some.inj hstep
      have hreach : ∀ phase, s.reachFailure phase = .ok (s.tree, none) := by
        intro phase
        rw [Task.reachFailure, hfailed]
      unfold Task.completeCD
      rw [hreach]
      dsimp only
      split
      · exact hfailed
      · rfl

theorem guarded_of_ok (n : ℕ) : ∀ {s : Task}, s.failed = none →
    Guarded (Task.step env program) (Recognized env) s (List.replicate n .ok) ∧
      ∀ s', run (Task.step env program) s (List.replicate n .ok) = some s' → s'.failed = none := by
  induction n with
  | zero =>
      intro s hfailed
      refine ⟨trivial, fun s' hrun => ?_⟩
      obtain rfl := Option.some.inj hrun
      exact hfailed
  | succ n ih =>
      intro s hfailed
      rw [List.replicate_succ]
      constructor
      · intro s₁ hstep
        refine ⟨fun f p hf => ?_, (ih (step_ok_healthy hfailed hstep)).1⟩
        rw [hfailed] at hf
        cases hf
      · intro s' hrun
        obtain ⟨s₁, hstep, hrest⟩ := Option.bind_eq_some_iff.mp hrun
        exact (ih (step_ok_healthy hfailed hstep)).2 s' hrest

theorem recovers_of_run {events : List Event}
    (hguard : Guarded (Task.step env program) (Recognized env) {} events)
    (hrun : run (Task.step env program) {} events = some s) : Recovers env program s := by
  have hstep : ∀ s e s', Recovers env program s → Recognized env s e →
      s.step env program e = some s' → Recovers env program s' :=
    fun _ _ _ h hg hs => h.step hg hs
  have halways := always_of_guarded hstep events {} (recovers_init env program) hguard
  exact halways.last events _ _ hrun

theorem Recovers.executing (h : Recovers env program s) (htrap : s.trap = none)
    (hfailed : s.failed = none) : Executing env program s := by
  obtain ⟨htrapped, -⟩ | h | ⟨f, cs, l, b, rest, h⟩ := h
  · rw [htrap] at htrapped
    cases htrapped
  · exact h
  · rw [h.failed] at hfailed
    cases hfailed

theorem Recovers.tracked (h : Recovers env program s) (htrap : s.trap = none)
    (hd : Distinct env.myTaskID s.begun) : ∃ cs, Tracked program s cs := by
  obtain ⟨htrapped, -⟩ | h | ⟨f, cs, l, b, rest, h⟩ := h
  · rw [htrap] at htrapped
    cases htrapped
  · obtain ⟨cs, htracked, -⟩ := h.tracked hd
    exact ⟨cs, htracked⟩
  · exact ⟨cs, h.tracked⟩

theorem rollback_begun {cd : OpenCD} (h : s.rollback cd rollbackLv = some s₀) :
    s₀.begun = s.begun := by
  unfold Task.rollback at h
  dsimp only at h
  split at h
  · cases h
  · split at h
    · obtain rfl := Option.some.inj h
      rfl
    · obtain rfl := Option.some.inj h
      rfl

theorem step_begun {s' : Task} {e : Event} (hstep : s.step env program e = some s')
    (htrap : s'.trap = none) : s.trap = none ∧ (s'.begun = s.begun ∨
      ∃ label level m x r, s.tree.beginPhase env level label m x = .ok r ∧
        s'.begun = (label :: s.labels) :: s.begun) := by
  cases e with
  | fail rollbackLv =>
      obtain ⟨hnone, -, -, cd, cds, -, hback⟩ := step_fail hstep
      exact ⟨hnone, .inl (rollback_begun hback)⟩
  | ok =>
      unfold Task.step at hstep
      split at hstep
      · cases hstep
      rename_i hnone
      refine ⟨Option.not_isSome_iff_eq_none.mp hnone, ?_⟩
      split at hstep
      · cases hstep
      · rename_i label m x _
        obtain rfl := Option.some.inj hstep
        right
        cases hbegin : s.tree.beginPhase env (s.cds.length % 2 ^ 32) label m x with
        | error _ =>
            simp only [Task.beginCD, hbegin] at htrap
            cases htrap
        | ok r =>
            refine ⟨label, _, m, x, r, hbegin, ?_⟩
            rw [beginCD_ok hbegin]
      · left
        split at hstep
        · cases hstep
        · obtain rfl := Option.some.inj hstep
          unfold Task.completeCD
          split
          · rfl
          · split <;> rfl

theorem distinct_of_run (events : List Event) : ∀ {s : Task},
    Guarded (Task.step env program) (Recognized env) {} events →
    run (Task.step env program) {} events = some s → s.trap = none →
      (∀ c ∈ s.begun, ∀ d ∈ s.begun, keyOf c = keyOf d → c = d) →
      s.begun.toFinset.card ≤ 2 ^ 32 → Distinct env.myTaskID s.begun := by
  induction events using List.reverseRecOn with
  | nil =>
      intro s _ hrun _ hkeys hcount
      obtain rfl := Option.some.inj hrun
      exact ⟨hkeys, fun _ c hc => absurd hc List.not_mem_nil, hcount⟩
  | append_singleton events e ih =>
      intro s hguard hrun htrap hkeys hcount
      rw [run_concat] at hrun
      obtain ⟨s₁, hrun₁, hstep⟩ := Option.bind_eq_some_iff.mp hrun
      have hguard₁ := hguard.append_left events [e]
      obtain ⟨htrap₁, hsame | ⟨label, level, m, x, r, hbegin, hbegun⟩⟩ := step_begun hstep htrap
      · rw [hsame] at hkeys hcount ⊢
        exact ih hguard₁ hrun₁ htrap₁ hkeys hcount
      · rw [hbegun] at hkeys hcount ⊢
        have hsub := List.subset_cons_self (label :: s₁.labels) s₁.begun
        have hd : Distinct env.myTaskID s₁.begun := by
          apply ih hguard₁ hrun₁ htrap₁ fun c hc d hd => hkeys c (hsub hc) d (hsub hd)
          apply Nat.le_trans (Finset.card_le_card _) hcount
          intro c hc
          exact List.mem_toFinset.mpr (hsub (List.mem_toFinset.mp hc))
        refine ⟨hkeys, fun htask c hc => ?_, hcount⟩
        obtain rfl | hc := List.mem_cons.mp hc
        · intro hkey
          obtain ⟨cs, htracked⟩ := (recovers_of_run hguard₁ hrun₁).tracked htrap₁ hd
          have hcurrent := htracked.current
          cases hcur : s₁.tree.current with
          | none =>
              rw [hcur] at hcurrent
              have hnil : s₁.labels = [] := hcurrent
              rw [hnil] at hkey
              cases hkey
          | some self =>
              rw [hcur] at hcurrent
              rw [htracked.grown.tree.beginPhase hcur hcurrent hkey, if_pos ⟨htask, rfl⟩] at hbegin
              cases hbegin
        · exact hd.leftover htask c hc

end Failure

/-- A failure in healthy state, in a run whose phases have unique paths: re-execution converges if
and only if it retraces the sequence number of the failure. Earlier failures have been recovered
from; a run without errors meets the condition on them. -/
theorem converges_iff_retraces (env : Env) (program : List Op) (events : List Event)
    (rollbackLv : ℕ) (s s₀ : Task)
    (hguard : Guarded (Task.step env program) (Recognized env) {} events)
    (hrun : run (Task.step env program) {} events = some s) (hhealthy : s.failed = none)
    (hfail : s.step env program (.fail rollbackLv) = some s₀)
    (hkeys : ∀ c ∈ s.begun, ∀ d ∈ s.begun, keyOf c = keyOf d → c = d)
    (hcount : s.begun.toFinset.card ≤ 2 ^ 32) :
    Converges env program s₀ s.pos ↔ Retraces program s rollbackLv := by
  have htrap := (step_fail hfail).1
  have hd := distinct_of_run events hguard hrun htrap hkeys hcount
  exact ((recovers_of_run hguard hrun).executing htrap hhealthy).converges_iff hd hfail

theorem second_failure_converges :
    ∃ s s₀, run (Task.step {} twoPhases) {} [.ok, .ok, .fail 0, .ok, .ok, .ok, .ok] = some s ∧
      s.failed = none ∧ s.step {} twoPhases (.fail 1) = some s₀ ∧
      Converges {} twoPhases s₀ s.pos := by
  have hfound : ∃ s ∈ run (Task.step {} twoPhases) {} [.ok, .ok, .fail 0, .ok, .ok, .ok, .ok],
      ∃ s₀ ∈ s.step {} twoPhases (.fail 1), s.failed = none ∧ Distinct 0 s.begun ∧
        Retraces twoPhases s 1 := by
    decide
  obtain ⟨s, hs, s₀, hs₀, hhealthy, hd, hretraces⟩ := hfound
  exact ⟨s, s₀, hs, hhealthy, hs₀, (converges_iff_retraces {} twoPhases _ 1 s s₀ (by decide) hs
    hhealthy hs₀ hd.keys hd.count).mpr hretraces⟩

theorem second_iteration_not_reached :
    ∃ s s₀, run (Task.step {} twoPhases) {} (List.replicate 4 .ok) = some s ∧
      s.step {} twoPhases (.fail 0) = some s₀ ∧ Distinct 0 s.begun ∧
      ¬ Converges {} twoPhases s₀ s.pos := by
  have hfound : ∃ s ∈ run (Task.step {} twoPhases) {} (List.replicate 4 .ok),
      ∃ s₀ ∈ s.step {} twoPhases (.fail 0), Distinct 0 s.begun ∧ ¬ Retraces twoPhases s 0 := by
    decide
  obtain ⟨s, hs, s₀, hs₀, hd, hretraces⟩ := hfound
  obtain ⟨hguard, hhealthy⟩ := guarded_of_ok 4 (show ({} : Task).failed = none from rfl)
  have hexec := (recovers_of_run hguard hs).executing (step_fail hs₀).1 (hhealthy s hs)
  exact ⟨s, s₀, hs, hs₀, hd, fun h => hretraces ((hexec.converges_iff hd hs₀).mp h)⟩

end CDRuntime.Recovery
