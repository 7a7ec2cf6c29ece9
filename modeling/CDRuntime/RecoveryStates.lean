import CDRuntime.Recovery

namespace CDRuntime.Recovery
open Phase Runs

/-- Tree, open CDs and program position agree, when the tree stands for `cs`. -/
structure Tracked (program : List Op) (s : Task) (cs : List (List String)) : Prop where
  grown : Grown s.tree cs
  current : Position cs s.labels s.tree.current
  opened : s.cds.map (fun cd => (cd.label, cd.jump)) = opened program s.pos
  placed : ∀ cd rest, cd :: rest <:+ s.cds →
    cs[cd.phase]? = some (cd.label :: rest.map (·.label))
  begun : ∀ c, c ∈ cs ↔ c ∈ s.begun

/-- The calls before `n` begin chains of `cs` only. -/
def Known (program : List Op) (cs : List (List String)) (n : ℕ) : Prop :=
  ∀ j < n, ∀ l m e, program[j]? = some (.beginPhase l m e) →
    l :: (opened program j).map Prod.fst ∈ cs

section Tracked

variable {program : List Op} {s : Task} {cs : List (List String)}

theorem Tracked.labels (h : Tracked program s cs) :
    s.labels = (Recovery.opened program s.pos).map Prod.fst := by
  rw [← h.opened, List.map_map]
  rfl

theorem markBegun_spec (t : PhaseTree) (prevPhase : Option ℕ) (phase level : ℕ) :
    SameLinks t (markBegun t prevPhase phase level) ∧
      (markBegun t prevPhase phase level).current = t.current ∧
      ∀ q, (markBegun t prevPhase phase level).state q = t.state q := by
  unfold markBegun
  split
  · exact ⟨SameLinks.refl t, rfl, fun _ => rfl⟩
  split
  · exact ⟨SameLinks.refl t, rfl, fun _ => rfl⟩
  · refine ⟨SameLinks.modify t _ (keepsLinks_markSeqID fun n => n.left.map t.node), rfl,
      fun q => ?_⟩
    apply state_modify_other
    intro n
    unfold PhaseNode.markSeqID
    split <;> rfl

/-- A `Begin` that has received phase `i` for its chain. -/
theorem Tracked.begin (h : Tracked program s cs) {label : String} {m : PrvMedium} {e : ℤ}
    (hcall : program[s.pos]? = some (.beginPhase label m e)) {cs' : List (List String)}
    (hgrow : ∀ (i : ℕ) c, cs[i]? = some c → cs'[i]? = some c)
    (hmem : ∀ d, d ∈ cs' ↔ d = label :: s.labels ∨ d ∈ cs) {t : PhaseTree} (hg : Grown t cs')
    {i : ℕ} (hcur : t.current = some i) (hi : cs'[i]? = some (label :: s.labels)) (level : ℕ) :
    Tracked program { s with
      tree := markBegun t s.prevPhase i level
      prevPhase := some i
      cds := ⟨label, i, s.pos⟩ :: s.cds
      pos := s.pos + 1
      begun := (label :: s.labels) :: s.begun } cs' := by
  obtain ⟨hlinks, hcur', -⟩ := markBegun_spec t s.prevPhase i level
  rw [hcur] at hcur'
  constructor
  · apply hg.sameLinks hlinks
    intro q hq
    obtain rfl := Option.some.inj (hcur'.symm.trans hq)
    exact hg.tree.lt hi
  · show Position cs' (label :: s.labels) (markBegun t s.prevPhase i level).current
    rw [hcur']
    exact hi
  · rw [Recovery.opened, hcall, List.map_cons, h.opened]
  · intro cd rest hsuf
    obtain heq | hsuf := List.suffix_cons_iff.mp hsuf
    · obtain ⟨rfl, rfl⟩ := List.cons.inj heq
      exact hi
    · exact hgrow _ _ (h.placed cd rest hsuf)
  · intro c
    rw [hmem, h.begun, List.mem_cons]

/-- The node of the innermost open CD. -/
theorem Tracked.current_some (h : Tracked program s cs) {cd : OpenCD} {cds : List OpenCD}
    (hcds : s.cds = cd :: cds) : s.tree.current = some cd.phase ∧
      cs[cd.phase]? = some s.labels := by
  have hplaced := h.placed cd cds (hcds ▸ List.suffix_refl _)
  have hlabels : s.labels = cd.label :: cds.map (·.label) := by
    rw [Task.labels, hcds]
    rfl
  have hpos := h.current
  cases hcur : s.tree.current with
  | none =>
      rw [hcur, hlabels] at hpos
      cases hpos
  | some p =>
      rw [hcur, hlabels] at hpos
      rw [h.grown.tree.key_injective hpos hplaced rfl, hlabels]
      exact ⟨rfl, hplaced⟩

/-- A `Complete` whose tree has at most lost marks before `CompletePhase`. -/
theorem Tracked.complete (h : Tracked program s cs) {cd : OpenCD} {cds : List OpenCD}
    (hcds : s.cds = cd :: cds) (hcall : program[s.pos]? = some .completePhase) {t : PhaseTree}
    (hlinks : SameLinks s.tree t) (hcur : t.current = s.tree.current) (good : Bool)
    (failed : Option Failure) :
    ∃ t', t.completePhase good false = .ok t' ∧
      (∀ q, t'.state q = if good = false ∧ q = cd.phase then .reexecution else t.state q) ∧
      Tracked program { s with tree := t', failed := failed, cds := cds, pos := s.pos + 1 } cs := by
  obtain ⟨hcd, hphase⟩ := h.current_some hcds
  have hlabels : s.labels = cd.label :: cds.map (·.label) := by
    rw [Task.labels, hcds]
    rfl
  have hlt := h.grown.tree.lt hphase
  obtain ⟨t', hcomplete, hlinks', hcur', hstate⟩ :=
    completePhase_spec (hcur.trans hcd) (hlinks.length ▸ hlt) good false
  rw [hlinks.parent] at hcur'
  refine ⟨t', hcomplete, hstate, ?_, ?_, ?_, ?_, h.begun⟩
  · apply h.grown.sameLinks (hlinks.trans hlinks')
    intro q hq
    rw [hcur'] at hq
    exact h.grown.sound.parents _ q hq
  · show Position cs (cds.map (·.label)) t'.current
    rw [hcur']
    exact h.grown.tree.position_parent (hlabels ▸ hphase)
  · rw [Recovery.opened, hcall, ← h.opened, hcds]
    rfl
  · intro cd' rest hsuf
    apply h.placed
    rw [hcds]
    exact hsuf.trans (List.suffix_cons cd cds)

/-- The chain of an open CD and the calls that began it and the ones below it. -/
theorem Tracked.opened_suffix (h : Tracked program s cs) {cd : OpenCD} {rest : List OpenCD}
    (hsuf : cd :: rest <:+ s.cds) : (cd.label, cd.jump) :: rest.map (fun cd => (cd.label, cd.jump))
      <:+ Recovery.opened program s.pos := by
  rw [← h.opened]
  exact hsuf.map fun cd : OpenCD => (cd.label, cd.jump)

/-- A rollback goes back to an open CD and marks it and the ones above it. -/
theorem Tracked.rollback (h : Tracked program s cs) (cd : OpenCD) {rollbackLv : ℕ}
    (hlv : rollbackLv < s.cds.length) :
    ∃ target rest t', target :: rest <:+ s.cds ∧
      s.rollback cd rollbackLv = some { s with
        tree := t'
        failed := some (s.setFailure cd.phase)
        cds := rest
        pos := target.jump } ∧
      (∀ i d, cs[i]? = some d → (rest.map (·.label)).length < d.length → d <:+ s.labels →
        t'.state i = .reexecution) ∧
      (∀ i d, cs[i]? = some d → ¬ ((rest.map (·.label)).length < d.length ∧ d <:+ s.labels) →
        t'.state i = s.tree.state i) ∧
      Tracked program { s with
        tree := t'
        failed := some (s.setFailure cd.phase)
        cds := rest
        pos := target.jump } cs := by
  have hn : s.cds.length - rollbackLv - 1 < s.cds.length := by omega
  have hdrop : s.cds[s.cds.length - rollbackLv - 1] :: s.cds.drop (s.cds.length - rollbackLv) =
      s.cds.drop (s.cds.length - rollbackLv - 1) := by
    rw [List.drop_eq_getElem_cons hn]
    congr 2
    omega
  have hget := List.getElem?_eq_getElem hn
  generalize s.cds[s.cds.length - rollbackLv - 1] = target at hdrop hget
  generalize hrest : s.cds.drop (s.cds.length - rollbackLv) = rest at hdrop
  have hsuf : target :: rest <:+ s.cds := by
    rw [hdrop]
    exact List.drop_suffix _ _
  -- the labels of the CDs that are completed, and those of the ones that stay open
  have hsplit : s.labels =
      s.labels.take (s.cds.length - rollbackLv) ++ rest.map (·.label) := by
    rw [← hrest, List.map_drop]
    exact (List.take_append_drop _ _).symm
  have hlength : (s.labels.take (s.cds.length - rollbackLv)).length =
      s.cds.length - rollbackLv := by
    rw [List.length_take, Task.labels, List.length_map]
    omega
  obtain ⟨t', hrewind, hlinks, hpos, hmarked, hother⟩ :=
    h.grown.rewind rollbackLv _ (hsplit ▸ h.current)
  rw [hlength] at hrewind
  rw [← hsplit] at hmarked hother
  obtain ⟨-, hopened, -, -⟩ := Recovery.opened_suffix _ (h.opened_suffix hsuf)
  refine ⟨target, rest, t', hsuf, ?_, hmarked, hother, ?_, hpos, hopened.symm, ?_, h.begun⟩
  · rw [Task.rollback, hget]
    dsimp only
    rw [hrewind, hrest]
  · exact h.grown.sameLinks hlinks fun q hq => by
      have := Position.lt (h.grown.tree.sameLinks hlinks) hpos q hq
      rwa [hlinks.length] at this
  · intro cd' rest' hsuf'
    apply h.placed
    exact hsuf'.trans ((List.suffix_cons target rest).trans hsuf)

end Tracked

/-- Healthy state: no node is marked, and as long as the chains begun so far are told apart,
tree and open CDs agree. -/
structure Executing (env : Env) (program : List Op) (s : Task) : Prop where
  trap : s.trap = none
  failed : s.failed = none
  sound : Sound s.tree
  exec : ∀ q < s.tree.heap.length, s.tree.state q = .execution
  tracked : Distinct env.myTaskID s.begun →
    ∃ cs, Tracked program s cs ∧ Known program cs s.pos

/-- Recovery from the failure `f`: the task is before the call that failed, inside the outermost
CD that it has gone back to, which call `b` began with label `l`, and the marks are below it. -/
structure Reexecuting (env : Env) (program : List Op) (s : Task) (f : Failure)
    (cs : List (List String)) (l : String) (b : ℕ) (rest : List (String × ℕ)) : Prop where
  trap : s.trap = none
  failed : s.failed = some f
  distinct : Distinct env.myTaskID s.begun
  tracked : Tracked program s cs
  known : Known program cs f.call
  call : program[f.call]? = some .completePhase
  before : s.pos ≤ f.call
  phase : cs[f.failedPhase]? = some ((opened program f.call).map Prod.fst)
  base : (l, b) :: rest <:+ opened program f.call
  after : b ≤ s.pos
  marks : MarkedBelow s.tree cs (l :: rest.map Prod.fst) s.labels

/-- What guarded runs keep; a failed assertion that is none on a mark ends the run. -/
def Recovers (env : Env) (program : List Op) (s : Task) : Prop :=
  (s.trap.isSome ∧ Consistent s) ∨ Executing env program s ∨
    ∃ f cs l b rest, Reexecuting env program s f cs l b rest

theorem Executing.consistent {env : Env} {program : List Op} {s : Task}
    (h : Executing env program s) : Consistent s where
  healthy _ p hp hmark := by
    have hexec := h.exec p hp
    rw [PhaseTree.state, hmark] at hexec
    cases hexec
  finish := by simp [h.trap]
  new := by simp [h.trap]

theorem Recovers.consistent {env : Env} {program : List Op} {s : Task}
    (h : Recovers env program s) : Consistent s := by
  obtain ⟨-, h⟩ | h | ⟨f, cs, l, b, rest, h⟩ := h
  · exact h
  · exact h.consistent
  · exact ⟨by simp [h.failed], by simp [h.trap], by simp [h.trap]⟩

section Marks

variable {t t' : PhaseTree} {cs : List (List String)} {l : String} {rest labels : List String}
  (hbase : l :: rest <:+ labels)
  (hmarked : ∀ i d, cs[i]? = some d → rest.length < d.length → d <:+ labels →
    t'.state i = .reexecution)
  (hother : ∀ i d, cs[i]? = some d → ¬ (rest.length < d.length ∧ d <:+ labels) →
    t'.state i = t.state i)

include hbase hmarked hother

theorem markedBelow_target
    (honly : ∀ i d, cs[i]? = some d →
      t.state i = .execution ∨ t.state i = .reexecution ∧ l :: rest <:+ d) :
    MarkedBelow t' cs (l :: rest) rest where
  only i d hd := by
    by_cases hin : rest.length < d.length ∧ d <:+ labels
    · exact .inr ⟨hmarked i d hd hin.1 hin.2, List.suffix_of_suffix_length_le hbase hin.2 hin.1⟩
    · rw [hother i d hd hin]
      exact honly i d hd
  origin i hi := hmarked i _ hi (Nat.lt_succ_self _) hbase
  way i d _ hle hlt := by
    have := (hle.trans hlt).length_le
    rw [List.length_cons] at this
    omega

theorem markedBelow_outer {base : List String} (h : MarkedBelow t cs base labels)
    (hout : base <:+ l :: rest) : MarkedBelow t' cs base rest where
  only i d hd := by
    by_cases hin : rest.length < d.length ∧ d <:+ labels
    · exact .inr ⟨hmarked i d hd hin.1 hin.2,
        hout.trans (List.suffix_of_suffix_length_le hbase hin.2 hin.1)⟩
    · rw [hother i d hd hin]
      exact h.only i d hd
  origin i hi := by
    by_cases hin : rest.length < base.length ∧ base <:+ labels
    · exact hmarked i _ hi hin.1 hin.2
    · rw [hother i _ hi hin]
      exact h.origin i hi
  way i d hd hle hlt := by
    have hlen := hlt.length_le
    rw [hother i d hd fun hin => by omega]
    exact h.way i d hd hle ((hlt.trans (List.suffix_cons l rest)).trans hbase)

end Marks

section Executing

variable {env : Env} {program : List Op} {s : Task}

theorem Executing.begin (h : Executing env program s) {label : String} {m : PrvMedium} {e : ℤ}
    (hcall : program[s.pos]? = some (.beginPhase label m e)) :
    Recovers env program (s.beginCD env label m e) := by
  unfold Task.beginCD
  dsimp only
  cases hbegin : s.tree.beginPhase env (s.cds.length % 2 ^ 32) label m e with
  | error x =>
      obtain rfl := beginPhase_trap h.sound h.exec hbegin
      left
      exact ⟨rfl, ⟨h.consistent.healthy, by simp, by simp⟩⟩
  | ok r =>
      obtain ⟨phase, t⟩ := r
      right; left
      dsimp only
      have hsound := h.sound.beginPhase (Nat.mod_lt _ (by decide)) hbegin
      have hexec := beginPhase_executing h.sound h.exec hbegin
      obtain ⟨hlinks, hcur, hstate⟩ := markBegun_spec t s.prevPhase phase (s.cds.length % 2 ^ 32)
      refine ⟨h.trap, h.failed, ?_, ?_, ?_⟩
      · apply hsound.sameLinks hlinks
        rw [hcur]
        exact hsound.current
      · intro q hq
        rw [hstate]
        exact hexec q (hlinks.length ▸ hq)
      · intro hd
        obtain ⟨cs, htracked, hknown⟩ := h.tracked (hd.mono (List.subset_cons_self _ _))
        have hd' : Distinct env.myTaskID ((label :: s.labels) :: cs) :=
          hd.mono (List.cons_subset_cons _ fun c hc => (htracked.begun c).mp hc)
        have hexec' : ∀ i < cs.length, (s.tree.node i).state = .execution := by
          intro i hi
          exact h.exec i (htracked.grown.tree.length ▸ hi)
        obtain ⟨phase', t', cs', hbegin', hbegan⟩ := htracked.grown.tree.begin_distinct env
          (s.cds.length % 2 ^ 32) label m e hexec' htracked.current hd'
        obtain ⟨rfl, rfl⟩ := Prod.mk.inj (Except.ok.inj (hbegin.symm.trans hbegin'))
        have hgrow : ∀ (i : ℕ) c, cs[i]? = some c → cs'[i]? = some c := by
          intro i c hc
          obtain heq | heq := hbegan.grow
          · rw [heq]
            exact hc
          · rw [heq]
            exact getElem?_concat.mpr (.inl hc)
        have hgrown : Grown t cs' :=
          ⟨hbegan.tree, hsound, listed_beginPhase h.sound htracked.grown.listed hbegin⟩
        refine ⟨cs', htracked.begin hcall hgrow hbegan.mem hgrown hbegan.current hbegan.chain _,
          fun j hj l m' e' hj' => ?_⟩
        rw [hbegan.mem]
        obtain hj | rfl := Nat.lt_or_eq_of_le (Nat.le_of_lt_succ hj)
        · exact .inr (hknown j hj l m' e' hj')
        · obtain ⟨rfl, -, -⟩ := Op.beginPhase.inj (Option.some.inj (hcall.symm.trans hj'))
          rw [htracked.labels]
          exact .inl rfl

theorem Executing.of_complete {t t' : PhaseTree} {cd : OpenCD} {cds : List OpenCD}
    (htrap : s.trap = none) (hcds : s.cds = cd :: cds)
    (hcall : program[s.pos]? = some .completePhase) (hsound : Sound t)
    (hlinks : SameLinks s.tree t) (hcur : t.current = s.tree.current)
    (hexec : ∀ q < t.heap.length, t.state q = .execution)
    (htracked : Distinct env.myTaskID s.begun →
      ∃ cs, Tracked program s cs ∧ Known program cs s.pos)
    (hcomplete : t.completePhase true false = .ok t') :
    Executing env program { s with tree := t', failed := none, cds := cds, pos := s.pos + 1 } := by
  obtain ⟨p, hp⟩ : ∃ p, t.current = some p := by
    cases hp : t.current with
    | none =>
        rw [PhaseTree.completePhase, hp] at hcomplete
        cases hcomplete
    | some p => exact ⟨p, rfl⟩
  obtain ⟨t₁, hcomplete₁, hlinks₁, -, hstate₁⟩ :=
    completePhase_spec hp (hsound.current p hp) true false
  obtain rfl := Except.ok.inj (hcomplete.symm.trans hcomplete₁)
  refine ⟨htrap, rfl, hsound.completePhase hcomplete, ?_, ?_⟩
  · intro q hq
    rw [hstate₁, if_neg fun h => Bool.noConfusion h.1]
    exact hexec q (hlinks₁.length ▸ hq)
  · intro hd
    obtain ⟨cs, hcs, hknown⟩ := htracked hd
    obtain ⟨t₂, hcomplete₂, -, hcs₂⟩ := hcs.complete hcds hcall hlinks hcur true none
    obtain rfl := Except.ok.inj (hcomplete.symm.trans hcomplete₂)
    refine ⟨cs, hcs₂, fun j hj l m e hj' => ?_⟩
    obtain hj | rfl := Nat.lt_or_eq_of_le (Nat.le_of_lt_succ hj)
    · exact hknown j hj l m e hj'
    · rw [hcall] at hj'
      cases hj'

theorem Executing.complete (h : Executing env program s) {cd : OpenCD} {cds : List OpenCD}
    (hcds : s.cds = cd :: cds) (hcall : program[s.pos]? = some .completePhase) :
    Recovers env program (s.completeCD cd cds) := by
  have hreach : s.reachFailure cd.phase = .ok (s.tree, none) := by
    rw [Task.reachFailure, h.failed]
  cases hcomplete : s.tree.completePhase true false with
  | error x =>
      left
      rw [completeCD_trap hreach hcomplete]
      rw [PhaseTree.completePhase] at hcomplete
      split at hcomplete
      · obtain rfl := Except.error.inj hcomplete
        exact ⟨rfl, ⟨h.consistent.healthy, by simp, by simp⟩⟩
      · cases hcomplete
  | ok t =>
      right; left
      rw [completeCD_ok hreach hcomplete]
      exact Executing.of_complete h.trap hcds hcall h.sound (SameLinks.refl _) rfl h.exec h.tracked
        hcomplete

/-- A failure in healthy state: the task goes back to an open CD. -/
theorem Executing.rollback (h : Executing env program s) (hd : Distinct env.myTaskID s.begun)
    {cd : OpenCD} {cds : List OpenCD} (hcds : s.cds = cd :: cds)
    (hcall : program[s.pos]? = some .completePhase) {rollbackLv : ℕ}
    (hlv : rollbackLv < s.cds.length) :
    ∃ s' cs l rest, s.rollback cd rollbackLv = some s' ∧
      Reexecuting env program s' (s.setFailure cd.phase) cs l s'.pos rest := by
  obtain ⟨cs, htracked, hknown⟩ := h.tracked hd
  obtain ⟨target, rest, t', hsuf, hback, hmarked, hother, htracked'⟩ := htracked.rollback cd hlv
  obtain ⟨-, hphase⟩ := htracked.current_some hcds
  have hopened := htracked.opened_suffix hsuf
  obtain ⟨hjump, hrest, -, -⟩ := opened_suffix _ hopened
  have hset : (s.setFailure cd.phase).call = s.pos ∧
      (s.setFailure cd.phase).failedPhase = cd.phase := by
    rw [Task.setFailure, h.failed]
    exact ⟨rfl, rfl⟩
  refine ⟨_, cs, target.label, rest.map fun cd => (cd.label, cd.jump), hback, h.trap, rfl, hd,
    htracked', ?_, ?_, ?_, ?_, ?_, Nat.le_refl _, ?_⟩
  · rw [hset.1]
    exact hknown
  · rw [hset.1]
    exact hcall
  · rw [hset.1]
    exact Nat.le_of_lt hjump
  · rw [hset.1, hset.2, ← htracked.labels]
    exact hphase
  · rw [hset.1]
    exact hopened
  · rw [List.map_map]
    apply markedBelow_target (hsuf.map (·.label)) hmarked hother
    intro i d hd
    exact .inl (h.exec i (htracked.grown.tree.lt hd))

end Executing

section Reexecuting

variable {env : Env} {program : List Op} {s : Task} {f : Failure} {cs : List (List String)}
  {l : String} {b : ℕ} {rest : List (String × ℕ)}

/-- Inside the outermost CD its chain is a suffix of the labels of the open CDs. -/
theorem Reexecuting.inside (h : Reexecuting env program s f cs l b rest) (hb : b < s.pos) :
    (l, b) :: rest <:+ opened program s.pos ∧ l :: rest.map Prod.fst <:+ s.labels := by
  have hopen := (opened_suffix _ h.base).2.2.2 s.pos hb h.before
  refine ⟨hopen, ?_⟩
  rw [h.tracked.labels]
  exact hopen.map Prod.fst

theorem Reexecuting.base_call (h : Reexecuting env program s f cs l b rest) :
    b < f.call ∧ opened program b = rest ∧ ∃ m e, program[b]? = some (.beginPhase l m e) :=
  have hbase := opened_suffix _ h.base
  ⟨hbase.1, hbase.2.1, hbase.2.2.1⟩

theorem Reexecuting.past_base (h : Reexecuting env program s f cs l b rest)
    (hcall : program[s.pos]? = some .completePhase) : b < s.pos := by
  apply Nat.lt_of_le_of_ne h.after
  rintro rfl
  obtain ⟨-, -, m, e, hbegin⟩ := h.base_call
  rw [hcall] at hbegin
  cases hbegin

theorem Reexecuting.begins (h : Reexecuting env program s f cs l b rest) {label : String}
    {m : PrvMedium} {e : ℤ} (hcall : program[s.pos]? = some (.beginPhase label m e)) :
    s.pos < f.call ∧ label :: s.labels ∈ cs := by
  have hpos : s.pos < f.call := by
    apply Nat.lt_of_le_of_ne h.before
    intro heq
    rw [heq, h.call] at hcall
    cases hcall
  refine ⟨hpos, ?_⟩
  rw [h.tracked.labels]
  exact h.known s.pos hpos label m e hcall

theorem Reexecuting.begin (h : Reexecuting env program s f cs l b rest) {label : String}
    {m : PrvMedium} {e : ℤ} (hcall : program[s.pos]? = some (.beginPhase label m e)) :
    Reexecuting env program (s.beginCD env label m e) f cs l b rest := by
  obtain ⟨hpos, hmem⟩ := h.begins hcall
  have hbegun : label :: s.labels ∈ s.begun := (h.tracked.begun _).mp hmem
  obtain ⟨i, t, hbegin, hi, hlinks, hcur, hother, hself, hinherit⟩ :=
    h.tracked.grown.begin_known h.tracked.current hmem env
      (fun htask => h.distinct.leftover htask _ hbegun) (s.cds.length % 2 ^ 32) m e
  obtain ⟨-, -, hstate⟩ := markBegun_spec t s.prevPhase i (s.cds.length % 2 ^ 32)
  have hgrown : Grown t cs := by
    apply h.tracked.grown.sameLinks hlinks
    intro q hq
    obtain rfl := Option.some.inj (hcur.symm.trans hq)
    exact h.tracked.grown.tree.lt hi
  have hsame : ∀ d, d ∈ cs ↔ d = label :: s.labels ∨ d ∈ cs := by
    intro d
    constructor
    · exact .inr
    · rintro (rfl | hd)
      · exact hmem
      · exact hd
  rw [beginCD_ok hbegin]
  refine ⟨h.trap, h.failed, h.distinct.cons_of_mem hbegun,
    h.tracked.begin hcall (fun _ _ hc => hc) hsame hgrown hcur hi _, h.known, h.call, hpos, h.phase,
    h.base, Nat.le_succ_of_le h.after, ?_⟩
  show MarkedBelow (markBegun t s.prevPhase i (s.cds.length % 2 ^ 32)) cs (l :: rest.map Prod.fst)
    (label :: s.labels)
  -- the new current CD is the outermost one, or inside of it
  have hwhere : label :: s.labels = l :: rest.map Prod.fst ∨
      l :: rest.map Prod.fst <:+ s.labels := by
    obtain heq | hlt := Nat.eq_or_lt_of_le h.after
    · obtain ⟨-, hrest, m', e', hcall'⟩ := h.base_call
      subst heq
      obtain ⟨rfl, -, -⟩ := Op.beginPhase.inj (Option.some.inj (hcall.symm.trans hcall'))
      left
      rw [h.tracked.labels, hrest]
    · exact .inr (h.inside hlt).2
  have hmarks := h.marks.enter h.tracked.grown.tree hi hwhere hother hself fun hin => by
    have hposition := h.tracked.current
    cases hp : s.tree.current with
    | none =>
        rw [hp] at hposition
        have hnil : s.labels = [] := hposition
        rw [hnil] at hin
        exact absurd (List.suffix_nil.mp hin) (List.cons_ne_nil _ _)
    | some p =>
        rw [hp] at hposition
        exact hinherit p hp (h.marks.way p _ hposition hin (List.suffix_refl _))
  exact hmarks.congr hstate (List.suffix_refl _)

theorem Reexecuting.pass (h : Reexecuting env program s f cs l b rest) {cd : OpenCD}
    {cds : List OpenCD} (hcds : s.cds = cd :: cds) (hcall : program[s.pos]? = some .completePhase)
    (hpos : s.pos < f.call) (hb : b < s.pos)
    (hreach : s.reachFailure cd.phase = .ok (s.tree, some f)) :
    Reexecuting env program (s.completeCD cd cds) f cs l b rest := by
  obtain ⟨hcur, hphase⟩ := h.tracked.current_some hcds
  obtain ⟨t, hcomplete, hstate, htracked⟩ :=
    h.tracked.complete hcds hcall (SameLinks.refl _) rfl false (some f)
  rw [completeCD_ok hreach hcomplete]
  refine ⟨h.trap, rfl, h.distinct, htracked, h.known, h.call, hpos, h.phase, h.base,
    Nat.le_succ_of_le h.after, ?_⟩
  -- the node that is completed is marked already
  have hsame : ∀ q, t.state q = s.tree.state q := by
    intro q
    rw [hstate]
    split
    · rename_i hq
      rw [hq.2]
      exact (h.marks.way cd.phase _ hphase (h.inside hb).2 (List.suffix_refl _)).symm
    · rfl
  have hlabels : s.labels = cd.label :: cds.map (·.label) := by
    rw [Task.labels, hcds]
    rfl
  apply h.marks.congr hsame
  rw [hlabels]
  exact List.suffix_cons _ _

theorem Reexecuting.heal (h : Reexecuting env program s f cs l b rest) {cd : OpenCD}
    {cds : List OpenCD} (hcds : s.cds = cd :: cds) (hcall : program[s.pos]? = some .completePhase)
    (hb : b < s.pos) (hphase : f.failedPhase = cd.phase)
    (hseq : f.failedSeqID = (s.tree.node cd.phase).seqEnd) :
    Executing env program (s.completeCD cd cds) := by
  obtain ⟨hcur, hcd⟩ := h.tracked.current_some hcds
  obtain ⟨ls, hls⟩ := (h.inside hb).2
  obtain ⟨hbcall, hrest, m, e, hbegin⟩ := h.base_call
  obtain ⟨o, ho⟩ : ∃ o, cs[o]? = some (l :: rest.map Prod.fst) := by
    rw [← hrest]
    exact List.mem_iff_getElem?.mp (h.known b hbcall l m e hbegin)
  have hfinish : s.tree.finishRecovery cd.phase cd.phase =
      .ok (s.tree.resetToExec s.tree.heap.length o) :=
    h.marks.finishRecovery h.tracked.grown ho ls (Nat.le_refl _) (hls ▸ hcd)
      (hls ▸ List.suffix_refl _)
  have hreach : s.reachFailure cd.phase =
      .ok (s.tree.resetToExec s.tree.heap.length o, none) := by
    rw [reachFailure_failed h.failed hcur, if_pos hphase, if_pos hseq, hfinish]
  have hclear := cleared_resetToExec s.tree.heap.length s.tree o
  obtain ⟨t, hcomplete, -, -⟩ :=
    h.tracked.complete hcds hcall hclear.links hclear.current true none
  rw [completeCD_ok hreach hcomplete]
  refine Executing.of_complete h.trap hcds hcall ?_ hclear.links hclear.current ?_ ?_ hcomplete
  · apply h.tracked.grown.sound.sameLinks hclear.links
    rw [hclear.current]
    exact h.tracked.grown.sound.current
  · intro q hq
    apply h.marks.finished h.tracked.grown ho
    rw [← h.tracked.grown.tree.length, ← hclear.links.length]
    exact hq
  · intro _
    exact ⟨cs, h.tracked, fun j hj => h.known j (Nat.lt_of_lt_of_le hj h.before)⟩

theorem Reexecuting.failed_phase_iff (h : Reexecuting env program s f cs l b rest) {cd : OpenCD}
    {cds : List OpenCD} (hcds : s.cds = cd :: cds) :
    f.failedPhase = cd.phase ↔ s.labels = (opened program f.call).map Prod.fst := by
  obtain ⟨-, hcd⟩ := h.tracked.current_some hcds
  constructor
  · intro heq
    have hphase := h.phase
    rw [heq, hcd] at hphase
    exact Option.some.inj hphase
  · intro heq
    exact h.tracked.grown.tree.key_injective h.phase hcd (congrArg keyOf heq.symm)

theorem Reexecuting.complete (h : Reexecuting env program s f cs l b rest) {cd : OpenCD}
    {cds : List OpenCD} (hcds : s.cds = cd :: cds) (hcall : program[s.pos]? = some .completePhase)
    (hguard : Recognized env s .ok) : Recovers env program (s.completeCD cd cds) := by
  obtain ⟨hcur, -⟩ := h.tracked.current_some hcds
  have hb := h.past_base hcall
  have hreach := reachFailure_failed h.failed hcur cd.phase
  by_cases hphase : f.failedPhase = cd.phase
  · rw [if_pos hphase] at hreach
    by_cases hseq : f.failedSeqID = (s.tree.node cd.phase).seqEnd
    · exact .inr (.inl (h.heal hcds hcall hb hphase hseq))
    · rw [if_neg hseq] at hreach
      have hpos : s.pos < f.call := by
        apply Nat.lt_of_le_of_ne h.before
        intro heq
        exact hseq (hguard f cd.phase h.failed heq.symm hcur).symm
      by_cases hgt : f.failedSeqID > (s.tree.node cd.phase).seqEnd
      · rw [if_pos hgt] at hreach
        exact .inr (.inr ⟨f, cs, l, b, rest, h.pass hcds hcall hpos hb hreach⟩)
      · rw [if_neg hgt] at hreach
        rw [completeCD_error hreach]
        exact .inl ⟨rfl, ⟨by simp [h.failed], by simp, by simp⟩⟩
  · rw [if_neg hphase] at hreach
    have hpos : s.pos < f.call := by
      apply Nat.lt_of_le_of_ne h.before
      intro heq
      apply hphase
      rw [h.failed_phase_iff hcds, ← heq]
      exact h.tracked.labels
    exact .inr (.inr ⟨f, cs, l, b, rest, h.pass hcds hcall hpos hb hreach⟩)

/-- Another failure before the call that failed: the record stays, and the outermost CD is the
outer one of two. -/
theorem Reexecuting.rollback (h : Reexecuting env program s f cs l b rest) {cd : OpenCD}
    (hcall : program[s.pos]? = some .completePhase) {rollbackLv : ℕ}
    (hlv : rollbackLv < s.cds.length) :
    ∃ s', s.rollback cd rollbackLv = some s' ∧ Recovers env program s' := by
  obtain ⟨target, back, t', hsuf, hback, hmarked, hother, htracked'⟩ :=
    h.tracked.rollback cd hlv
  have hset : s.setFailure cd.phase = f := by rw [Task.setFailure, h.failed]
  rw [hset] at hback htracked'
  have hb := h.past_base hcall
  have htarget := h.tracked.opened_suffix hsuf
  obtain ⟨hjump, hbackOpen, -, -⟩ := opened_suffix _ htarget
  have hpos : target.jump ≤ f.call := Nat.le_trans (Nat.le_of_lt hjump) h.before
  have hbase := hsuf.map (·.label)
  have hlabels : (back.map fun cd => (cd.label, cd.jump)).map Prod.fst = back.map (·.label) := by
    rw [List.map_map]
    rfl
  refine ⟨_, hback, .inr (.inr ?_)⟩
  obtain hin | hout := List.suffix_or_suffix_of_suffix (h.inside hb).1 htarget
  · -- it goes back to a CD inside the outermost one
    have hchain := hin.map Prod.fst
    rw [List.map_cons, List.map_cons, hlabels] at hchain
    refine ⟨f, cs, l, b, rest, h.trap, rfl, h.distinct, htracked', h.known, h.call, hpos, h.phase,
      h.base, ?_, markedBelow_outer hbase hmarked hother h.marks hchain⟩
    obtain heq | hin := List.suffix_cons_iff.mp hin
    · rw [(Prod.mk.inj (List.cons.inj heq).1).2]
    · rw [← hbackOpen] at hin
      exact Nat.le_of_lt (opened_suffix _ hin).1
  · -- it goes back further
    have hchain := hout.map Prod.fst
    rw [List.map_cons, List.map_cons, hlabels] at hchain
    have honly : ∀ i d, cs[i]? = some d → s.tree.state i = .execution ∨
        s.tree.state i = .reexecution ∧ target.label :: back.map (·.label) <:+ d := by
      intro i d hd
      obtain hexec | ⟨hmark, hsuf⟩ := h.marks.only i d hd
      · exact .inl hexec
      · exact .inr ⟨hmark, hchain.trans hsuf⟩
    refine ⟨f, cs, target.label, target.jump, back.map fun cd => (cd.label, cd.jump), h.trap, rfl,
      h.distinct, htracked', h.known, h.call, hpos, h.phase, hout.trans h.base, Nat.le_refl _, ?_⟩
    rw [hlabels]
    exact markedBelow_target hbase hmarked hother honly

end Reexecuting

/-- The step lemma. -/
theorem Recovers.step {env : Env} {program : List Op} {s s' : Task} {e : Event}
    (h : Recovers env program s) (hguard : Recognized env s e)
    (hstep : s.step env program e = some s') : Recovers env program s' := by
  unfold Task.step at hstep
  split at hstep
  · cases hstep
  rename_i htrap
  obtain ⟨htrapped, -⟩ | h := h
  · exact absurd htrapped htrap
  cases hcall : program[s.pos]? with
  | none =>
      rw [hcall] at hstep
      cases hstep
  | some op =>
      rw [hcall] at hstep
      cases op with
      | beginPhase label m x =>
          cases e with
          | ok =>
              obtain rfl := Option.some.inj hstep
              obtain h | ⟨f, cs, l, b, rest, h⟩ := h
              · exact h.begin hcall
              · exact .inr (.inr ⟨f, cs, l, b, rest, h.begin hcall⟩)
          | fail rollbackLv => cases hstep
      | completePhase =>
          dsimp only at hstep
          cases hcds : s.cds with
          | nil =>
              rw [hcds] at hstep
              cases hstep
          | cons cd cds =>
              rw [hcds] at hstep
              cases e with
              | ok =>
                  obtain rfl := Option.some.inj hstep
                  obtain h | ⟨f, cs, l, b, rest, h⟩ := h
                  · exact h.complete hcds hcall
                  · exact h.complete hcds hcall hguard
              | fail rollbackLv =>
                  dsimp only at hstep
                  split at hstep
                  · rename_i hlv
                    rw [← hcds] at hlv
                    obtain ⟨s₁, hback, h₁⟩ : ∃ s₁, s.rollback cd rollbackLv = some s₁ ∧
                        Recovers env program s₁ := by
                      obtain h | ⟨f, cs, l, b, rest, h⟩ := h
                      · obtain ⟨s₁, cs, l, rest, hback, h₁⟩ := h.rollback hguard hcds hcall hlv
                        exact ⟨s₁, hback, .inr (.inr ⟨_, cs, l, s₁.pos, rest, h₁⟩)⟩
                      · exact h.rollback hcall hlv
                    obtain rfl := Option.some.inj (hstep.symm.trans hback)
                    exact h₁
                  · cases hstep

theorem recovers_init (env : Env) (program : List Op) : Recovers env program {} := by
  right; left
  refine ⟨rfl, rfl, sound_empty, fun q hq => absurd hq (Nat.not_lt_zero q), fun _ => ⟨[], ?_, ?_⟩⟩
  · refine ⟨⟨Represents.empty, sound_empty, ?_⟩, rfl, rfl, ?_, by simp⟩
    · intro i j hij
      cases hij
    · intro cd rest hsuf
      exact absurd (List.suffix_nil.mp hsuf) (List.cons_ne_nil _ _)
  · intro j hj
    exact absurd hj (Nat.not_lt_zero j)

/-- In runs in which the call that failed is recognized when it completes again, and errors are
detected only while the phases are told apart, marks and failure record agree. -/
theorem consistent_of_recognized (env : Env) (program : List Op) (events : List Event)
    (hguard : Guarded (Task.step env program) (Recognized env) {} events) :
    Always (Task.step env program) Consistent {} events := by
  have hstep : ∀ s e s', Recovers env program s → Recognized env s e →
      s.step env program e = some s' → Recovers env program s' :=
    fun _ _ _ h hg hs => h.step hg hs
  have halways := always_of_guarded hstep events {} (recovers_init env program) hguard
  exact Always.mono (fun (s : Task) (h : Recovers env program s) => h.consistent) events
    ({} : Task) halways

/-- `Root` with two iterations of `A` and one of `B`. -/
def twoPhases : List Op :=
  [.beginPhase "Root" .localMemory 1, .beginPhase "A" .localMemory 1, .completePhase,
    .beginPhase "A" .localMemory 1, .completePhase, .beginPhase "B" .localMemory 1,
    .completePhase, .completePhase]

theorem first_iteration_recognized :
    Always (Task.step {} twoPhases) Consistent {}
      [.ok, .ok, .fail 0, .ok, .ok, .fail 1, .ok, .ok, .ok, .ok, .ok, .ok, .ok] :=
  consistent_of_recognized {} twoPhases _ (by decide)

theorem new_phase_below_marked :
    ¬ Always (Task.step {} twoPhases) Consistent {}
      [.ok, .ok, .ok, .ok, .fail 0, .ok, .ok, .ok, .ok, .ok, .ok] := by
  intro h
  have htrap : (run (Task.step {} twoPhases) {}
      [.ok, .ok, .ok, .ok, .fail 0, .ok, .ok, .ok, .ok, .ok, .ok]).map (·.trap) =
        some (some .newPhase) := by
    decide
  obtain ⟨s, hrun, hs⟩ := Option.map_eq_some_iff.mp htrap
  exact (Always.last _ _ s h hrun).new hs

end CDRuntime.Recovery
