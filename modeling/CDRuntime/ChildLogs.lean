import CDRuntime.CommLogPack
import CDRuntime.PhaseRewind

namespace CDRuntime.ChildLogs
open Phase CommLog Runs

def noLabel : String := ""

/-- The child on the path below the parent. The last three fields say what was asked for: the id
that `Create` gave it, the label of its last `Begin` and its completions since `Create`. -/
structure Child where
  name : String
  cdId : CDID
  origin : CDID
  label : String
  count : ℕ
  deriving DecidableEq, Repr

/-- A `Complete` of a child, with the log it pushed. -/
structure Completion where
  id : CDID
  origin : CDID
  label : String
  count : ℕ
  record : Option CommLog
  deriving DecidableEq, Repr

/-- A relaxed parent during one execution, with children that are created, begun, completed and
destroyed one at a time and push their logs into `child_log_` of the parent. -/
structure Family where
  scopes : Scopes
  /-- `access_store_`: the id that the object was constructed with, by name below the parent. -/
  store : List (String × CDID)
  child : Option Child
  log : CommLog
  /-- The ids of the children at their `Begin`, and their completions, the oldest first. -/
  begun : List CDID
  done : List Completion

inductive Op where
  | create (name : String) (node : NodeID) (rankInLevel size : UInt32)
  | beginCD (label : String) (medium : PrvMedium) (errorVec : ℤ)
  /-- A phase inside the child. -/
  | inner (op : Phase.Op)
  | completeCD (log : CommLog)
  | destroyCD

/-- `CDNameT(parent, num_children, color, name)` and `CDID(name, node)`. -/
def newId (level : ℕ) (node : NodeID) (rankInLevel size : UInt32) : CDID where
  cdName := ⟨.ofNat level, .ofNat (2 ^ 32 - 1), rankInLevel, size⟩
  nodeId := node
  domainId := 0
  objectId := 0
  sequentialId := 0

/-- `Create`: a stored object keeps its id, and `InternalInitialize` sets the sequential id to 0.
The phase is overwritten by the next `Begin`, and the object id is not compared. -/
def createChild (store : List (String × CDID)) (key : String) (id : CDID) :
    CDID × List (String × CDID) :=
  match store.lookup key with
  | some old => ({ old with sequentialId := 0 }, store)
  | none => (id, (key, id) :: store)

/-- `cd_id_.cd_name_.phase_ = BeginPhase(level, label_)` -/
def setPhase (id : CDID) (phase : ℕ) : CDID :=
  { id with cdName := { id.cdName with phase := .ofNat phase } }

def effectiveLabel (name label : String) : String := if label = noLabel then name else label

def pushLogs (own parent : CommLog) : Option CommLog :=
  if own.newLogGenerated then do
    let (_, parent) ← packAndPushLogs own parent
    some { parent with
      newLogGenerated := true
      commLogMode := if own.commLogMode = .generateLog then .generateLog else parent.commLogMode }
  else some parent

/-- The log of the child, with the id that `GetCDID()` returns. -/
def ownLog (c : Child) (log : CommLog) : CommLog :=
  { log with myCd := { log.myCd with cdId := c.cdId } }

def recordOf (own : CommLog) : Option CommLog := if own.newLogGenerated then some own else none

/-- The step of the phases, which ends the run when an assertion fails. -/
def phaseStep (env : Env) (s : Scopes) (op : Phase.Op) : Option Scopes := do
  let s ← s.step env op
  if s.trap = none then some s else none

/-- A phase inside the child, whose own phase is the one after the first `depth`. -/
def insideChild (depth : ℕ) (s : Scopes) : Phase.Op → Bool
  | .beginPhase _ _ _ => depth < s.frames.length
  | .completePhase => depth + 1 < s.frames.length

/-- One call in the first execution of a parent that has `depth` phases open, its own included. -/
def step (env : Env) (depth : ℕ) (st : Family) : Op → Option Family
  | .create name node rankInLevel size =>
      if st.child = none ∧ st.scopes.frames.length = depth then
        let key := st.scopes.tree.getPhasePathOf (st.scopes.tree.current.getD 0) name
        let (id, store) := createChild st.store key (newId depth node rankInLevel size)
        some { st with store, child := some ⟨name, id, id, "", 0⟩ }
      else none
  | .beginCD label medium errorVec => do
      let c ← st.child
      if st.scopes.frames.length = depth then
        let label := effectiveLabel c.name label
        let scopes ← phaseStep env st.scopes (.beginPhase label medium errorVec)
        let id := setPhase c.cdId ((scopes.frames.head?.map (·.phase)).getD 0)
        some { st with scopes, child := some { c with cdId := id, label }, begun := st.begun ++ [id] }
      else none
  | .inner op =>
      if insideChild depth st.scopes op then do
        let scopes ← phaseStep env st.scopes op
        some { st with scopes }
      else none
  | .completeCD log => do
      let c ← st.child
      if st.scopes.frames.length = depth + 1 then
        let own := ownLog c log
        let log ← pushLogs own st.log
        let scopes ← phaseStep env st.scopes .completePhase
        some { st with
          scopes
          log
          child := some { c with
            cdId := { c.cdId with sequentialId := c.cdId.sequentialId + 1 }, count := c.count + 1 }
          done := st.done ++ [⟨c.cdId, c.origin, c.label, c.count, recordOf own⟩] }
      else none
  | .destroyCD =>
      if st.child ≠ none ∧ st.scopes.frames.length = depth then some { st with child := none }
      else none

structure Replay where
  tree : PhaseTree
  labels : List String
  store : List (String × CDID)
  child : Option Child
  begun : List CDID

def restart (env : Env) (depth : ℕ) (medium : PrvMedium) (errorVec : ℤ) (st : Family) :
    Except Trap Replay := do
  let labels := st.scopes.labels.drop (st.scopes.labels.length - depth)
  let t ← st.scopes.tree.rewind (depth - 1) (st.scopes.labels.length - (depth - 1))
  let (_, t) ← t.beginPhase env ((depth - 1) % 2 ^ 32) (labels.headD "") medium errorVec
  .ok ⟨t, labels, st.store, none, []⟩

def revisit (env : Env) (good : Bool) (r : Replay) : Phase.Op → Option (ℕ × Replay)
  | .beginPhase label medium errorVec =>
      match r.tree.beginPhase env (r.labels.length % 2 ^ 32) label medium errorVec with
      | .ok (phase, tree) => some (phase, { r with tree, labels := label :: r.labels })
      | .error _ => none
  | .completePhase =>
      match r.tree.completePhase good false with
      | .ok tree => some (0, { r with tree, labels := r.labels.tail })
      | .error _ => none

/-- The same call in the replay, as far as it concerns the ids. -/
def replayStep (env : Env) (depth : ℕ) (r : Replay) : Op × Bool → Option Replay
  | (.create name node rankInLevel size, _) =>
      let key := r.tree.getPhasePathOf (r.tree.current.getD 0) name
      let (id, store) := createChild r.store key (newId depth node rankInLevel size)
      some { r with store, child := some ⟨name, id, id, "", 0⟩ }
  | (.beginCD label medium errorVec, good) => do
      let c ← r.child
      let label := effectiveLabel c.name label
      let (phase, r) ← revisit env good r (.beginPhase label medium errorVec)
      let id := setPhase c.cdId phase
      some { r with child := some { c with cdId := id, label }, begun := r.begun ++ [id] }
  | (.inner op, good) => do
      let (_, r) ← revisit env good r op
      some r
  | (.completeCD _, good) => do
      let c ← r.child
      let (_, r) ← revisit env good r .completePhase
      some { r with child := some { c with
        cdId := { c.cdId with sequentialId := c.cdId.sequentialId + 1 }, count := c.count + 1 } }
  | (.destroyCD, _) => some { r with child := none }

def records (done : List Completion) : List CommLog := done.filterMap (·.record)

def offset (st : Family) (i : ℕ) : ℕ := ((records (st.done.take i)).flatMap packedRecord).length

/-- The ids in `child_log_` are distinct, and in a replay the search at each `Begin` finds what
the completion that belongs to it has pushed. -/
structure Identifies (env : Env) (depth : ℕ) (ops : List Op) (st : Family) : Prop where
  distinct : (st.done.filter (·.record.isSome)).Pairwise fun a b => a.id.same b.id = false
  replays : ∀ medium errorVec (calls : List (Op × Bool)), calls.map Prod.fst = ops →
    ∃ r₀ r, restart env depth medium errorVec st = .ok r₀ ∧
      run (replayStep env depth) r₀ calls = some r ∧
      ∀ i id d, r.begun[i]? = some id → st.done[i]? = some d → d.record.isSome →
        findChildLogs st.log id = some (.ok, some (offset st i))

/-- Two completions of children with the same node, rank and size, begun under the same label
after the same number of completions since the creation. -/
def Alike (a b : Completion) : Prop :=
  a.origin.nodeId.same b.origin.nodeId = true ∧ a.origin.cdName.level = b.origin.cdName.level ∧
    a.origin.cdName.rankInLevel = b.origin.cdName.rankInLevel ∧
    a.origin.cdName.size = b.origin.cdName.size ∧ a.label = b.label ∧
    a.count % 2 ^ 32 = b.count % 2 ^ 32

/-- No two completions that push are alike. -/
def Apart (st : Family) : Prop :=
  (st.done.filter (·.record.isSome)).Pairwise fun a b => ¬ Alike a b

structure Start (env : Env) (depth : ℕ) (st : Family) : Prop where
  scopes : ∃ ops, run (Scopes.step env) {} ops = some st.scopes
  trap : st.scopes.trap = none
  frames : st.scopes.frames.length = depth
  pos : 0 < depth
  child : st.child = none
  log : Pushed st.log []
  unit : 0 < st.log.childLogSizeUnit
  begun : st.begun = []
  done : st.done = []

def LogsPackable (ops : List Op) : Prop := ∀ log, Op.completeCD log ∈ ops → Packable log

section Phases

variable {env : Env} {s s' : Scopes} {cs : List (List String)}

/-- A call that trips no assertion appends to the list of begun phases at most its own. -/
theorem phaseStep_begin {label : String} {medium : PrvMedium} {errorVec : ℤ}
    (hstep : phaseStep env s (.beginPhase label medium errorVec) = some s') :
    ∃ phase, s'.frames = ⟨label, phase, s.tree.current⟩ :: s.frames ∧
      s'.begun = ⟨label :: s.labels, phase, s.frames.head?.map (·.phase)⟩ :: s.begun ∧
      s.step env (.beginPhase label medium errorVec) = some s' ∧ s'.trap = none := by
  obtain ⟨s₁, hs, hrest⟩ := Option.bind_eq_some_iff.mp hstep
  split_ifs at hrest with htrap
  obtain rfl := Option.some.inj hrest
  unfold Scopes.step at hs
  dsimp only at hs
  split_ifs at hs with ht
  cases hb : s.tree.beginPhase env (s.frames.length % 2 ^ 32) label medium errorVec with
  | error e =>
      rw [hb] at hs
      obtain rfl := Option.some.inj hs
      cases htrap
  | ok p =>
      obtain ⟨phase, t⟩ := p
      rw [hb] at hs
      obtain rfl := Option.some.inj hs
      refine ⟨phase, rfl, rfl, ?_, htrap⟩
      simp only [Scopes.step, ht, hb, Bool.false_eq_true, if_false]

theorem phaseStep_complete (hstep : phaseStep env s .completePhase = some s') :
    (∃ f, s.frames = f :: s'.frames) ∧ s'.begun = s.begun ∧
      s.step env .completePhase = some s' ∧ s'.trap = none := by
  obtain ⟨s₁, hs, hrest⟩ := Option.bind_eq_some_iff.mp hstep
  split_ifs at hrest with htrap
  obtain rfl := Option.some.inj hrest
  have hs' := hs
  unfold Scopes.step at hs
  dsimp only at hs
  split_ifs at hs with ht
  cases hf : s.frames with
  | nil =>
      rw [hf] at hs
      cases hs
  | cons f fs =>
      rw [hf] at hs
      cases hc : s.tree.completePhase true false with
      | error e =>
          rw [hc] at hs
          obtain rfl := Option.some.inj hs
          cases htrap
      | ok t =>
          rw [hc] at hs
          obtain rfl := Option.some.inj hs
          exact ⟨⟨f, rfl⟩, rfl, hs', htrap⟩

theorem healthy_phaseStep (h : Healthy env.myTaskID cs s) {op : Phase.Op}
    (hstep : phaseStep env s op = some s')
    (hd : Distinct env.myTaskID (s'.begun.map (·.chain))) :
    ∃ cs', Healthy env.myTaskID cs' s' := by
  cases op with
  | beginPhase label medium errorVec =>
      obtain ⟨phase, -, hbegun, hs, -⟩ := phaseStep_begin hstep
      rw [hbegun, List.map_cons] at hd
      obtain ⟨s₁, cs', hs₁, hh, -, -⟩ := h.step_begin medium errorVec hd
      exact ⟨cs', Option.some.inj (hs₁.symm.trans hs) ▸ hh⟩
  | completePhase =>
      obtain ⟨⟨f, hf⟩, -, hs, -⟩ := phaseStep_complete hstep
      obtain ⟨s₁, hs₁, hh, -, -⟩ := h.step_complete hf
      exact ⟨cs, Option.some.inj (hs₁.symm.trans hs) ▸ hh⟩

theorem begun_suffix_of_phaseStep {op : Phase.Op} (hstep : phaseStep env s op = some s') :
    s.begun <:+ s'.begun := by
  cases op with
  | beginPhase label medium errorVec =>
      obtain ⟨phase, -, hbegun, -, -⟩ := phaseStep_begin hstep
      rw [hbegun]
      exact List.suffix_cons _ _
  | completePhase =>
      obtain ⟨-, hbegun, -, -⟩ := phaseStep_complete hstep
      rw [hbegun]

end Phases

def numbered (origin : CDID) (phase count : ℕ) : CDID :=
  { setPhase origin phase with sequentialId := .ofNat count }

def Named (s : Scopes) (parent : List String) (label : String) (id origin : CDID) (count : ℕ) :
    Prop :=
  ∃ b ∈ s.begun, b.chain = label :: parent ∧ id = numbered origin b.phase count

structure Inv (env : Env) (depth : ℕ) (parent : List String) (st : Family) : Prop where
  healthy : ∃ cs, Healthy env.myTaskID cs st.scopes
  length : parent.length = depth
  inside : ∃ inner, st.scopes.labels = inner ++ parent
  idle : st.scopes.labels = parent → st.begun = st.done.map (·.id)
  busy : ∀ inner l, st.scopes.labels = inner ++ l :: parent → ∃ c, st.child = some c ∧
    c.label = l ∧ Named st.scopes parent l c.cdId c.origin c.count ∧
    st.begun = st.done.map (·.id) ++ [c.cdId]
  child : ∀ c ∈ st.child, ∃ phase, c.cdId = numbered c.origin phase c.count
  done : ∀ d ∈ st.done, Named st.scopes parent d.label d.id d.origin d.count
  pushed : Pushed st.log (records st.done)
  packed : ∀ d ∈ st.done, ∀ own ∈ d.record, own.myCd.cdId = d.id ∧ Packable own
  unit : 0 < st.log.childLogSizeUnit

theorem Named.mono {s s' : Scopes} {parent : List String} {label : String} {id origin : CDID}
    {count : ℕ} (h : Named s parent label id origin count) (hsub : s.begun <:+ s'.begun) :
    Named s' parent label id origin count := by
  obtain ⟨b, hb, hrest⟩ := h
  exact ⟨b, hsub.subset hb, hrest⟩

theorem pushLogs_spec {own parent : CommLog} {cs : List CommLog} (hpack : Packable own)
    (h : Pushed parent cs) (hunit : 0 < parent.childLogSizeUnit) {log : CommLog}
    (hpush : pushLogs own parent = some log) :
    0 < log.childLogSizeUnit ∧ Pushed log (cs ++ (recordOf own).toList) := by
  unfold pushLogs at hpush
  unfold recordOf
  cases hnew : own.newLogGenerated with
  | false =>
      rw [hnew] at hpush
      obtain rfl := Option.some.inj hpush
      simp only [Bool.false_eq_true, if_false, Option.toList_none, List.append_nil]
      exact ⟨hunit, h⟩
  | true =>
      obtain ⟨q, hq, hpushed, -⟩ := packAndPushLogs_spec hpack h hunit
      rw [hnew, if_pos rfl, hq] at hpush
      obtain rfl := Option.some.inj hpush
      exact ⟨hunit, hpushed⟩

theorem ownLog_packable (c : Child) {log : CommLog} (h : Packable log) : Packable (ownLog c log) :=
  ⟨h.1, h.2, h.3, h.4, h.5, h.6, h.7, h.8, h.9, h.10, h.11⟩

theorem recordOf_eq {own rec : CommLog} (h : rec ∈ recordOf own) : own = rec := by
  unfold recordOf at h
  split_ifs at h
  · exact Option.some.inj h
  · cases h

theorem labels_length (s : Scopes) : s.labels.length = s.frames.length :=
  List.length_map _

section Step

variable {env : Env} {depth : ℕ} {parent : List String} {st st' : Family}

theorem Inv.labels_of_length (h : Inv env depth parent st)
    (hlen : st.scopes.frames.length = depth) : st.scopes.labels = parent := by
  obtain ⟨inner, hinner⟩ := h.inside
  have hl := congrArg List.length hinner
  rw [labels_length, hlen, List.length_append, h.length] at hl
  rw [hinner, List.length_eq_zero_iff.mp (show inner.length = 0 by omega), List.nil_append]

/-- A change of the phases inside the child. -/
theorem Inv.inner (h : Inv env depth parent st) {s : Scopes} {op : Phase.Op}
    (hstep : phaseStep env st.scopes op = some s)
    (hd : Distinct env.myTaskID (s.begun.map (·.chain)))
    (hinside : ∃ inner, s.labels = inner ++ parent) (hne : s.labels ≠ parent)
    (hlabels : ∀ inner l, s.labels = inner ++ l :: parent →
      ∃ inner', st.scopes.labels = inner' ++ l :: parent) :
    Inv env depth parent { st with scopes := s } := by
  obtain ⟨cs, hh⟩ := h.healthy
  have hsub := begun_suffix_of_phaseStep hstep
  constructor
  · exact healthy_phaseStep hh hstep hd
  · exact h.length
  · exact hinside
  · exact fun heq => absurd heq hne
  · intro inner l heq
    obtain ⟨inner', hinner'⟩ := hlabels inner l heq
    obtain ⟨c, hc, hl, hnamed, hbegun⟩ := h.busy inner' l hinner'
    exact ⟨c, hc, hl, hnamed.mono hsub, hbegun⟩
  · exact h.child
  · exact fun d hdone => (h.done d hdone).mono hsub
  · exact h.pushed
  · exact h.packed
  · exact h.unit

theorem createChild_numbered (store : List (String × CDID)) (key : String) (level : ℕ)
    (node : NodeID) (rankInLevel size : UInt32) :
    ∃ phase, (createChild store key (newId level node rankInLevel size)).1 =
      numbered (createChild store key (newId level node rankInLevel size)).1 phase 0 := by
  unfold createChild
  cases store.lookup key with
  | none =>
      refine ⟨2 ^ 32 - 1, ?_⟩
      rfl
  | some old =>
      refine ⟨old.cdName.phase.toNat, ?_⟩
      simp [numbered, setPhase]

theorem Inv.create (h : Inv env depth parent st) {name : String} {node : NodeID}
    {rankInLevel size : UInt32}
    (hstep : step env depth st (.create name node rankInLevel size) = some st') :
    Inv env depth parent st' := by
  unfold step at hstep
  dsimp only at hstep
  split_ifs at hstep with hguard
  obtain rfl := Option.some.inj hstep
  have hlabels := h.labels_of_length hguard.2
  refine ⟨h.healthy, h.length, h.inside, h.idle, ?_, ?_, h.done, h.pushed, h.packed, h.unit⟩
  · intro inner l heq
    have hl := congrArg List.length (hlabels.symm.trans heq)
    rw [List.length_append, List.length_cons] at hl
    omega
  · intro c hc
    obtain rfl := Option.some.inj hc
    exact createChild_numbered _ _ _ _ _ _

theorem Inv.beginCD (h : Inv env depth parent st) {label : String} {medium : PrvMedium}
    {errorVec : ℤ} (hstep : step env depth st (.beginCD label medium errorVec) = some st')
    (hd : Distinct env.myTaskID (st'.scopes.begun.map (·.chain))) :
    Inv env depth parent st' := by
  unfold step at hstep
  dsimp only at hstep
  obtain ⟨c, hc, hrest⟩ := Option.bind_eq_some_iff.mp hstep
  split_ifs at hrest with hlen
  obtain ⟨s, hs, hst⟩ := Option.bind_eq_some_iff.mp hrest
  obtain rfl := Option.some.inj hst
  obtain ⟨cs, hh⟩ := h.healthy
  have hlabels := h.labels_of_length hlen
  have hsub := begun_suffix_of_phaseStep hs
  obtain ⟨phase, hframes, hbegun, -, -⟩ := phaseStep_begin hs
  have hnew : s.labels = effectiveLabel c.name label :: parent := by
    rw [Scopes.labels, hframes, List.map_cons, ← hlabels]
    rfl
  obtain ⟨old, hold⟩ := h.child c hc
  have hnumbered : setPhase c.cdId ((s.frames.head?.map (·.phase)).getD 0) =
      numbered c.origin phase c.count := by
    rw [hframes, hold]
    rfl
  refine ⟨healthy_phaseStep hh hs hd, h.length, ⟨[_], hnew⟩, ?_, ?_, ?_, ?_, h.pushed, h.packed,
    h.unit⟩
  · intro heq
    have hl := congrArg List.length (hnew.symm.trans heq)
    rw [List.length_cons] at hl
    omega
  · intro inner l heq
    obtain ⟨hnil, hl⟩ : inner = [] ∧ l = effectiveLabel c.name label := by
      have heq' := hnew.symm.trans heq
      cases inner with
      | nil => exact ⟨rfl, (List.cons.inj heq').1.symm⟩
      | cons x xs =>
          have hl := congrArg List.length heq'
          simp only [List.length_cons, List.length_append] at hl
          omega
    refine ⟨_, rfl, hl.symm, ?_, ?_⟩
    · refine ⟨⟨_, phase, _⟩, by rw [hbegun]; exact List.mem_cons_self, ?_, hnumbered⟩
      rw [hl, hlabels]
    · rw [h.idle hlabels]
  · intro c' hc'
    obtain rfl := Option.some.inj hc'
    exact ⟨phase, hnumbered⟩
  · exact fun d hdone => (h.done d hdone).mono hsub

theorem Inv.innerStep (h : Inv env depth parent st) {op : Phase.Op}
    (hstep : step env depth st (.inner op) = some st')
    (hd : Distinct env.myTaskID (st'.scopes.begun.map (·.chain))) :
    Inv env depth parent st' := by
  unfold step at hstep
  dsimp only at hstep
  split_ifs at hstep with hlen
  obtain ⟨s, hs, hst⟩ := Option.bind_eq_some_iff.mp hstep
  obtain rfl := Option.some.inj hst
  obtain ⟨inner, hinner⟩ := h.inside
  have hlength : inner.length + depth = st.scopes.frames.length := by
    rw [← labels_length, hinner, List.length_append, h.length]
  cases op with
  | beginPhase label medium errorVec =>
      obtain ⟨phase, hframes, -, -, -⟩ := phaseStep_begin hs
      have hnew : s.labels = label :: st.scopes.labels := by
        rw [Scopes.labels, hframes]
        rfl
      apply h.inner hs hd
      · exact ⟨label :: inner, by rw [hnew, hinner]; rfl⟩
      · intro heq
        have hl := congrArg List.length (hnew.symm.trans heq)
        rw [List.length_cons, labels_length, h.length] at hl
        omega
      · intro inner' l heq
        cases inner' with
        | nil =>
            have hl := congrArg List.length (hnew.symm.trans heq)
            simp only [List.length_cons, List.nil_append, labels_length, h.length] at hl
            have hdeep : depth < st.scopes.frames.length := of_decide_eq_true hlen
            omega
        | cons x xs => exact ⟨xs, (List.cons.inj (hnew.symm.trans heq)).2⟩
  | completePhase =>
      obtain ⟨⟨f, hframes⟩, -, -, -⟩ := phaseStep_complete hs
      have hold : st.scopes.labels = f.label :: s.labels := by
        rw [Scopes.labels, hframes]
        rfl
      have hlong : depth < s.labels.length := by
        have hdeep : depth + 1 < st.scopes.frames.length := of_decide_eq_true hlen
        rw [hframes, List.length_cons] at hdeep
        rw [labels_length]
        omega
      apply h.inner hs hd
      · cases inner with
        | nil =>
            have hl := congrArg List.length (hold.symm.trans hinner)
            rw [List.nil_append, List.length_cons, h.length] at hl
            omega
        | cons x xs => exact ⟨xs, (List.cons.inj (hold.symm.trans hinner)).2⟩
      · intro heq
        rw [heq, h.length] at hlong
        omega
      · intro inner' l heq
        exact ⟨f.label :: inner', by rw [hold, heq]; rfl⟩

theorem Inv.completeCD (h : Inv env depth parent st) {log : CommLog} (hpack : Packable log)
    (hstep : step env depth st (.completeCD log) = some st')
    (hd : Distinct env.myTaskID (st'.scopes.begun.map (·.chain))) :
    Inv env depth parent st' := by
  unfold step at hstep
  dsimp only at hstep
  obtain ⟨c, hc, hrest⟩ := Option.bind_eq_some_iff.mp hstep
  split_ifs at hrest with hlen
  obtain ⟨log', hlog, hrest⟩ := Option.bind_eq_some_iff.mp hrest
  obtain ⟨s, hs, hst⟩ := Option.bind_eq_some_iff.mp hrest
  obtain rfl := Option.some.inj hst
  obtain ⟨cs, hh⟩ := h.healthy
  have hsub := begun_suffix_of_phaseStep hs
  obtain ⟨⟨f, hframes⟩, -, -, -⟩ := phaseStep_complete hs
  have hold : st.scopes.labels = f.label :: s.labels := by
    rw [Scopes.labels, hframes]
    rfl
  -- one phase is open inside the parent
  have hnew : s.labels = parent := by
    obtain ⟨inner, hinner⟩ := h.inside
    have hl := congrArg List.length hinner
    rw [labels_length, hlen, List.length_append, h.length] at hl
    obtain ⟨x, rfl⟩ := List.length_eq_one_iff.mp (show inner.length = 1 by omega)
    exact (List.cons.inj (hold.symm.trans hinner)).2
  obtain ⟨c', hc', hlabel, hnamed, hbegun⟩ := h.busy [] f.label (by rw [hold, hnew]; rfl)
  obtain rfl := Option.some.inj (hc.symm.trans hc')
  have hown := ownLog_packable c hpack
  obtain ⟨hunit, hpushed⟩ := pushLogs_spec hown h.pushed h.unit hlog
  refine ⟨healthy_phaseStep hh hs hd, h.length, ⟨[], hnew⟩, ?_, ?_, ?_, ?_, ?_, ?_, hunit⟩
  · intro _
    rw [hbegun, List.map_append]
    rfl
  · intro inner l heq
    have hl := congrArg List.length (hnew.symm.trans heq)
    rw [List.length_append, List.length_cons] at hl
    omega
  · intro c' hc'
    obtain rfl := Option.some.inj hc'
    obtain ⟨phase, hphase⟩ := h.child c hc
    refine ⟨phase, ?_⟩
    dsimp only
    rw [hphase]
    simp [numbered, setPhase]
  · intro d hdone
    rcases List.mem_append.mp hdone with hdone | hdone
    · exact (h.done d hdone).mono hsub
    · rw [List.mem_singleton.mp hdone]
      dsimp only
      rw [hlabel]
      exact hnamed.mono hsub
  · have happend : records (st.done ++ [⟨c.cdId, c.origin, c.label, c.count,
        recordOf (ownLog c log)⟩]) = records st.done ++ (recordOf (ownLog c log)).toList := by
      rw [records, List.filterMap_append, List.filterMap_cons, List.filterMap_nil]
      cases recordOf (ownLog c log) <;> rfl
    rw [happend]
    exact hpushed
  · intro d hdone own hrec
    rcases List.mem_append.mp hdone with hdone | hdone
    · exact h.packed d hdone own hrec
    · rw [List.mem_singleton.mp hdone] at hrec ⊢
      obtain rfl := recordOf_eq hrec
      exact ⟨rfl, hown⟩

theorem Inv.destroyCD (h : Inv env depth parent st)
    (hstep : step env depth st .destroyCD = some st') : Inv env depth parent st' := by
  unfold step at hstep
  dsimp only at hstep
  split_ifs at hstep with hguard
  obtain rfl := Option.some.inj hstep
  have hlabels := h.labels_of_length hguard.2
  refine ⟨h.healthy, h.length, h.inside, h.idle, ?_, ?_, h.done, h.pushed, h.packed, h.unit⟩
  · intro inner l heq
    have hl := congrArg List.length (hlabels.symm.trans heq)
    rw [List.length_append, List.length_cons] at hl
    omega
  · intro c hc
    cases hc

theorem Inv.step (h : Inv env depth parent st) {op : Op}
    (hpack : ∀ log, op = .completeCD log → Packable log)
    (hstep : step env depth st op = some st')
    (hd : Distinct env.myTaskID (st'.scopes.begun.map (·.chain))) :
    Inv env depth parent st' := by
  cases op with
  | create name node rankInLevel size => exact h.create hstep
  | beginCD label medium errorVec => exact h.beginCD hstep hd
  | inner op => exact h.innerStep hstep hd
  | completeCD log => exact h.completeCD (hpack log rfl) hstep hd
  | destroyCD => exact h.destroyCD hstep

structure Grows (st st' : Family) : Prop where
  begun : st.scopes.begun <:+ st'.scopes.begun
  store : ∀ key id, st.store.lookup key = some id → st'.store.lookup key = some id

theorem Grows.trans {st₁ st₂ st₃ : Family} (h : Grows st₁ st₂) (h' : Grows st₂ st₃) :
    Grows st₁ st₃ :=
  ⟨h.begun.trans h'.begun, fun key id hid => h'.store key id (h.store key id hid)⟩

theorem createChild_lookup (store : List (String × CDID)) (key : String) (id : CDID) {k : String}
    {x : CDID} (h : store.lookup k = some x) : (createChild store key id).2.lookup k = some x := by
  unfold createChild
  cases hl : store.lookup key with
  | some old => exact h
  | none =>
      have hne : (k == key) = false := by
        apply beq_false_of_ne
        rintro rfl
        rw [hl] at h
        cases h
      rw [List.lookup_cons, hne]
      exact h

theorem step_grows {op : Op} (hstep : ChildLogs.step env depth st op = some st') :
    Grows st st' := by
  cases op with
  | create name node rankInLevel size =>
      unfold ChildLogs.step at hstep
      dsimp only at hstep
      split_ifs at hstep
      obtain rfl := Option.some.inj hstep
      exact ⟨List.suffix_refl _, fun key id h => createChild_lookup _ _ _ h⟩
  | beginCD label medium errorVec =>
      obtain ⟨c, -, hrest⟩ := Option.bind_eq_some_iff.mp hstep
      split_ifs at hrest
      obtain ⟨s, hs, hst⟩ := Option.bind_eq_some_iff.mp hrest
      obtain rfl := Option.some.inj hst
      exact ⟨begun_suffix_of_phaseStep hs, fun _ _ h => h⟩
  | inner op =>
      unfold ChildLogs.step at hstep
      dsimp only at hstep
      split_ifs at hstep
      obtain ⟨s, hs, hst⟩ := Option.bind_eq_some_iff.mp hstep
      obtain rfl := Option.some.inj hst
      exact ⟨begun_suffix_of_phaseStep hs, fun _ _ h => h⟩
  | completeCD log =>
      obtain ⟨c, -, hrest⟩ := Option.bind_eq_some_iff.mp hstep
      split_ifs at hrest
      obtain ⟨log', -, hrest⟩ := Option.bind_eq_some_iff.mp hrest
      obtain ⟨s, hs, hst⟩ := Option.bind_eq_some_iff.mp hrest
      obtain rfl := Option.some.inj hst
      exact ⟨begun_suffix_of_phaseStep hs, fun _ _ h => h⟩
  | destroyCD =>
      unfold ChildLogs.step at hstep
      dsimp only at hstep
      split_ifs at hstep
      obtain rfl := Option.some.inj hstep
      exact ⟨List.suffix_refl _, fun _ _ h => h⟩

theorem run_grows (ops : List Op) : ∀ {st : Family},
    run (ChildLogs.step env depth) st ops = some st' → Grows st st' := by
  induction ops with
  | nil =>
      intro st hrun
      obtain rfl := Option.some.inj hrun
      exact ⟨List.suffix_refl _, fun _ _ h => h⟩
  | cons op ops ih =>
      intro st hrun
      obtain ⟨st₁, hstep, hrest⟩ := Option.bind_eq_some_iff.mp hrun
      exact (step_grows hstep).trans (ih hrest)

theorem distinct_of_grows (h : Grows st st')
    (hd : Distinct env.myTaskID (st'.scopes.begun.map (·.chain))) :
    Distinct env.myTaskID (st.scopes.begun.map (·.chain)) :=
  hd.mono (List.map_subset _ h.begun.subset)

theorem Inv.run (ops : List Op) : ∀ {st : Family}, Inv env depth parent st → LogsPackable ops →
    Runs.run (ChildLogs.step env depth) st ops = some st' →
    Distinct env.myTaskID (st'.scopes.begun.map (·.chain)) → Inv env depth parent st' := by
  induction ops with
  | nil =>
      intro st h _ hrun _
      exact Option.some.inj hrun ▸ h
  | cons op ops ih =>
      intro st h hpack hrun hd
      obtain ⟨st₁, hstep, hrest⟩ := Option.bind_eq_some_iff.mp hrun
      have hd₁ := distinct_of_grows (run_grows ops hrest) hd
      have h₁ := h.step (fun log hlog => hpack log (hlog ▸ List.mem_cons_self)) hstep hd₁
      exact ih h₁ (fun log hlog => hpack log (List.mem_cons_of_mem _ hlog)) hrest hd

end Step

theorem ofNat_eq_iff {a b : ℕ} : UInt32.ofNat a = UInt32.ofNat b ↔ a % 2 ^ 32 = b % 2 ^ 32 := by
  rw [← UInt32.toNat_inj, UInt32.toNat_ofNat', UInt32.toNat_ofNat']

theorem phase_lt {task : ℕ} {cs : List (List String)} {s : Scopes} (h : Healthy task cs s)
    {b : Begun} (hb : b ∈ s.begun) : b.phase < 2 ^ 32 :=
  Nat.lt_of_lt_of_le (List.getElem?_eq_some_iff.mp (h.begun b hb).1).1 h.tree.small

theorem same_iff_alike {env : Env} {depth : ℕ} {parent : List String} {st : Family}
    (h : Inv env depth parent st) {a b : Completion} (ha : a ∈ st.done) (hb : b ∈ st.done) :
    a.id.same b.id = true ↔ Alike a b := by
  obtain ⟨cs, hh⟩ := h.healthy
  obtain ⟨p, hp, hpc, hpid⟩ := h.done a ha
  obtain ⟨q, hq, hqc, hqid⟩ := h.done b hb
  have hphase : UInt32.ofNat p.phase = UInt32.ofNat q.phase ↔ a.label = b.label := by
    rw [ofNat_eq_iff, Nat.mod_eq_of_lt (phase_lt hh hp), Nat.mod_eq_of_lt (phase_lt hh hq),
      hh.identified.same p hp q hq, hpc, hqc]
    simp
  rw [hpid, hqid]
  simp only [CDID.same, CDNameT.same, numbered, setPhase, Bool.and_eq_true, beq_iff_eq, hphase,
    ofNat_eq_iff, Alike]
  tauto

theorem pairwise_distinct_iff {env : Env} {depth : ℕ} {parent : List String} {st : Family}
    (h : Inv env depth parent st) :
    (st.done.filter (·.record.isSome)).Pairwise (fun a b => a.id.same b.id = false) ↔
      Apart st := by
  apply List.Pairwise.iff_of_mem
  intro a b ha hb
  rw [← same_iff_alike h (List.mem_filter.mp ha).1 (List.mem_filter.mp hb).1, Bool.not_eq_true]

theorem records_split {done : List Completion} {i : ℕ} {d : Completion} {own : CommLog}
    (hi : done[i]? = some d) (hrec : d.record = some own) :
    records done = records (done.take i) ++ own :: records (done.drop (i + 1)) := by
  have hsplit : done = done.take i ++ d :: done.drop (i + 1) := by
    rw [List.getElem?_eq_some_iff] at hi
    obtain ⟨hlt, rfl⟩ := hi
    rw [List.getElem_cons_drop hlt, List.take_append_drop]
  conv_lhs => rw [hsplit]
  rw [records, List.filterMap_append, List.filterMap_cons, hrec]
  rfl

theorem findChildLogs_of_distinct {env : Env} {depth : ℕ} {parent : List String} {st : Family}
    (h : Inv env depth parent st)
    (hdist : (st.done.filter (·.record.isSome)).Pairwise fun a b => a.id.same b.id = false)
    {i : ℕ} {d : Completion} (hi : st.done[i]? = some d) (hrec : d.record.isSome) :
    findChildLogs st.log d.id = some (.ok, some (offset st i)) := by
  obtain ⟨own, hown⟩ := Option.isSome_iff_exists.mp hrec
  have hmem := List.mem_of_getElem? hi
  have hsplit := records_split hi hown
  have hid := (h.packed d hmem own hown).1
  refine findChildLogs_found (hsplit ▸ h.pushed) ?_ ?_ (by rw [hid, CDID.same_refl])
  · intro x hx
    rw [← hsplit] at hx
    obtain ⟨d', hd', hrec'⟩ := List.mem_filterMap.mp hx
    exact (h.packed d' hd' x hrec').2
  · -- an earlier record stands before this one among those that push
    intro x hx
    obtain ⟨d', hd', hrec'⟩ := List.mem_filterMap.mp hx
    rw [(h.packed d' (List.mem_of_mem_take hd') x hrec').1]
    rw [← List.take_append_drop i st.done, List.filter_append, List.pairwise_append] at hdist
    apply hdist.2.2 d' (List.mem_filter.mpr ⟨hd', by rw [hrec']; rfl⟩) d
    refine List.mem_filter.mpr ⟨?_, hrec⟩
    apply List.mem_of_getElem? (i := 0)
    rw [List.getElem?_drop, Nat.add_zero, hi]

section Replay

variable {env : Env} {depth : ℕ} {parent : List String} {cs : List (List String)}
variable {last st : Family}

theorem Stacked.suffix {cs : List (List String)} (pre : List Frame) {f : Frame} {fs : List Frame}
    (h : Stacked cs (pre ++ f :: fs)) : cs[f.phase]? = some ((f :: fs).map (·.label)) := by
  induction pre with
  | nil => exact h.1
  | cons g pre ih => exact ih h.2.2

theorem mem_of_labels {task : ℕ} {s : Scopes} (h : Healthy task cs s) {inner rest : List String}
    {l : String} (hlabels : s.labels = inner ++ l :: rest) : l :: rest ∈ cs := by
  rw [Scopes.labels, List.map_eq_append_iff] at hlabels
  obtain ⟨pre, post, hframes, -, hpost⟩ := hlabels
  rw [List.map_eq_cons_iff] at hpost
  obtain ⟨f, fs, rfl, hl, hfs⟩ := hpost
  have hstack := h.stack
  rw [hframes] at hstack
  have := Stacked.suffix pre hstack
  rw [List.map_cons, hl, hfs] at this
  exact List.mem_of_getElem? this

theorem at_of_healthy {task : ℕ} {s : Scopes} (h : Healthy task cs s) :
    At s.tree cs s.labels := by
  refine ⟨h.tree, ?_⟩
  rw [h.current]
  cases hf : s.frames with
  | nil => exact List.map_eq_nil_iff.mpr hf
  | cons f fs =>
      have hstack := h.stack
      rw [hf] at hstack
      show cs[f.phase]? = some s.labels
      rw [hstack.1, Scopes.labels, hf]
      rfl

theorem key_at {t : PhaseTree} (h : At t cs parent) (hne : parent ≠ []) (name : String) :
    keyOf (name :: parent) = some (t.getPhasePathOf (t.current.getD 0) name) := by
  obtain ⟨l, rest, rfl⟩ := List.exists_cons_of_ne_nil hne
  obtain ⟨i, hcur, hi⟩ := h.current_some
  rw [hcur, Option.getD_some]
  exact h.tree.getPhasePathOf hi name

theorem restart_spec (h : Inv env depth parent last) (hpos : 0 < depth)
    (hh : Healthy env.myTaskID cs last.scopes) (medium : PrvMedium) (errorVec : ℤ) :
    ∃ t, restart env depth medium errorVec last = .ok ⟨t, parent, last.store, none, []⟩ ∧
      At t cs parent := by
  obtain ⟨inner, hinner⟩ := h.inside
  obtain ⟨l, rest, rfl⟩ := List.exists_cons_of_ne_nil
    (List.ne_nil_of_length_pos (h.length.symm ▸ hpos))
  have hlen := h.length
  rw [List.length_cons] at hlen
  have hmem := mem_of_labels hh hinner
  have hleft : env.myTaskID = 0 → keyOf (l :: rest) ≠ some "Root_MainLoop_CalcPos" := fun htask =>
    hh.distinct.leftover htask _ ((hh.chains _).mp hmem)
  have hat := at_of_healthy hh
  rw [hinner, show inner ++ l :: rest = (inner ++ [l]) ++ rest by simp] at hat
  obtain ⟨t₁, hrewind, hat₁⟩ := hat.rewind (depth - 1) (inner ++ [l])
  obtain ⟨i, t₂, hbegin, -, hat₂⟩ := hat₁.beginPhase hmem env hleft ((depth - 1) % 2 ^ 32) medium
    errorVec
  refine ⟨t₂, ?_, hat₂⟩
  have hcount : last.scopes.labels.length - (depth - 1) = (inner ++ [l]).length := by
    rw [hinner, List.length_append, List.length_append, List.length_cons, List.length_singleton]
    omega
  have hdrop : last.scopes.labels.drop (last.scopes.labels.length - depth) = l :: rest := by
    rw [hinner, List.length_append, List.length_cons, show inner.length + (rest.length + 1) -
      depth = inner.length by omega, List.drop_left]
  unfold restart
  rw [hcount, hrewind, hdrop]
  show (t₁.beginPhase env ((depth - 1) % 2 ^ 32) l medium errorVec).bind _ = _
  rw [hbegin]
  rfl

/-- The replay has come to the same point as the first execution. -/
structure Sim (cs : List (List String)) (last st : Family) (r : Replay) : Prop where
  labels : r.labels = st.scopes.labels
  child : r.child = st.child
  begun : r.begun = st.begun
  tree : At r.tree cs r.labels
  store : r.store = last.store

theorem revisit_begin (hlast : Healthy env.myTaskID cs last.scopes) {r : Replay}
    (htree : At r.tree cs r.labels) {b : Begun} (hb : b ∈ last.scopes.begun) {label : String}
    (hchain : b.chain = label :: r.labels) (good : Bool) (medium : PrvMedium) (errorVec : ℤ) :
    ∃ t, revisit env good r (.beginPhase label medium errorVec) =
      some (b.phase, { r with tree := t, labels := label :: r.labels }) ∧
      At t cs (label :: r.labels) := by
  have hcs := (hlast.begun b hb).1
  rw [hchain] at hcs
  have hmem := List.mem_of_getElem? hcs
  obtain ⟨i, t, hbegin, hi, hat⟩ := htree.beginPhase hmem env
    (fun htask => hlast.distinct.leftover htask _ ((hlast.chains _).mp hmem))
    (r.labels.length % 2 ^ 32) medium errorVec
  refine ⟨t, ?_, hat⟩
  rw [← hlast.tree.key_injective hi hcs rfl]
  simp only [revisit, hbegin]

theorem revisit_complete (env : Env) {r : Replay} {l : String} {rest : List String}
    (hlabels : r.labels = l :: rest) (htree : At r.tree cs r.labels) (good : Bool) :
    ∃ t, revisit env good r .completePhase = some (0, { r with tree := t, labels := rest }) ∧
      At t cs rest := by
  rw [hlabels] at htree
  obtain ⟨t, hcomplete, hat⟩ := htree.completePhase good false
  refine ⟨t, ?_, hat⟩
  simp only [revisit, hcomplete, hlabels, List.tail_cons]

theorem createChild_replay {store final : List (String × CDID)} {key : String} {id : CDID}
    (hseq : id.sequentialId = 0)
    (hgrows : ∀ k x, (createChild store key id).2.lookup k = some x → final.lookup k = some x) :
    createChild final key id = ((createChild store key id).1, final) := by
  unfold createChild at hgrows ⊢
  cases hl : store.lookup key with
  | some old =>
      rw [hl] at hgrows
      rw [hgrows key old hl]
  | none =>
      rw [hl] at hgrows
      rw [hgrows key id (by rw [List.lookup_cons, beq_self_eq_true])]
      simp [← hseq]

theorem sim_step (h : Inv env depth parent st) (hpos : 0 < depth)
    (hlast : Healthy env.myTaskID cs last.scopes) {op : Op} {st' : Family}
    (hstep : step env depth st op = some st') (hgrows : Grows st' last) {r : Replay}
    (hsim : Sim cs last st r) (good : Bool) :
    ∃ r', replayStep env depth r (op, good) = some r' ∧ Sim cs last st' r' := by
  cases op with
  | create name node rankInLevel size =>
      unfold step at hstep
      dsimp only at hstep
      split_ifs at hstep with hguard
      obtain rfl := Option.some.inj hstep
      have hlabels := h.labels_of_length hguard.2
      have hne : parent ≠ [] := List.ne_nil_of_length_pos (h.length.symm ▸ hpos)
      obtain ⟨cs', hh⟩ := h.healthy
      have hkey : r.tree.getPhasePathOf (r.tree.current.getD 0) name =
          st.scopes.tree.getPhasePathOf (st.scopes.tree.current.getD 0) name := by
        have h₁ := key_at (hlabels ▸ at_of_healthy hh) hne name
        have h₂ := key_at (hlabels ▸ hsim.labels ▸ hsim.tree) hne name
        exact Option.some.inj (h₂.symm.trans h₁)
      have hcreate := createChild_replay rfl hgrows.store
      refine ⟨{ r with store := last.store, child := some ⟨name, _, _, "", 0⟩ }, ?_, hsim.labels,
        rfl, hsim.begun, hsim.tree, rfl⟩
      unfold replayStep
      dsimp only
      rw [hkey, hsim.store, hcreate]
  | beginCD label medium errorVec =>
      obtain ⟨c, hc, hrest⟩ := Option.bind_eq_some_iff.mp hstep
      split_ifs at hrest with hlen
      obtain ⟨s, hs, hst⟩ := Option.bind_eq_some_iff.mp hrest
      obtain rfl := Option.some.inj hst
      obtain ⟨phase, hframes, hbegun, -, -⟩ := phaseStep_begin hs
      have hmem := hgrows.begun.subset (hbegun ▸ List.mem_cons_self)
      obtain ⟨t, hrevisit, hat⟩ := revisit_begin hlast hsim.tree hmem
        (by rw [hsim.labels]) good medium errorVec
      have hphase : (s.frames.head?.map (·.phase)).getD 0 = phase := by rw [hframes]; rfl
      have hlabels : effectiveLabel c.name label :: r.labels = s.labels := by
        rw [hsim.labels, Scopes.labels, Scopes.labels, hframes]
        rfl
      refine ⟨{ r with
          tree := t
          labels := effectiveLabel c.name label :: r.labels
          child := some { c with
            cdId := setPhase c.cdId phase, label := effectiveLabel c.name label }
          begun := st.begun ++ [setPhase c.cdId phase] }, ?_, hlabels, ?_, ?_, hat, hsim.store⟩
      · simp only [replayStep, hsim.child, hc, hrevisit, hsim.begun, Option.bind_eq_bind,
          Option.bind_some]
      · dsimp only
        rw [hphase]
      · dsimp only
        rw [hphase]
  | inner op =>
      unfold step at hstep
      dsimp only at hstep
      split_ifs at hstep with hlen
      obtain ⟨s, hs, hst⟩ := Option.bind_eq_some_iff.mp hstep
      obtain rfl := Option.some.inj hst
      cases op with
      | beginPhase label medium errorVec =>
          obtain ⟨phase, hframes, hbegun, -, -⟩ := phaseStep_begin hs
          have hmem := hgrows.begun.subset (hbegun ▸ List.mem_cons_self)
          obtain ⟨t, hrevisit, hat⟩ := revisit_begin hlast hsim.tree hmem
            (by rw [hsim.labels]) good medium errorVec
          refine ⟨{ r with tree := t, labels := label :: r.labels }, ?_, ?_, hsim.child,
            hsim.begun, hat, hsim.store⟩
          · simp only [replayStep, hrevisit, Option.bind_eq_bind, Option.bind_some]
          · rw [hsim.labels, Scopes.labels, Scopes.labels, hframes]
            rfl
      | completePhase =>
          obtain ⟨⟨f, hframes⟩, -, -, -⟩ := phaseStep_complete hs
          have hlabels : r.labels = f.label :: s.labels := by
            rw [hsim.labels, Scopes.labels, hframes]
            rfl
          obtain ⟨t, hrevisit, hat⟩ := revisit_complete env hlabels hsim.tree good
          refine ⟨{ r with tree := t, labels := s.labels }, ?_, rfl, hsim.child, hsim.begun, hat,
            hsim.store⟩
          simp only [replayStep, hrevisit, Option.bind_eq_bind, Option.bind_some]
  | completeCD log =>
      obtain ⟨c, hc, hrest⟩ := Option.bind_eq_some_iff.mp hstep
      split_ifs at hrest with hlen
      obtain ⟨log', -, hrest⟩ := Option.bind_eq_some_iff.mp hrest
      obtain ⟨s, hs, hst⟩ := Option.bind_eq_some_iff.mp hrest
      obtain rfl := Option.some.inj hst
      obtain ⟨⟨f, hframes⟩, -, -, -⟩ := phaseStep_complete hs
      have hlabels : r.labels = f.label :: s.labels := by
        rw [hsim.labels, Scopes.labels, hframes]
        rfl
      obtain ⟨t, hrevisit, hat⟩ := revisit_complete env hlabels hsim.tree good
      refine ⟨{ r with
          tree := t
          labels := s.labels
          child := some { c with
            cdId := { c.cdId with sequentialId := c.cdId.sequentialId + 1 }
            count := c.count + 1 } }, ?_, rfl, rfl, hsim.begun, hat, hsim.store⟩
      simp only [replayStep, hsim.child, hc, hrevisit, Option.bind_eq_bind, Option.bind_some]
  | destroyCD =>
      unfold step at hstep
      dsimp only at hstep
      split_ifs at hstep with hguard
      obtain rfl := Option.some.inj hstep
      exact ⟨_, rfl, hsim.labels, rfl, hsim.begun, hsim.tree, hsim.store⟩

theorem sim_run (hpos : 0 < depth) (hlast : Healthy env.myTaskID cs last.scopes)
    (calls : List (Op × Bool)) : ∀ {st r}, Inv env depth parent st →
      LogsPackable (calls.map Prod.fst) →
      run (step env depth) st (calls.map Prod.fst) = some last → Sim cs last st r →
      ∃ r', run (replayStep env depth) r calls = some r' ∧ r'.begun = last.begun := by
  induction calls with
  | nil =>
      intro st r _ _ hrun hsim
      obtain rfl := Option.some.inj hrun
      exact ⟨r, rfl, hsim.begun⟩
  | cons call calls ih =>
      intro st r h hpack hrun hsim
      obtain ⟨op, good⟩ := call
      obtain ⟨st₁, hstep, hrest⟩ := Option.bind_eq_some_iff.mp hrun
      have hgrows := run_grows _ hrest
      obtain ⟨r₁, hreplay, hsim₁⟩ := sim_step h hpos hlast hstep hgrows hsim good
      have h₁ := h.step (fun log hlog => hpack log (hlog ▸ List.mem_cons_self)) hstep
        (distinct_of_grows hgrows hlast.distinct)
      obtain ⟨r', hrun', hbegun⟩ := ih h₁
        (fun log hlog => hpack log (List.mem_cons_of_mem _ hlog)) hrest hsim₁
      exact ⟨r', by rw [run, hreplay]; exact hrun', hbegun⟩

end Replay

theorem trap_of_run {env : Env} (ops : List Phase.Op) : ∀ {s s' : Scopes},
    run (Scopes.step env) s ops = some s' → s'.trap = none → s.trap = none := by
  cases ops with
  | nil =>
      intro s s' hrun htrap
      exact Option.some.inj hrun ▸ htrap
  | cons op ops =>
      intro s s' hrun _
      obtain ⟨s₁, hstep, -⟩ := Option.bind_eq_some_iff.mp hrun
      cases ht : s.trap with
      | none => rfl
      | some e => cases op <;> simp [Scopes.step, ht] at hstep

theorem begun_suffix_of_run {env : Env} (ops : List Phase.Op) : ∀ {s s' : Scopes},
    run (Scopes.step env) s ops = some s' → s'.trap = none → s.begun <:+ s'.begun := by
  induction ops with
  | nil =>
      intro s s' hrun _
      rw [Option.some.inj hrun]
  | cons op ops ih =>
      intro s s' hrun htrap
      obtain ⟨s₁, hstep, hrest⟩ := Option.bind_eq_some_iff.mp hrun
      have hphase : phaseStep env s op = some s₁ := by
        simp only [phaseStep, hstep, Option.bind_eq_bind, Option.bind_some,
          if_pos (trap_of_run ops hrest htrap)]
      exact (begun_suffix_of_phaseStep hphase).trans (ih hrest htrap)

theorem healthy_run {env : Env} (ops : List Phase.Op) : ∀ {cs : List (List String)}
    {s s' : Scopes}, Healthy env.myTaskID cs s → run (Scopes.step env) s ops = some s' →
    s'.trap = none → Distinct env.myTaskID (s'.begun.map (·.chain)) →
    ∃ cs', Healthy env.myTaskID cs' s' := by
  induction ops with
  | nil =>
      intro cs s s' h hrun _ _
      exact ⟨cs, Option.some.inj hrun ▸ h⟩
  | cons op ops ih =>
      intro cs s s' h hrun htrap hd
      obtain ⟨s₁, hstep, hrest⟩ := Option.bind_eq_some_iff.mp hrun
      have hphase : phaseStep env s op = some s₁ := by
        simp only [phaseStep, hstep, Option.bind_eq_bind, Option.bind_some,
          if_pos (trap_of_run ops hrest htrap)]
      have hsub := List.map_subset (·.chain) (begun_suffix_of_run ops hrest htrap).subset
      obtain ⟨cs₁, h₁⟩ := healthy_phaseStep h hphase (hd.mono hsub)
      exact ih h₁ hrest htrap hd

theorem start_inv {env : Env} {depth : ℕ} {st : Family} (h : Start env depth st)
    (hd : Distinct env.myTaskID (st.scopes.begun.map (·.chain))) :
    Inv env depth st.scopes.labels st := by
  obtain ⟨ops, hops⟩ := h.scopes
  refine ⟨healthy_run ops (healthy_init env.myTaskID) hops h.trap hd, ?_, ⟨[], rfl⟩, ?_, ?_, ?_,
    ?_, ?_, ?_, h.unit⟩
  · rw [labels_length, h.frames]
  · intro _
    rw [h.begun, h.done]
    rfl
  · intro inner l heq
    have hl := congrArg List.length heq
    rw [List.length_append, List.length_cons] at hl
    omega
  · intro c hc
    rw [h.child] at hc
    cases hc
  · intro d hdone
    rw [h.done] at hdone
    cases hdone
  · rw [h.done]
    exact h.log
  · intro d hdone
    rw [h.done] at hdone
    cases hdone

/-- Below distinct chains of labels, the logs of the children are told apart exactly when no two
completions that push are alike: the sequential id starts at 0 again with every `Create`. -/
theorem identifies_iff_apart {env : Env} {depth : ℕ} {st st' : Family} {ops : List Op}
    (hstart : Start env depth st) (hpack : LogsPackable ops)
    (hrun : run (step env depth) st ops = some st')
    (hd : Distinct env.myTaskID (st'.scopes.begun.map (·.chain))) :
    Identifies env depth ops st' ↔ Apart st' := by
  have h := start_inv hstart (distinct_of_grows (run_grows ops hrun) hd)
  have h' := h.run ops hpack hrun hd
  rw [← pairwise_distinct_iff h']
  refine ⟨fun hid => hid.distinct, fun hdist => ⟨hdist, ?_⟩⟩
  rintro medium errorVec calls rfl
  obtain ⟨cs, hh⟩ := h'.healthy
  obtain ⟨t, hrestart, hat⟩ := restart_spec h' hstart.pos hh medium errorVec
  have hsim : Sim cs st' st ⟨t, st.scopes.labels, st'.store, none, []⟩ :=
    ⟨rfl, hstart.child.symm, hstart.begun.symm, hat, rfl⟩
  obtain ⟨r, hreplay, hbegun⟩ := sim_run hstart.pos hh calls h hpack hrun hsim
  refine ⟨_, r, hrestart, hreplay, ?_⟩
  intro i id d hid hdone hrec
  rw [hbegun] at hid
  -- the completion carries the id of the `Begin` that it belongs to
  have heq : id = d.id := by
    have hmap : (st'.done.map (·.id))[i]? = some d.id := by
      rw [List.getElem?_map, hdone, Option.map_some]
    have hlt := (List.getElem?_eq_some_iff.mp hmap).1
    obtain ⟨inner, hinner⟩ := h'.inside
    rcases List.eq_nil_or_concat inner with rfl | ⟨inner', l, rfl⟩
    · rw [h'.idle hinner, hmap] at hid
      exact (Option.some.inj hid).symm
    · obtain ⟨c, -, -, -, hb⟩ := h'.busy inner' l (by simpa using hinner)
      rw [hb, List.getElem?_append_left hlt, hmap] at hid
      exact (Option.some.inj hid).symm
  rw [heq]
  exact findChildLogs_of_distinct h' hdist hdone hrec

def rootEnv : Env := { myTaskID := 1 }

def rootFamily : Family where
  scopes := (run (Scopes.step rootEnv) {} [.beginPhase "R" .localMemory 1]).getD {}
  store := []
  child := none
  log := .create default .generateLog 1 1 1
  begun := []
  done := []

theorem rootFamily_start : Start rootEnv 1 rootFamily where
  scopes := ⟨[.beginPhase "R" .localMemory 1], by decide⟩
  trap := by decide
  frames := by decide
  pos := Nat.one_pos
  child := rfl
  log := ⟨rfl, .inr ⟨rfl, rfl⟩⟩
  unit := Nat.one_pos
  begun := rfl
  done := rfl

def childLog : CommLog := { smallChild 0 with newLogGenerated := true }

/-- The life of a child from `Create` to `Destroy`, with one log pushed. -/
def life (label : String) : List Op :=
  [.create "a" default 0 1, .beginCD label .localMemory 1, .completeCD childLog, .destroyCD]

theorem lives_packable (labels : List String) : LogsPackable (labels.flatMap life) := by
  intro log hlog
  obtain ⟨label, -, hmem⟩ := List.mem_flatMap.mp hlog
  obtain rfl : log = childLog := by simpa [life] using hmem
  have h := smallChild_packable 0
  exact ⟨h.1, h.2, h.3, h.4, h.5, h.6, h.7, h.8, h.9, h.10, h.11⟩

theorem distinct_of_chains {cs : List (List String)} (h : cs ⊆ [["y", "R"], ["x", "R"], ["R"]]) :
    Distinct 1 cs := by
  apply Distinct.mono _ h
  exact ⟨by decide, fun h => absurd h (by decide),
    Nat.le_trans (List.toFinset_card_le _) (by decide)⟩

theorem identifies_of_two_labels : ∃ st',
    Start rootEnv 1 rootFamily ∧ LogsPackable (["x", "y"].flatMap life) ∧
      run (step rootEnv 1) rootFamily (["x", "y"].flatMap life) = some st' ∧
      st'.done.length = 2 ∧ 0 < offset st' 1 ∧
      Identifies rootEnv 1 (["x", "y"].flatMap life) st' := by
  have hsome : (run (step rootEnv 1) rootFamily (["x", "y"].flatMap life)).isSome := by
    decide +kernel
  obtain ⟨st', hrun⟩ := Option.isSome_iff_exists.mp hsome
  have hfacts : ∀ st ∈ run (step rootEnv 1) rootFamily (["x", "y"].flatMap life),
      st.scopes.begun.map (·.chain) ⊆ [["y", "R"], ["x", "R"], ["R"]] ∧ st.done.length = 2 ∧
      0 < offset st 1 ∧
      (st.done.filter (·.record.isSome)).Pairwise fun a b => a.label ≠ b.label := by
    decide +kernel
  obtain ⟨hchains, hdone, hoffset, hlabels⟩ := hfacts st' hrun
  have hapart : Apart st' := hlabels.imp fun hne halike => hne halike.2.2.2.2.1
  exact ⟨st', rootFamily_start, lives_packable _, hrun, hdone, hoffset,
    (identifies_iff_apart rootFamily_start (lives_packable _) hrun
      (distinct_of_chains hchains)).mpr hapart⟩

theorem recreated_child_shares_id : ∃ st',
    Start rootEnv 1 rootFamily ∧ LogsPackable (["x", "x"].flatMap life) ∧
      run (step rootEnv 1) rootFamily (["x", "x"].flatMap life) = some st' ∧
      Distinct 1 (st'.scopes.begun.map (·.chain)) ∧
      findChildLogs st'.log (st'.begun.getD 1 default) = some (.ok, some 0) ∧ 0 < offset st' 1 ∧
      ¬ Identifies rootEnv 1 (["x", "x"].flatMap life) st' := by
  have hsome : (run (step rootEnv 1) rootFamily (["x", "x"].flatMap life)).isSome := by
    decide +kernel
  obtain ⟨st', hrun⟩ := Option.isSome_iff_exists.mp hsome
  have hfacts : ∀ st ∈ run (step rootEnv 1) rootFamily (["x", "x"].flatMap life),
      st.scopes.begun.map (·.chain) ⊆ [["y", "R"], ["x", "R"], ["R"]] ∧
      findChildLogs st.log (st.begun.getD 1 default) = some (.ok, some 0) ∧ 0 < offset st 1 ∧
      ¬ (st.done.filter (·.record.isSome)).Pairwise fun a b => a.id.same b.id = false := by
    decide +kernel
  obtain ⟨hchains, hfind, hoffset, hpair⟩ := hfacts st' hrun
  exact ⟨st', rootFamily_start, lives_packable _, hrun, distinct_of_chains hchains, hfind,
    hoffset, fun h => hpair h.distinct⟩

end CDRuntime.ChildLogs
