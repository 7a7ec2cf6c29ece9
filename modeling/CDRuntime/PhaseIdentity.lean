import CDRuntime.PhaseTree
import CDRuntime.Runs
import Mathlib.Data.Finset.Card

namespace CDRuntime.Phase
open Runs

/-- `GetPhasePath()` of a node with these labels above and including it. -/
def pathOf : List String → String
  | [] => ""
  | [l] => l
  | l :: c => pathOf c ++ "_" ++ l

/-- The key under which a chain of labels, the innermost first, is entered in `phasePath`; the root
is not entered. -/
def keyOf : List String → Option String
  | [] => none
  | [_] => none
  | [l, _] => some l
  | l :: c => some (pathOf c ++ "_" ++ l)

/-- The parent pointer of node `i`, when the labels above the node are `rest`. -/
def ParentOf (cs : List (List String)) (i : ℕ) (rest : List String) : Option ℕ → Prop
  | none => rest = [] ∧ i = 0
  | some j => j < i ∧ cs[j]? = some rest

/-- Node `i` stands for the chain `c`, and its parent for the rest of `c`. -/
structure Link (cs : List (List String)) (n : PhaseNode) (i : ℕ) (c : List String) : Prop where
  phase : n.phase = i
  chain : ∃ rest, c = n.label :: rest ∧ ParentOf cs i rest n.parent

/-- The nodes of the tree stand for the chains `cs`, in the order of creation. -/
structure Represents (t : PhaseTree) (cs : List (List String)) : Prop where
  length : t.heap.length = cs.length
  small : cs.length ≤ 2 ^ 32
  gen : t.phaseGen = cs.length % 2 ^ 32
  link : ∀ i c, cs[i]? = some c → Link cs (t.node i) i c
  path : ∀ k i, t.phasePath.lookup k = some i ↔ ∃ c, cs[i]? = some c ∧ keyOf c = some k
  cache : ∀ i, i < cs.length → t.phaseNodeCache.lookup i = some i
  root : t.root = if cs = [] then none else some 0

section Represents

variable {t : PhaseTree} {cs : List (List String)}

theorem Represents.empty : Represents {} [] where
  length := rfl
  small := by simp
  gen := rfl
  link := by simp
  path := by simp
  cache := by simp
  root := rfl

theorem Represents.ne_nil (h : Represents t cs) {i : ℕ} {c : List String} (hc : cs[i]? = some c) :
    c ≠ [] := by
  obtain ⟨rest, hrest, -⟩ := (h.link i c hc).chain
  simp [hrest]

theorem Represents.lt (h : Represents t cs) {i : ℕ} {c : List String} (hc : cs[i]? = some c) :
    i < t.heap.length := by
  rw [h.length]
  exact (List.getElem?_eq_some_iff.mp hc).1

/-- The parent pointer of a node, read off its chain. -/
theorem Represents.parent (h : Represents t cs) {i : ℕ} {l : String} {rest : List String}
    (hc : cs[i]? = some (l :: rest)) :
    (t.node i).label = l ∧ ParentOf cs i rest (t.node i).parent := by
  obtain ⟨rest', hrest, hp⟩ := (h.link i _ hc).chain
  obtain ⟨hl, hr⟩ := List.cons.inj hrest
  exact ⟨hl.symm, hr ▸ hp⟩

/-- Only the first node stands for a chain of one label. -/
theorem Represents.root_index (h : Represents t cs) {i : ℕ} {l : String}
    (hc : cs[i]? = some [l]) : i = 0 := by
  have hp := (h.parent hc).2
  cases hparent : (t.node i).parent with
  | none =>
      rw [hparent] at hp
      exact hp.2
  | some j =>
      rw [hparent] at hp
      exact absurd rfl (h.ne_nil hp.2)

/-- The first node has no parent. -/
theorem Represents.first (h : Represents t cs) {c : List String} (hc : cs[0]? = some c) :
    ∃ l, c = [l] ∧ (t.node 0).parent = none := by
  obtain ⟨rest, hrest, hp⟩ := (h.link 0 c hc).chain
  cases hparent : (t.node 0).parent with
  | none =>
      rw [hparent] at hp
      exact ⟨_, hp.1 ▸ hrest, rfl⟩
  | some j =>
      rw [hparent] at hp
      exact absurd hp.1 (Nat.not_lt_zero j)

theorem Represents.parent_some (h : Represents t cs) {i : ℕ} {l m : String} {c : List String}
    (hc : cs[i]? = some (l :: m :: c)) :
    ∃ j, (t.node i).parent = some j ∧ j < i ∧ cs[j]? = some (m :: c) := by
  have hp := (h.parent hc).2
  cases hparent : (t.node i).parent with
  | none =>
      rw [hparent] at hp
      exact absurd hp.1 (by simp)
  | some j =>
      rw [hparent] at hp
      exact ⟨j, rfl, hp⟩

theorem Represents.getPhasePath (h : Represents t cs) (fuel : ℕ) :
    ∀ i c, cs[i]? = some c → i ≤ fuel → t.getPhasePath fuel i = pathOf c := by
  induction fuel with
  | zero =>
      intro i c hc hi
      obtain rfl : i = 0 := Nat.le_zero.mp hi
      obtain ⟨l, rfl, -⟩ := h.first hc
      exact (h.parent hc).1
  | succ fuel ih =>
      intro i c hc hi
      rw [PhaseTree.getPhasePath]
      match c, hc with
      | [], hc => exact absurd rfl (h.ne_nil hc)
      | [l], hc =>
          obtain rfl := h.root_index hc
          obtain ⟨-, -, hp⟩ := h.first hc
          rw [hp]
          exact (h.parent hc).1
      | l :: m :: c, hc =>
          obtain ⟨j, hp, hj, hcj⟩ := h.parent_some hc
          rw [hp]
          dsimp only
          rw [ih j _ hcj (by omega), (h.parent hc).1]
          rfl

/-- The string that is looked up for a child is the key of the child's chain. -/
theorem Represents.getPhasePathOf (h : Represents t cs) {i : ℕ} {c : List String}
    (hc : cs[i]? = some c) (label : String) :
    keyOf (label :: c) = some (t.getPhasePathOf i label) := by
  unfold PhaseTree.getPhasePathOf
  match c, hc with
  | [], hc => exact absurd rfl (h.ne_nil hc)
  | [l], hc =>
      obtain rfl := h.root_index hc
      obtain ⟨-, -, hp⟩ := h.first hc
      rw [hp]
      rfl
  | l :: m :: c, hc =>
      obtain ⟨j, hp, -, -⟩ := h.parent_some hc
      rw [hp]
      dsimp only
      rw [h.getPhasePath i i _ hc (Nat.le_refl i)]
      rfl

theorem keyOf_eq_none {c : List String} (hc : c ≠ []) (h : keyOf c = none) : ∃ l, c = [l] := by
  match c with
  | [] => exact absurd rfl hc
  | [l] => exact ⟨l, rfl⟩
  | [_, _] => cases h
  | _ :: _ :: _ :: _ => cases h

/-- Chains of different nodes have different keys. -/
theorem Represents.key_injective (h : Represents t cs) {i j : ℕ} {c d : List String}
    (hc : cs[i]? = some c) (hd : cs[j]? = some d) (hkey : keyOf c = keyOf d) : i = j := by
  cases hk : keyOf c with
  | none =>
      obtain ⟨l, rfl⟩ := keyOf_eq_none (h.ne_nil hc) hk
      obtain ⟨m, rfl⟩ := keyOf_eq_none (h.ne_nil hd) (hkey ▸ hk)
      rw [h.root_index hc, h.root_index hd]
  | some k =>
      have hi := (h.path k i).mpr ⟨c, hc, hk⟩
      have hj := (h.path k j).mpr ⟨d, hd, hkey ▸ hk⟩
      exact Option.some.inj (hi.symm.trans hj)

theorem Represents.nodup (h : Represents t cs) : cs.Nodup := by
  rw [List.nodup_iff_getElem?_ne_getElem?]
  intro i j hij hj heq
  obtain ⟨c, hc⟩ : ∃ c, cs[j]? = some c := ⟨_, List.getElem?_eq_getElem hj⟩
  exact Nat.ne_of_lt hij (h.key_injective (heq.trans hc) hc rfl)

/-- An update that keeps labels, parents, numbers and maps keeps what the tree stands for. -/
theorem Represents.congr (h : Represents t cs) {t' : PhaseTree}
    (hlength : t'.heap.length = t.heap.length) (hgen : t'.phaseGen = t.phaseGen)
    (hpath : t'.phasePath = t.phasePath) (hcache : t'.phaseNodeCache = t.phaseNodeCache)
    (hroot : t'.root = t.root)
    (hnode : ∀ q, (t'.node q).phase = (t.node q).phase ∧ (t'.node q).label = (t.node q).label ∧
      (t'.node q).parent = (t.node q).parent) : Represents t' cs where
  length := hlength.trans h.length
  small := h.small
  gen := hgen.trans h.gen
  link i c hc := by
    obtain ⟨hphase, hlabel, hparent⟩ := hnode i
    constructor
    · rw [hphase, (h.link i c hc).phase]
    · rw [hlabel, hparent]
      exact (h.link i c hc).chain
  path := by rw [hpath]; exact h.path
  cache := by rw [hcache]; exact h.cache
  root := hroot.trans h.root

theorem Represents.modify (h : Represents t cs) (p : ℕ) {f : PhaseNode → PhaseNode}
    (hphase : ∀ n, (f n).phase = n.phase) (hlabel : ∀ n, (f n).label = n.label)
    (hparent : ∀ n, (f n).parent = n.parent) : Represents (t.modify p f) cs := by
  apply h.congr (PhaseTree.modify_length t p f) rfl rfl rfl rfl
  intro q
  constructor
  · exact PhaseTree.modify_field t p q f (·.phase) hphase
  constructor
  · exact PhaseTree.modify_field t p q f (·.label) hlabel
  · exact PhaseTree.modify_field t p q f (·.parent) hparent

theorem Represents.setCurrent (h : Represents t cs) (p : Option ℕ) :
    Represents { t with current := p } cs :=
  h.congr rfl rfl rfl rfl rfl fun _ => ⟨rfl, rfl, rfl⟩

theorem Represents.configure (h : Represents t cs) (env : Env) (p : ℕ) (label : String)
    (medium : PrvMedium) (errorVec : ℤ) :
    Represents (t.configure env p label medium errorVec) cs := by
  obtain heq | ⟨e, m, heq⟩ := t.configure_cases env p label medium errorVec
  · rw [heq]
    exact h
  · rw [heq]
    exact h.modify p (fun _ => rfl) (fun _ => rfl) (fun _ => rfl)

/-- Entering an old phase changes the current node and at most its state. -/
theorem Represents.enterPhase (h : Represents t cs) (self p : ℕ) :
    Represents (t.enterPhase self p) cs := by
  unfold PhaseTree.enterPhase
  dsimp only
  split
  · exact (h.setCurrent _).modify p (fun _ => rfl) (fun _ => rfl) (fun _ => rfl)
  · exact h.setCurrent _

theorem getElem?_concat {α : Type*} {xs : List α} {x y : α} {i : ℕ} :
    (xs ++ [x])[i]? = some y ↔ xs[i]? = some y ∨ i = xs.length ∧ x = y := by
  rw [List.getElem?_append]
  by_cases hi : i < xs.length
  · rw [if_pos hi]
    simp [Nat.ne_of_lt hi]
  · rw [if_neg hi, List.getElem?_eq_none (Nat.le_of_not_lt hi), List.getElem?_singleton]
    by_cases hi' : i = xs.length
    · simp [hi']
    · have : i - xs.length ≠ 0 := by omega
      simp [hi', this]

theorem Represents.link_newNode (h : Represents t cs) {t' : PhaseTree} {parent : Option ℕ}
    {level : ℕ} {label : String} {state : ExecMode} {c : List String}
    (heap : t'.heap = (t.newNode parent level label state).heap) (hgen : t.phaseGen = cs.length)
    (hparent : ParentOf cs cs.length c parent) :
    ∀ i d, (cs ++ [label :: c])[i]? = some d → Link (cs ++ [label :: c]) (t'.node i) i d := by
  have hnode : ∀ q, t'.node q = (t.newNode parent level label state).node q := by
    intro q
    rw [PhaseTree.node, heap]
    rfl
  intro i d hd
  rw [hnode]
  obtain hd | ⟨rfl, rfl⟩ := getElem?_concat.mp hd
  · -- an old node keeps its number, label and parent
    have hi : i ≠ t.heap.length := Nat.ne_of_lt (h.lt hd)
    have hl := h.link i d hd
    constructor
    · rw [t.newNode_field parent level label state (·.phase) (fun _ _ => rfl) (fun _ _ => rfl) i hi,
        hl.phase]
    · rw [t.newNode_field parent level label state (·.label) (fun _ _ => rfl) (fun _ _ => rfl) i hi,
        t.newNode_field parent level label state (·.parent) (fun _ _ => rfl) (fun _ _ => rfl) i hi]
      obtain ⟨rest, hrest, hp⟩ := hl.chain
      refine ⟨rest, hrest, ?_⟩
      cases hpar : (t.node i).parent with
      | none => rwa [hpar] at hp
      | some j =>
          rw [hpar] at hp
          exact ⟨hp.1, getElem?_concat.mpr (.inl hp.2)⟩
  · rw [← h.length, PhaseTree.node_newNode_self]
    constructor
    · exact hgen.trans h.length.symm
    · refine ⟨c, rfl, ?_⟩
      cases parent with
      | none => exact ⟨hparent.1, h.length.trans hparent.2⟩
      | some j => exact ⟨h.length ▸ hparent.1, getElem?_concat.mpr (.inl hparent.2)⟩

/-- A phase with a new key is a new node, and stands for the child's chain. -/
theorem Represents.addPhase (h : Represents t cs) {self : ℕ} {c : List String}
    (hcur : t.current = some self) (hc : cs[self]? = some c) (level : ℕ) (label : String)
    (hnew : t.phasePath.lookup (t.getPhasePathOf self label) = none) (hroom : cs.length < 2 ^ 32) :
    Represents (t.addPhase self level label (t.getPhasePathOf self label)) (cs ++ [label :: c]) := by
  have hself : self < cs.length := h.length ▸ h.lt hc
  have hgen : t.phaseGen = cs.length := by rw [h.gen, Nat.mod_eq_of_lt hroom]
  have hkey := h.getPhasePathOf hc label
  constructor
  · simp [PhaseTree.addPhase, h.length]
  · rw [List.length_append]
    exact hroom
  · simp [PhaseTree.addPhase, hgen]
  · exact h.link_newNode rfl hgen (by rw [hcur]; exact ⟨hself, hc⟩)
  · -- the map gains the one key
    intro k i
    have hpp : (t.addPhase self level label (t.getPhasePathOf self label)).phasePath =
        (t.getPhasePathOf self label, cs.length) :: t.phasePath := by
      simp [PhaseTree.addPhase, hgen]
    rw [hpp, List.lookup_cons]
    by_cases hk : k = t.getPhasePathOf self label
    · subst hk
      simp only [BEq.rfl]
      constructor
      · intro hi
        obtain rfl := Option.some.inj hi
        exact ⟨label :: c, getElem?_concat.mpr (.inr ⟨rfl, rfl⟩), hkey⟩
      · rintro ⟨d, hd, hdk⟩
        obtain hd | ⟨rfl, -⟩ := getElem?_concat.mp hd
        · have := (h.path _ i).mpr ⟨d, hd, hdk⟩
          rw [hnew] at this
          cases this
        · rfl
    · rw [beq_false_of_ne hk]
      dsimp only
      rw [h.path k i]
      constructor
      · rintro ⟨d, hd, hdk⟩
        exact ⟨d, getElem?_concat.mpr (.inl hd), hdk⟩
      · rintro ⟨d, hd, hdk⟩
        obtain hd | ⟨-, rfl⟩ := getElem?_concat.mp hd
        · exact ⟨d, hd, hdk⟩
        · rw [hkey] at hdk
          exact absurd (Option.some.inj hdk).symm hk
  · intro i hi
    have hcc : (t.addPhase self level label (t.getPhasePathOf self label)).phaseNodeCache =
        (cs.length, cs.length) :: t.phaseNodeCache := by
      simp [PhaseTree.addPhase, hgen, h.length]
    rw [hcc, List.lookup_cons]
    by_cases hk : i = cs.length
    · simp [hk]
    · rw [beq_false_of_ne hk]
      apply h.cache
      rw [List.length_append, List.length_singleton] at hi
      omega
  · have hcs : cs ≠ [] := by
      rintro rfl
      exact absurd hself (Nat.not_lt_zero _)
    rw [if_neg (by simp)]
    simp [PhaseTree.addPhase, h.root, hcs]

/-- `BeginPhase` below an open phase, in terms of the key of the new chain. -/
theorem Represents.beginPhase (h : Represents t cs) {self : ℕ} {c : List String}
    (hcur : t.current = some self) (hc : cs[self]? = some c) {label k : String}
    (hk : keyOf (label :: c) = some k) (env : Env) (level : ℕ) (medium : PrvMedium)
    (errorVec : ℤ) :
    t.beginPhase env level label medium errorVec =
      if env.myTaskID = 0 ∧ k = "Root_MainLoop_CalcPos" then .error .leftover
      else
        match t.phasePath.lookup k with
        | none =>
            if (t.node self).state ≠ .execution then .error .newPhase
            else
              .ok (t.phaseGen,
                (t.addPhase self level label k).configure env t.heap.length label medium errorVec)
        | some i =>
            .ok (i, (t.enterPhase self i).configure env i label medium errorVec) := by
  obtain rfl : k = t.getPhasePathOf self label :=
    Option.some.inj (hk.symm.trans (h.getPhasePathOf hc label))
  unfold PhaseTree.beginPhase
  rw [hcur]
  dsimp only
  unfold PhaseTree.getPhaseNode
  dsimp only
  cases hl : t.phasePath.lookup (t.getPhasePathOf self label) with
  | none => rfl
  | some i =>
      obtain ⟨d, hd, -⟩ := (h.path _ i).mp hl
      have hi := h.cache i (List.getElem?_eq_some_iff.mp hd).1
      dsimp only
      rw [hi]
      rfl

/-- The root of an empty tree. -/
theorem Represents.init (h : Represents t []) (level : ℕ) (label : String) :
    (t.init level label).1 = 0 ∧ Represents (t.init level label).2 [[label]] := by
  have hgen : t.phaseGen = 0 := h.gen
  have hlen : t.heap = [] := List.length_eq_zero_iff.mp h.length
  refine ⟨hgen, ?_, by simp, ?_, ?_, ?_, ?_, ?_⟩
  · simp [PhaseTree.init, hlen]
  · simp [PhaseTree.init, hgen]
  · exact h.link_newNode rfl hgen ⟨rfl, rfl⟩
  · intro k i
    have hpath := h.path k i
    simp only [List.getElem?_nil] at hpath
    constructor
    · intro hk
      have hk' : t.phasePath.lookup k = some i := by simpa [PhaseTree.init] using hk
      obtain ⟨c, hc, -⟩ := hpath.mp hk'
      cases hc
    · rintro ⟨c, hc, hk⟩
      have hc' : ([] ++ [[label]])[i]? = some c := hc
      obtain hc' | ⟨-, rfl⟩ := getElem?_concat.mp hc'
      · cases hc'
      · cases hk
  · intro i hi
    obtain rfl : i = 0 := Nat.lt_one_iff.mp hi
    simp [PhaseTree.init, hgen, hlen]
  · simp [PhaseTree.init, hlen]

end Represents

/-- A call of `BeginPhase`, with the medium and the error types of the CD, or of
`CompletePhase`. -/
inductive Op where
  | beginPhase (label : String) (medium : PrvMedium) (errorVec : ℤ)
  | completePhase
  deriving DecidableEq, Repr

/-- An open phase: its label, the phase it received and the current node before it. -/
structure Frame where
  label : String
  phase : ℕ
  before : Option ℕ
  deriving DecidableEq, Repr

/-- A `BeginPhase` of the run: its chain of labels, the phase it received and the enclosing
phase. -/
structure Begun where
  chain : List String
  phase : ℕ
  enclosing : Option ℕ
  deriving DecidableEq, Repr

structure Scopes where
  tree : PhaseTree := {}
  frames : List Frame := []
  begun : List Begun := []
  -- the current node after each `CompletePhase`, and the one before its `BeginPhase`
  returned : List (Option ℕ × Option ℕ) := []
  trap : Option Trap := none
  deriving DecidableEq, Repr

def Scopes.labels (s : Scopes) : List String :=
  s.frames.map (·.label)

/-- One call in healthy state; a failed assertion ends the run, and a `CompletePhase` without
a `BeginPhase` is not well nested. -/
def Scopes.step (env : Env) (s : Scopes) : Op → Option Scopes
  | .beginPhase label medium errorVec =>
      if s.trap.isSome then none
      else
        match s.tree.beginPhase env (s.frames.length % 2 ^ 32) label medium errorVec with
        | .error e => some { s with trap := some e }
        | .ok (phase, t) => some { s with
            tree := t
            frames := ⟨label, phase, s.tree.current⟩ :: s.frames
            begun := ⟨label :: s.labels, phase, s.frames.head?.map (·.phase)⟩ :: s.begun }
  | .completePhase =>
      if s.trap.isSome then none
      else
        match s.frames with
        | [] => none
        | f :: fs =>
            match s.tree.completePhase true false with
            | .error e => some { s with trap := some e }
            | .ok t => some { s with
                tree := t
                frames := fs
                returned := (t.current, f.before) :: s.returned }

def PhaseTree.nodeOf (t : PhaseTree) (phase : ℕ) : Option ℕ :=
  t.phaseNodeCache.lookup phase

/-- Identity of phases and stack discipline, for all calls so far. -/
structure Identified (s : Scopes) : Prop where
  trap : s.trap = none
  same : ∀ b ∈ s.begun, ∀ b' ∈ s.begun, b.phase = b'.phase ↔ b.chain = b'.chain
  parent : ∀ b ∈ s.begun, ∃ p, s.tree.nodeOf b.phase = some p ∧
    (s.tree.node p).parent = b.enclosing.bind s.tree.nodeOf
  returned : ∀ r ∈ s.returned, r.1 = r.2

/-- The chains of the `BeginPhase` calls of a well-nested sequence. -/
def begunChains : List String → List Op → List (List String)
  | _, [] => []
  | c, .beginPhase label _ _ :: ops => (label :: c) :: begunChains (label :: c) ops
  | [], .completePhase :: _ => []
  | _ :: c, .completePhase :: ops => begunChains c ops

theorem last_separator {p q l m : List Char} (hl : '_' ∉ l) (hm : '_' ∉ m)
    (h : p ++ '_' :: l = q ++ '_' :: m) : p = q ∧ l = m := by
  have htake : ∀ {r k : List Char}, '_' ∉ k →
      (r ++ '_' :: k).reverse.takeWhile (· ≠ '_') = k.reverse := by
    intro r k hk
    rw [List.reverse_append, List.reverse_cons, List.append_assoc,
      List.takeWhile_append_of_pos fun c hc => by
        rw [decide_eq_true_eq]
        rintro rfl
        exact hk (List.mem_reverse.mp hc)]
    simp
  have heq : l = m := by
    apply List.reverse_injective
    rw [← htake hl (r := p), ← htake hm (r := q), h]
  subst heq
  exact ⟨List.append_cancel_right h, rfl⟩

theorem pathOf_cons (l : String) {c : List String} (hc : c ≠ []) :
    (pathOf (l :: c)).toList = (pathOf c).toList ++ '_' :: l.toList := by
  obtain ⟨m, c, rfl⟩ := List.exists_cons_of_ne_nil hc
  rw [pathOf, String.toList_append, String.toList_append, List.append_assoc]
  · rfl
  · exact hc

theorem pathOf_injective {c : List String} : ∀ {d : List String}, c ≠ [] → d ≠ [] →
    (∀ l ∈ c, '_' ∉ l.toList) → (∀ l ∈ d, '_' ∉ l.toList) → pathOf c = pathOf d → c = d := by
  induction c with
  | nil => exact fun h => absurd rfl h
  | cons l c ih =>
      intro d _ hd hplain hplain' hpath
      obtain ⟨m, d, rfl⟩ := List.exists_cons_of_ne_nil hd
      have hl := hplain l List.mem_cons_self
      have hm := hplain' m List.mem_cons_self
      have hchars := congrArg String.toList hpath
      by_cases hc : c = []
      · by_cases hd : d = []
        · subst hc hd
          rw [show l = m from hpath]
        · subst hc
          rw [pathOf_cons m hd] at hchars
          have hmem : '_' ∈ l.toList := by
            rw [show l.toList = _ from hchars]
            exact List.mem_append_right _ List.mem_cons_self
          exact absurd hmem hl
      · by_cases hd : d = []
        · subst hd
          rw [pathOf_cons l hc] at hchars
          have hmem : '_' ∈ m.toList := by
            rw [show m.toList = _ from hchars.symm]
            exact List.mem_append_right _ List.mem_cons_self
          exact absurd hmem hm
        · rw [pathOf_cons l hc, pathOf_cons m hd] at hchars
          obtain ⟨hinit, hlast⟩ := last_separator hl hm hchars
          have hlabel := String.toList_inj.mp hlast
          have hrest := ih hc hd (fun k hk => hplain k (List.mem_cons_of_mem _ hk))
            (fun k hk => hplain' k (List.mem_cons_of_mem _ hk)) (String.toList_inj.mp hinit)
          rw [hlabel, hrest]

theorem keyOf_eq_path {c : List String} {k : String} (h : keyOf c = some k) :
    (∃ l r, c = [l, r] ∧ k = pathOf [l]) ∨ 3 ≤ c.length ∧ k = pathOf c := by
  match c with
  | [] => cases h
  | [_] => cases h
  | [l, r] => exact .inl ⟨l, r, rfl, (Option.some.inj h).symm⟩
  | l :: m :: r :: c =>
      right
      refine ⟨by simp, ?_⟩
      exact (Option.some.inj h).symm

theorem keyOf_injective {root : String} {c d : List String} (hc : c.getLast? = some root)
    (hd : d.getLast? = some root) (hplain : ∀ l ∈ c, '_' ∉ l.toList)
    (hplain' : ∀ l ∈ d, '_' ∉ l.toList) (hkey : keyOf c = keyOf d) : c = d := by
  have hne : ∀ {e : List String}, e.getLast? = some root → e ≠ [] := by
    rintro e he rfl
    cases he
  cases hk : keyOf c with
  | none =>
      obtain ⟨l, rfl⟩ := keyOf_eq_none (hne hc) hk
      obtain ⟨m, rfl⟩ := keyOf_eq_none (hne hd) (hkey ▸ hk)
      rw [Option.some.inj (show some l = some root from hc),
        Option.some.inj (show some m = some root from hd)]
  | some k =>
      have hk' : keyOf d = some k := hkey ▸ hk
      obtain ⟨l, r, rfl, hl⟩ | ⟨hlen, hpath⟩ := keyOf_eq_path hk
      · obtain ⟨m, r', rfl, hm⟩ | ⟨hlen', hpath'⟩ := keyOf_eq_path hk'
        · rw [Option.some.inj (show some r = some root from hc),
            Option.some.inj (show some r' = some root from hd)]
          rw [show l = m from hl.symm.trans hm]
        · have heq := pathOf_injective (List.cons_ne_nil _ _) (hne hd)
            (fun x hx => hplain x (by simp_all)) hplain' (hl.symm.trans hpath')
          rw [← heq] at hlen'
          simp at hlen'
      · obtain ⟨m, r', rfl, hm⟩ | ⟨hlen', hpath'⟩ := keyOf_eq_path hk'
        · have heq := pathOf_injective (hne hc) (List.cons_ne_nil _ _) hplain
            (fun x hx => hplain' x (by simp_all)) (hpath.symm.trans hm)
          rw [heq] at hlen
          simp at hlen
        · exact pathOf_injective (hne hc) (hne hd) hplain hplain' (hpath.symm.trans hpath')
/-- Different chains have different keys, no chain has the key of the leftover assertion, and
the phases fit into 32 bits. -/
structure Distinct (task : ℕ) (cs : List (List String)) : Prop where
  keys : ∀ c ∈ cs, ∀ d ∈ cs, keyOf c = keyOf d → c = d
  leftover : task = 0 → ∀ c ∈ cs, keyOf c ≠ some "Root_MainLoop_CalcPos"
  count : cs.toFinset.card ≤ 2 ^ 32

instance (task : ℕ) (cs : List (List String)) : Decidable (Distinct task cs) :=
  decidable_of_iff ((∀ c ∈ cs, ∀ d ∈ cs, keyOf c = keyOf d → c = d) ∧
      (task = 0 → ∀ c ∈ cs, keyOf c ≠ some "Root_MainLoop_CalcPos") ∧
      cs.toFinset.card ≤ 2 ^ 32)
    ⟨fun h => ⟨h.1, h.2.1, h.2.2⟩, fun h => ⟨h.keys, h.leftover, h.count⟩⟩

theorem Distinct.mono {task : ℕ} {cs ds : List (List String)} (h : Distinct task ds)
    (hsub : cs ⊆ ds) : Distinct task cs where
  keys c hc d hd := h.keys c (hsub hc) d (hsub hd)
  leftover htask c hc := h.leftover htask c (hsub hc)
  count := by
    apply le_trans (Finset.card_le_card _) h.count
    intro c hc
    exact List.mem_toFinset.mpr (hsub (List.mem_toFinset.mp hc))

theorem Distinct.cons_of_mem {task : ℕ} {cs : List (List String)} (h : Distinct task cs)
    {c : List String} (hc : c ∈ cs) : Distinct task (c :: cs) :=
  h.mono (List.cons_subset.mpr ⟨hc, List.Subset.refl _⟩)

theorem Distinct.cons_new {task : ℕ} {cs : List (List String)} (h : Distinct task cs)
    {c : List String} (hkey : ∀ d ∈ cs, keyOf c ≠ keyOf d)
    (hleft : task = 0 → keyOf c ≠ some "Root_MainLoop_CalcPos")
    (hroom : cs.toFinset.card < 2 ^ 32) : Distinct task (c :: cs) where
  keys d hd e he heq := by
    obtain rfl | hd := List.mem_cons.mp hd
    · obtain rfl | he := List.mem_cons.mp he
      · rfl
      · exact absurd heq (hkey e he)
    · obtain hec | he := List.mem_cons.mp he
      · exact absurd (hec ▸ heq.symm) (hkey d hd)
      · exact h.keys d hd e he heq
  leftover htask d hd heq := by
    obtain rfl | hd := List.mem_cons.mp hd
    · exact hleft htask heq
    · exact h.leftover htask d hd heq
  count := by
    rw [List.toFinset_cons]
    exact le_trans (Finset.card_insert_le _ _) hroom

/-- The open phases stand for the suffixes of the chain of open labels. -/
def Stacked (cs : List (List String)) : List Frame → Prop
  | [] => True
  | f :: fs => cs[f.phase]? = some (f.label :: fs.map (·.label)) ∧
      f.before = fs.head?.map (·.phase) ∧ Stacked cs fs

theorem Stacked.append {cs : List (List String)} (x : List String) {fs : List Frame}
    (h : Stacked cs fs) : Stacked (cs ++ [x]) fs := by
  induction fs with
  | nil => trivial
  | cons f fs ih => exact ⟨getElem?_concat.mpr (.inl h.1), h.2.1, ih h.2.2⟩

structure Healthy (task : ℕ) (cs : List (List String)) (s : Scopes) : Prop where
  tree : Represents s.tree cs
  exec : ∀ i < cs.length, (s.tree.node i).state = .execution
  stack : Stacked cs s.frames
  current : s.tree.current = s.frames.head?.map (·.phase)
  trap : s.trap = none
  chains : ∀ c, c ∈ cs ↔ c ∈ s.begun.map (·.chain)
  begun : ∀ b ∈ s.begun, cs[b.phase]? = some b.chain ∧
    (s.tree.node b.phase).parent = b.enclosing
  returned : ∀ r ∈ s.returned, r.1 = r.2
  distinct : Distinct task (s.begun.map (·.chain))

theorem Healthy.identified {task : ℕ} {cs : List (List String)} {s : Scopes}
    (h : Healthy task cs s) : Identified s where
  trap := h.trap
  same b hb b' hb' := by
    have hc := (h.begun b hb).1
    have hc' := (h.begun b' hb').1
    constructor
    · intro heq
      rw [heq, hc'] at hc
      exact (Option.some.inj hc).symm
    · intro heq
      exact h.tree.key_injective hc hc' (congrArg keyOf heq)
  parent b hb := by
    obtain ⟨hc, hp⟩ := h.begun b hb
    refine ⟨b.phase, h.tree.cache _ (List.getElem?_eq_some_iff.mp hc).1, ?_⟩
    rw [hp]
    cases henc : b.enclosing with
    | none => rfl
    | some q =>
        obtain ⟨rest, -, hq⟩ := (h.tree.link _ _ hc).chain
        rw [hp, henc] at hq
        exact (h.tree.cache q (List.getElem?_eq_some_iff.mp hq.2).1).symm
  returned := h.returned

/-- The node stands for the chain `c`; there is none for the empty chain. -/
def Position (cs : List (List String)) (c : List String) : Option ℕ → Prop
  | none => c = []
  | some i => cs[i]? = some c

/-- The tree after a `BeginPhase` that received the phase of its chain `c`. -/
structure Began (t : PhaseTree) (cs : List (List String)) (c : List String) (phase : ℕ)
    (t' : PhaseTree) (cs' : List (List String)) : Prop where
  tree : Represents t' cs'
  exec : ∀ i < cs'.length, (t'.node i).state = .execution
  chain : cs'[phase]? = some c
  current : t'.current = some phase
  mem : ∀ d, d ∈ cs' ↔ d = c ∨ d ∈ cs
  grow : cs' = cs ∨ cs' = cs ++ [c]
  keep : ∀ i < cs.length, (t'.node i).parent = (t.node i).parent
  parent : (t'.node phase).parent = t.current

section Begin

variable {t : PhaseTree} {cs : List (List String)}
variable (env : Env) (level : ℕ) (label : String) (medium : PrvMedium) (errorVec : ℤ)

theorem begin_first (h : Represents t []) (hcur : t.current = none) :
    ∃ t', t.beginPhase env level label medium errorVec = .ok (0, t') ∧
      Began t [] [label] 0 t' [[label]] := by
  obtain ⟨hphase, hrep⟩ := h.init level label
  have hlen : t.heap = [] := List.length_eq_zero_iff.mp h.length
  have hroot : t.root = none := h.root
  have hnode : (t.init level label).2.node 0 =
      (t.newNode none level label .execution).node t.heap.length := by
    rw [hlen]
    rfl
  have hfield : ∀ {α : Type} (g : PhaseNode → α),
      (∀ n, g { n with medium := .globalDisk, errortype := -1 } = g n) →
      g (((t.init level label).2.modify ((t.init level label).2.root.getD 0) fun n =>
          { n with medium := .globalDisk, errortype := -1 }).node 0) =
        g ((t.init level label).2.node 0) := by
    intro α g hg
    exact PhaseTree.modify_field _ _ _ _ g hg
  refine ⟨(t.init level label).2.modify ((t.init level label).2.root.getD 0) fun n =>
    { n with medium := .globalDisk, errortype := -1 }, ?_, ?_, ?_, rfl, ?_, ?_, ?_, ?_, ?_⟩
  · unfold PhaseTree.beginPhase
    rw [hcur]
    dsimp only
    rw [hroot]
    dsimp only
    rw [hphase]
  · exact hrep.modify _ (fun _ => rfl) (fun _ => rfl) (fun _ => rfl)
  · intro i hi
    obtain rfl : i = 0 := Nat.lt_one_iff.mp hi
    rw [hfield (·.state) fun _ => rfl, hnode, PhaseTree.node_newNode_self]
  · simp [PhaseTree.init, hlen]
  · simp
  · exact .inr rfl
  · intro i hi
    exact absurd hi (Nat.not_lt_zero i)
  · rw [hfield (·.parent) fun _ => rfl, hnode, PhaseTree.node_newNode_self, hcur]

theorem begin_again (h : Represents t cs) (hcur : t.current = none) (hcs : cs ≠ []) :
    t.beginPhase env level label medium errorVec = .ok (0, { t with current := some 0 }) := by
  obtain ⟨c, hc⟩ : ∃ c, cs[0]? = some c := ⟨_, List.getElem?_eq_getElem (List.length_pos_iff.mpr hcs)⟩
  unfold PhaseTree.beginPhase
  rw [hcur]
  dsimp only
  rw [h.root, if_neg hcs]
  dsimp only
  rw [(h.link 0 c hc).phase]

theorem began_root (h : Represents t cs) (hexec : ∀ i < cs.length, (t.node i).state = .execution)
    (hcur : t.current = none) (hc : cs[0]? = some [label]) :
    Began t cs [label] 0 { t with current := some 0 } cs where
  tree := h.setCurrent _
  exec := hexec
  chain := hc
  current := rfl
  mem d := by
    constructor
    · exact .inr
    · rintro (rfl | hd)
      · exact List.mem_of_getElem? hc
      · exact hd
  grow := .inl rfl
  keep _ _ := rfl
  parent := by
    obtain ⟨-, -, hp⟩ := h.first hc
    rw [hcur]
    exact hp

theorem began_old (h : Represents t cs) (hexec : ∀ i < cs.length, (t.node i).state = .execution)
    {self i : ℕ} {c : List String} (hcur : t.current = some self) (hself : cs[self]? = some c)
    (hc : cs[i]? = some (label :: c)) :
    Began t cs (label :: c) i ((t.enterPhase self i).configure env i label medium errorVec) cs := by
  have henter : t.enterPhase self i = { t with current := some i } := by
    unfold PhaseTree.enterPhase
    rw [hexec self (List.getElem?_eq_some_iff.mp hself).1]
    rfl
  rw [henter]
  refine ⟨(h.setCurrent _).configure _ _ _ _ _, ?_, hc, ?_, ?_, .inl rfl, ?_, ?_⟩
  · intro j hj
    rw [PhaseTree.configure_field _ _ _ _ _ _ (·.state) fun _ _ _ => rfl]
    exact hexec j hj
  · rw [PhaseTree.configure_current]
  · intro d
    constructor
    · exact .inr
    · rintro (rfl | hd)
      · exact List.mem_of_getElem? hc
      · exact hd
  · intro j _
    rw [PhaseTree.configure_field _ _ _ _ _ _ (·.parent) fun _ _ _ => rfl]
    rfl
  · rw [PhaseTree.configure_field _ _ _ _ _ _ (·.parent) fun _ _ _ => rfl, hcur]
    obtain ⟨m, c', rfl⟩ := List.exists_cons_of_ne_nil (h.ne_nil hself)
    obtain ⟨j, hp, -, hj⟩ := h.parent_some hc
    rw [h.key_injective hself hj rfl]
    exact hp

theorem began_new (h : Represents t cs) (hexec : ∀ i < cs.length, (t.node i).state = .execution)
    {self : ℕ} {c : List String} {k : String} (hcur : t.current = some self)
    (hself : cs[self]? = some c) (hk : keyOf (label :: c) = some k)
    (hnew : t.phasePath.lookup k = none) (hroom : cs.length < 2 ^ 32) :
    Began t cs (label :: c) cs.length
      ((t.addPhase self level label k).configure env t.heap.length label medium errorVec)
      (cs ++ [label :: c]) := by
  obtain rfl : k = t.getPhasePathOf self label :=
    Option.some.inj (hk.symm.trans (h.getPhasePathOf hself label))
  have hlt := (List.getElem?_eq_some_iff.mp hself).1
  have hrep := h.addPhase hcur hself level label hnew hroom
  have hnode : ∀ j, (t.addPhase self level label (t.getPhasePathOf self label)).node j =
      (t.newNode t.current level label (t.node self).state).node j := fun _ => rfl
  refine ⟨hrep.configure _ _ _ _ _, ?_, by simp, ?_, by simp [or_comm], .inr rfl, ?_, ?_⟩
  · intro j hj
    rw [PhaseTree.configure_field _ _ _ _ _ _ (·.state) fun _ _ _ => rfl, hnode]
    by_cases hj' : j = t.heap.length
    · rw [hj', PhaseTree.node_newNode_self, hexec self hlt]
    · rw [t.newNode_field _ _ _ _ (·.state) (fun _ _ => rfl) (fun _ _ => rfl) j hj']
      apply hexec
      rw [h.length] at hj'
      rw [List.length_append, List.length_singleton] at hj
      omega
  · rw [PhaseTree.configure_current, ← h.length]
    rfl
  · intro j hj
    rw [PhaseTree.configure_field _ _ _ _ _ _ (·.parent) fun _ _ _ => rfl, hnode,
      t.newNode_field _ _ _ _ (·.parent) (fun _ _ => rfl) (fun _ _ => rfl) j
        (by rw [h.length]; omega)]
  · rw [PhaseTree.configure_field _ _ _ _ _ _ (·.parent) fun _ _ _ => rfl, hnode, ← h.length,
      PhaseTree.node_newNode_self]

theorem Represents.begin_distinct (h : Represents t cs)
    (hexec : ∀ i < cs.length, (t.node i).state = .execution) {c : List String}
    (hpos : Position cs c t.current) (hd : Distinct env.myTaskID ((label :: c) :: cs)) :
    ∃ phase t' cs', t.beginPhase env level label medium errorVec = .ok (phase, t') ∧
      Began t cs (label :: c) phase t' cs' := by
  cases hcur : t.current with
  | none =>
      rw [hcur] at hpos
      obtain rfl : c = [] := hpos
      by_cases hcs : cs = []
      · subst hcs
        obtain ⟨t', hbegin, hbegan⟩ := begin_first env level label medium errorVec h hcur
        exact ⟨0, t', _, hbegin, hbegan⟩
      · have hbegin := begin_again env level label medium errorVec h hcur hcs
        obtain ⟨c, hc⟩ : ∃ c, cs[0]? = some c :=
          ⟨_, List.getElem?_eq_getElem (List.length_pos_iff.mpr hcs)⟩
        obtain ⟨l, rfl, -⟩ := h.first hc
        have heq : [label] = [l] := hd.keys _ List.mem_cons_self _
          (List.mem_cons_of_mem _ (List.mem_of_getElem? hc)) rfl
        rw [← heq] at hc
        exact ⟨0, _, cs, hbegin, began_root label h hexec hcur hc⟩
  | some self =>
      rw [hcur] at hpos
      have hself : cs[self]? = some c := hpos
      have hk := h.getPhasePathOf hself label
      have hstate := hexec self (List.getElem?_eq_some_iff.mp hself).1
      rw [h.beginPhase hcur hself hk, if_neg]
      · cases hl : t.phasePath.lookup (t.getPhasePathOf self label) with
        | none =>
            have hroom : cs.length < 2 ^ 32 := by
              have hcount := hd.count
              have hnot : (label :: c) ∉ cs.toFinset := by
                rw [List.mem_toFinset]
                intro hmem
                obtain ⟨i, hi⟩ := List.mem_iff_getElem?.mp hmem
                rw [(h.path _ i).mpr ⟨_, hi, hk⟩] at hl
                cases hl
              rw [List.toFinset_cons, Finset.card_insert_of_notMem hnot,
                List.toFinset_card_of_nodup h.nodup] at hcount
              exact hcount
            dsimp only
            rw [if_neg (by simp [hstate])]
            refine ⟨_, _, cs ++ [label :: c], rfl, ?_⟩
            rw [h.gen, Nat.mod_eq_of_lt hroom]
            exact began_new env _ label medium errorVec h hexec hcur hself hk hl hroom
        | some i =>
            obtain ⟨d, hcd, hkd⟩ := (h.path _ i).mp hl
            have heq : label :: c = d := hd.keys _ List.mem_cons_self _
              (List.mem_cons_of_mem _ (List.mem_of_getElem? hcd)) (hk.trans hkd.symm)
            rw [← heq] at hcd
            exact ⟨i, _, cs, rfl, began_old env label medium errorVec h hexec hcur hself hcd⟩
      · rintro ⟨htask, hleft⟩
        exact hd.leftover htask _ List.mem_cons_self (hk.trans (congrArg some hleft))

end Begin

section Runs

variable {task : ℕ} {cs : List (List String)} {s : Scopes} {env : Env}

/-- As many different chains have begun as there are nodes. -/
theorem Healthy.card (h : Healthy task cs s) :
    (s.begun.map (·.chain)).toFinset.card = cs.length := by
  have hset : (s.begun.map (·.chain)).toFinset = cs.toFinset := by
    ext c
    rw [List.mem_toFinset, List.mem_toFinset, h.chains]
  rw [hset, List.toFinset_card_of_nodup h.tree.nodup]

/-- The chain of the innermost open phase. -/
theorem Stacked.head {f : Frame} {fs : List Frame} (h : Stacked cs (f :: fs)) :
    cs[f.phase]? = some ((f :: fs).map (·.label)) :=
  h.1

theorem Healthy.begun_of_chain (h : Healthy task cs s) {i : ℕ} {c : List String}
    (hc : cs[i]? = some c) : ∃ b ∈ s.begun, b.chain = c ∧ b.phase = i := by
  obtain ⟨b, hb, rfl⟩ := List.mem_map.mp ((h.chains c).mp (List.mem_of_getElem? hc))
  exact ⟨b, hb, rfl, h.tree.key_injective (h.begun b hb).1 hc rfl⟩

/-- The current node stands for the labels of the open phases. -/
theorem Healthy.position (h : Healthy task cs s) : Position cs s.labels s.tree.current := by
  rw [h.current, Scopes.labels]
  cases hf : s.frames with
  | nil => rfl
  | cons f fs => exact (hf ▸ h.stack).head

theorem Healthy.beginPhase (h : Healthy env.myTaskID cs s) {label : String} (medium : PrvMedium)
    (errorVec : ℤ)
    (hd : Distinct env.myTaskID ((label :: s.labels) :: s.begun.map (·.chain))) :
    ∃ phase t' cs',
      s.tree.beginPhase env (s.frames.length % 2 ^ 32) label medium errorVec = .ok (phase, t') ∧
        Began s.tree cs (label :: s.labels) phase t' cs' := by
  apply h.tree.begin_distinct env _ label medium errorVec h.exec h.position
  apply hd.mono
  apply List.cons_subset_cons
  exact fun c hc => (h.chains c).mp hc

theorem Healthy.step_begin (h : Healthy env.myTaskID cs s) {label : String} (medium : PrvMedium)
    (errorVec : ℤ)
    (hd : Distinct env.myTaskID ((label :: s.labels) :: s.begun.map (·.chain))) :
    ∃ s' cs', s.step env (.beginPhase label medium errorVec) = some s' ∧
      Healthy env.myTaskID cs' s' ∧ s'.labels = label :: s.labels ∧
      s'.begun.map (·.chain) = (label :: s.labels) :: s.begun.map (·.chain) := by
  obtain ⟨phase, t', cs', hbegin, hb⟩ := h.beginPhase medium errorVec hd
  have hgrow : ∀ (i : ℕ) c, cs[i]? = some c → cs'[i]? = some c := by
    intro i c hc
    obtain heq | heq := hb.grow
    · rw [heq]
      exact hc
    · rw [heq]
      exact getElem?_concat.mpr (.inl hc)
  refine ⟨{ s with
      tree := t'
      frames := ⟨label, phase, s.tree.current⟩ :: s.frames
      begun := ⟨label :: s.labels, phase, s.frames.head?.map (·.phase)⟩ :: s.begun },
    cs', ?_, ⟨hb.tree, hb.exec, ⟨hb.chain, h.current, ?_⟩, hb.current, h.trap, ?_, ?_,
    h.returned, hd⟩, rfl, rfl⟩
  · simp only [Scopes.step, h.trap, Option.isSome_none, Bool.false_eq_true, if_false, hbegin]
  · obtain heq | heq := hb.grow
    · rw [heq]
      exact h.stack
    · rw [heq]
      exact h.stack.append _
  · intro c
    rw [hb.mem, h.chains, List.map_cons, List.mem_cons]
  · intro b hmem
    obtain rfl | hmem := List.mem_cons.mp hmem
    · exact ⟨hb.chain, hb.parent.trans h.current⟩
    · obtain ⟨hc, hp⟩ := h.begun b hmem
      exact ⟨hgrow _ _ hc, (hb.keep _ (List.getElem?_eq_some_iff.mp hc).1).trans hp⟩

/-- And so does a `CompletePhase`. -/
theorem Healthy.step_complete (h : Healthy env.myTaskID cs s) {f : Frame} {fs : List Frame}
    (hf : s.frames = f :: fs) :
    ∃ s', s.step env .completePhase = some s' ∧ Healthy env.myTaskID cs s' ∧
      s'.frames = fs ∧ s'.begun = s.begun := by
  have hcur : s.tree.current = some f.phase := by rw [h.current, hf]; rfl
  have hstack := hf ▸ h.stack
  have hparent : (s.tree.node f.phase).parent = fs.head?.map (·.phase) := by
    have hp := (h.tree.parent hstack.1).2
    cases hpar : (s.tree.node f.phase).parent with
    | none =>
        rw [hpar] at hp
        rw [List.map_eq_nil_iff.mp hp.1]
        rfl
    | some j =>
        rw [hpar] at hp
        cases fs with
        | nil => exact absurd rfl (h.tree.ne_nil hp.2)
        | cons g gs =>
            rw [h.tree.key_injective hp.2 hstack.2.2.1 rfl]
            rfl
  have hfield : ∀ {α : Type} (g : PhaseNode → α),
      (∀ n, g (n.incSeqID true) = g n) → ∀ q,
      g ((s.tree.modify f.phase (·.incSeqID true)).node q) = g (s.tree.node q) := by
    intro α g hg q
    exact PhaseTree.modify_field _ _ _ _ g hg
  have hcomplete : s.tree.completePhase true false = .ok
      { s.tree.modify f.phase (·.incSeqID true) with current := fs.head?.map (·.phase) } := by
    unfold PhaseTree.completePhase
    rw [hcur]
    dsimp only
    rw [if_pos rfl, ← hparent, ← hfield (·.parent) (fun _ => rfl) f.phase]
    rfl
  refine ⟨{ s with
      tree := { s.tree.modify f.phase (·.incSeqID true) with current := fs.head?.map (·.phase) }
      frames := fs
      returned := (fs.head?.map (·.phase), f.before) :: s.returned },
    ?_, ⟨?_, ?_, hstack.2.2, rfl, h.trap, h.chains, ?_, ?_, h.distinct⟩, rfl, rfl⟩
  · simp only [Scopes.step, h.trap, Option.isSome_none, Bool.false_eq_true, if_false, hf,
      hcomplete]
  · have hmod : Represents (s.tree.modify f.phase (·.incSeqID true)) cs :=
      h.tree.modify _ (fun _ => rfl) (fun _ => rfl) (fun _ => rfl)
    exact hmod.setCurrent _
  · intro i hi
    exact (hfield (·.state) (fun _ => rfl) i).trans (h.exec i hi)
  · intro b hb
    obtain ⟨hc, hp⟩ := h.begun b hb
    exact ⟨hc, (hfield (·.parent) (fun _ => rfl) b.phase).trans hp⟩
  · intro r hr
    obtain rfl | hr := List.mem_cons.mp hr
    · exact hstack.2.1.symm
    · exact h.returned r hr

theorem Healthy.distinct_of_identified (h : Healthy env.myTaskID cs s) {label : String}
    {medium : PrvMedium} {errorVec : ℤ} {s' : Scopes}
    (hstep : s.step env (.beginPhase label medium errorVec) = some s') (hs' : Identified s') :
    Distinct env.myTaskID ((label :: s.labels) :: s.begun.map (·.chain)) := by
  simp only [Scopes.step, h.trap, Option.isSome_none, Bool.false_eq_true, if_false] at hstep
  cases hbegin : s.tree.beginPhase env (s.frames.length % 2 ^ 32) label medium errorVec with
  | error e =>
      rw [hbegin] at hstep
      obtain rfl := Option.some.inj hstep
      exact absurd hs'.trap (by simp)
  | ok r =>
      obtain ⟨phase, t'⟩ := r
      rw [hbegin] at hstep
      obtain rfl := Option.some.inj hstep
      -- a chain that has received the same phase is the same chain
      have hsame : ∀ c, cs[phase]? = some c → label :: s.labels = c := by
        intro c hc
        obtain ⟨b, hb, rfl, rfl⟩ := h.begun_of_chain hc
        exact (hs'.same _ List.mem_cons_self _ (List.mem_cons_of_mem _ hb)).mp rfl
      cases hf : s.frames with
      | nil =>
          have hcur : s.tree.current = none := by rw [h.current, hf]; rfl
          have hlab : s.labels = [] := by rw [Scopes.labels, hf]; rfl
          by_cases hcs : cs = []
          · have hlog : s.begun.map (·.chain) = [] := by
              apply List.eq_nil_iff_forall_not_mem.mpr
              intro c hc
              rw [← h.chains, hcs] at hc
              cases hc
            apply h.distinct.cons_new
            · simp [hlog]
            · simp [hlab, keyOf]
            · simp [hlog]
          · rw [begin_again env _ label medium errorVec h.tree hcur hcs] at hbegin
            obtain ⟨c, hc⟩ : ∃ c, cs[0]? = some c :=
              ⟨_, List.getElem?_eq_getElem (List.length_pos_iff.mpr hcs)⟩
            have hphase : (0 : ℕ) = phase := congrArg Prod.fst (Except.ok.inj hbegin)
            have hmem := (h.chains _).mp (List.mem_of_getElem? hc)
            rw [← hsame c (hphase ▸ hc)] at hmem
            exact h.distinct.cons_of_mem hmem
      | cons f fs =>
          have hcur : s.tree.current = some f.phase := by rw [h.current, hf]; rfl
          have hself : cs[f.phase]? = some s.labels := by
            rw [Scopes.labels, hf]
            exact (hf ▸ h.stack).head
          have hk := h.tree.getPhasePathOf hself label
          have hexec := h.exec f.phase (List.getElem?_eq_some_iff.mp hself).1
          rw [h.tree.beginPhase hcur hself hk] at hbegin
          by_cases hleft : env.myTaskID = 0 ∧
              s.tree.getPhasePathOf f.phase label = "Root_MainLoop_CalcPos"
          · rw [if_pos hleft] at hbegin
            cases hbegin
          rw [if_neg hleft] at hbegin
          cases hl : s.tree.phasePath.lookup (s.tree.getPhasePathOf f.phase label) with
          | some i =>
              rw [hl] at hbegin
              obtain ⟨d, hcd, -⟩ := (h.tree.path _ i).mp hl
              have hphase : i = phase := congrArg Prod.fst (Except.ok.inj hbegin)
              have hmem := (h.chains _).mp (List.mem_of_getElem? hcd)
              rw [← hsame d (hphase ▸ hcd)] at hmem
              exact h.distinct.cons_of_mem hmem
          | none =>
              rw [hl] at hbegin
              dsimp only at hbegin
              rw [if_neg (by simp [hexec])] at hbegin
              have hphase : s.tree.phaseGen = phase := congrArg Prod.fst (Except.ok.inj hbegin)
              -- the key is new, and so is the number
              have hkey : ∀ d ∈ s.begun.map (·.chain), keyOf (label :: s.labels) ≠ keyOf d := by
                intro d hd heq
                obtain ⟨i, hi⟩ := List.mem_iff_getElem?.mp ((h.chains d).mpr hd)
                rw [(h.tree.path _ i).mpr ⟨d, hi, heq ▸ hk⟩] at hl
                cases hl
              have hroom : cs.length < 2 ^ 32 := by
                by_contra hfull
                have hlen : cs.length = 2 ^ 32 := Nat.le_antisymm h.tree.small (Nat.le_of_not_lt hfull)
                have hzero : 0 = phase := by rw [← hphase, h.tree.gen, hlen, Nat.mod_self]
                obtain ⟨c, hc⟩ : ∃ c, cs[0]? = some c :=
                  ⟨_, List.getElem?_eq_getElem (by omega)⟩
                have hmem := (h.chains _).mp (List.mem_of_getElem? hc)
                exact hkey c hmem (congrArg keyOf (hsame c (hzero ▸ hc)))
              apply h.distinct.cons_new hkey
              · intro htask heq
                exact hleft ⟨htask, Option.some.inj (hk.symm.trans heq)⟩
              · rw [h.card]
                exact hroom

theorem Healthy.always_iff (ops : List Op) : ∀ {cs : List (List String)} {s : Scopes},
    Healthy env.myTaskID cs s →
    (Always (Scopes.step env) Identified s ops ↔
      Distinct env.myTaskID (begunChains s.labels ops ++ s.begun.map (·.chain))) := by
  induction ops with
  | nil =>
      intro cs s h
      exact iff_of_true h.identified h.distinct
  | cons op ops ih =>
      intro cs s h
      have hsub : ∀ c : List String, ∀ ds, c :: s.begun.map (·.chain) ⊆
          (c :: ds) ++ s.begun.map (·.chain) := by
        intro c ds
        simp
      cases op with
      | beginPhase label medium errorVec =>
          rw [begunChains]
          constructor
          · rintro ⟨-, hrest⟩
            obtain ⟨s', hs'⟩ : ∃ s', s.step env (.beginPhase label medium errorVec) = some s' := by
              simp only [Scopes.step, h.trap, Option.isSome_none, Bool.false_eq_true, if_false]
              cases s.tree.beginPhase env (s.frames.length % 2 ^ 32) label medium errorVec <;>
                exact ⟨_, rfl⟩
            have hd := h.distinct_of_identified hs' (hrest s' hs').head
            obtain ⟨s₁, cs', hstep, h₁, hlab, hlog⟩ := h.step_begin medium errorVec hd
            obtain rfl := Option.some.inj (hs'.symm.trans hstep)
            have hrest := (ih h₁).mp (hrest _ hs')
            rw [hlab, hlog] at hrest
            apply hrest.mono
            simp
          · intro hd
            refine ⟨h.identified, fun s' hs' => ?_⟩
            obtain ⟨s₁, cs', hstep, h₁, hlab, hlog⟩ :=
              h.step_begin medium errorVec (hd.mono (hsub _ _))
            obtain rfl := Option.some.inj (hs'.symm.trans hstep)
            apply (ih h₁).mpr
            rw [hlab, hlog]
            apply hd.mono
            simp
      | completePhase =>
          cases hf : s.frames with
          | nil =>
              have hlab : s.labels = [] := by rw [Scopes.labels, hf]; rfl
              rw [hlab, begunChains, List.nil_append]
              apply iff_of_true _ h.distinct
              refine ⟨h.identified, fun s' hs' => ?_⟩
              simp [Scopes.step, h.trap, hf] at hs'
          | cons f fs =>
              obtain ⟨s₁, hstep, h₁, hfr, hbegun⟩ := h.step_complete hf
              have hlab : s.labels = f.label :: s₁.labels := by
                rw [Scopes.labels, Scopes.labels, hf, hfr]
                rfl
              rw [hlab, begunChains, ← hbegun, ← ih h₁]
              constructor
              · rintro ⟨-, hrest⟩
                exact hrest s₁ hstep
              · intro hrest
                refine ⟨h.identified, fun s' hs' => ?_⟩
                obtain rfl := Option.some.inj (hs'.symm.trans hstep)
                exact hrest

end Runs

theorem healthy_init (task : ℕ) : Healthy task [] {} :=
  ⟨Represents.empty, by simp, trivial, rfl, rfl, by simp, by simp, by simp, by simp, by simp,
    by simp⟩

/-- Identity of phases and stack discipline hold along a well-nested run exactly when the
chains of labels that it begins are told apart by their keys. -/
theorem identified_iff_distinct (env : Env) (ops : List Op) :
    Always (Scopes.step env) Identified {} ops ↔ Distinct env.myTaskID (begunChains [] ops) := by
  have hiff := (healthy_init env.myTaskID).always_iff ops
  rw [List.map_nil, List.append_nil] at hiff
  exact hiff

theorem underscore_shares_phase : ¬ Always (Scopes.step { myTaskID := 1 }) Identified {}
    [.beginPhase "R" .localMemory 1, .beginPhase "a" .localMemory 1,
      .beginPhase "b" .localMemory 1, .completePhase, .completePhase,
      .beginPhase "R_a_b" .localMemory 1] := by
  intro h
  have hd := ((healthy_init 1).always_iff _).mp h
  have heq := hd.keys ["b", "a", "R"] (by simp [begunChains, Scopes.labels])
    ["R_a_b", "R"] (by simp [begunChains, Scopes.labels]) (by simp [keyOf, pathOf])
  simp at heq

end CDRuntime.Phase
