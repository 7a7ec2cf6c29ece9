import CDRuntime.ConfigText
import CDRuntime.PhaseSound
import CDRuntime.YamlBlocks

namespace CDRuntime.Phase
open ConfigText Runs YamlBlocks

structure Params where
  level : ℕ
  phase : ℕ
  label : String
  interval : ℤ
  errortype : ℤ
  medium : PrvMedium
  deriving DecidableEq, Repr

def PhaseNode.params (n : PhaseNode) : Params :=
  ⟨n.level, n.phase, n.label, n.interval, n.errortype, n.medium⟩

inductive Forest where
  | nil
  | node (d : Params) (kids rest : Forest)
  deriving DecidableEq, Repr

def Forest.size : Forest → ℕ
  | .nil => 0
  | .node _ kids rest => 1 + kids.size + rest.size

def Forest.preorder : Forest → List Params
  | .nil => []
  | .node d kids rest => d :: (kids.preorder ++ rest.preorder)

def PhaseTree.forest (t : PhaseTree) : ℕ → List ℕ → Forest
  | 0, _ => .nil
  | fuel + 1, ps =>
      ps.foldr (fun p rest =>
        .node (t.node p).params (t.forest fuel (t.node p).children) rest) .nil

def PhaseTree.shape (t : PhaseTree) : Forest :=
  t.forest t.heap.length t.root.toList

/-- `GetMedium(PrvMediumT)`; without tuning an undefined medium is an error. -/
def mediumText (tuning : Bool) : PrvMedium → Except Trap (List Char)
  | .localMemory => .ok "LocalMemory".toList
  | .remoteMemory => .ok "RemoteMemory".toList
  | .localDisk => .ok "LocalDisk".toList
  | .globalDisk => .ok "GlobalDisk".toList
  | .undefined => if tuning then .ok "Undefined".toList else .error .medium

/-- `CD_%u_%u`. -/
def cdKey (level phase : ℕ) : List Char :=
  'C' :: 'D' :: '_' :: (printNat level ++ '_' :: printNat phase)

/-- The blanks before a line, `level << 1` in 32 bits. -/
def column (level : ℕ) : ℕ :=
  level * 2 % 2 ^ 32

/-- The lines of one node: an item `CD_level_phase`, and two columns further the item of its
parameters. -/
def entryLines (d : Params) (medium : List Char) : List Line :=
  [⟨column d.level, true, cdKey d.level d.phase, none⟩,
    ⟨column (d.level + 1), true, "label".toList, some d.label.toList⟩,
    ⟨column (d.level + 2), false, "interval".toList, some (printInt d.interval)⟩,
    ⟨column (d.level + 2), false, "errortype".toList, some ('0' :: 'x' :: printHex d.errortype)⟩,
    ⟨column (d.level + 2), false, "medium".toList, some medium⟩]

/-- `PrintInputYAML` of siblings, each with the nodes below it. -/
def Forest.print (tuning : Bool) : Forest → Except Trap (List Line)
  | .nil => .ok []
  | .node d kids rest =>
      match mediumText tuning d.medium with
      | .error e => .error e
      | .ok m =>
          match kids.print tuning with
          | .error e => .error e
          | .ok ks =>
              match rest.print tuning with
              | .error e => .error e
              | .ok rs => .ok (entryLines d m ++ ks ++ rs)

def printInputYAML (tuning : Bool) (t : PhaseTree) : Except Trap (List Line) :=
  t.shape.print tuning

/-- The tuned tree being read and the first character of the last key. -/
structure Loader where
  tree : PhaseTree := {}
  prv : Char := '\x00'

def getMedium (key : List Char) : Except Trap PrvMedium :=
  if key = "LocalMemory".toList ∨ key = "Local Memory".toList then .ok .localMemory
  else if key = "RemoteMemory".toList ∨ key = "Remote Memory".toList then .ok .remoteMemory
  else if key = "LocalDisk".toList ∨ key = "Local Disk".toList then .ok .localDisk
  else if key = "GlobalDisk".toList ∨ key = "Global Disk".toList then .ok .globalDisk
  else .error .medium

/-- `UpdateSwitchParams`: level and phase of a key, as 32-bit numbers. -/
def updateSwitchParams (key : List Char) : ℕ × ℕ :=
  let afterCD := (strtok key).2
  let level := strtok afterCD
  let phase := strtok level.2
  ((atol level.1 % 2 ^ 32).toNat, (atol phase.1 % 2 ^ 32).toNat)

/-- The node of a key, made by the constructor for the tuned tree. -/
def PhaseTree.addTuned (t : PhaseTree) (level phase : ℕ) : PhaseTree :=
  let p := t.heap.length
  let t := t.newNode t.current level "Undefined" .execution
  { t with
    current := some p
    root := t.root.or (some p)
    phaseNodeCache := (phase, p) :: t.phaseNodeCache }

def Loader.update (s : Loader) (f : PhaseNode → PhaseNode) : Except Trap Loader :=
  match s.tree.current with
  | some p => .ok { s with tree := s.tree.modify p f }
  | none => .error .noPhase

/-- The last branch of `ParseParam`: a value, told by the key before it. -/
def Loader.parseValue (s : Loader) (key : List Char) : Except Trap Loader :=
  if s.prv = 'l' then s.update fun n => { n with label := String.ofList key }
  else if s.prv = 'i' then s.update fun n => { n with interval := atol key }
  else if s.prv = 'e' then s.update fun n => { n with errortype := strtol16 key }
  else if s.prv = 'm' then
    match getMedium key with
    | .ok m => s.update fun n => { n with medium := m }
    | .error e => .error e
  else .ok s

/-- `ParseParam`, without the failure rates. -/
def Loader.parseParam (s : Loader) (key : List Char) : Except Trap Loader :=
  if key.head? = some 'C' ∧ key.tail.head? = some 'D' ∧ s.prv ≠ 'l' then
    let lp := updateSwitchParams key
    if lp.2 ≠ s.tree.phaseGen then .error .phaseNumber
    else .ok { tree := s.tree.addTuned lp.1 lp.2, prv := 'C' }
  else if key = "label".toList then .ok { s with prv := 'l' }
  else if key = "interval".toList then .ok { s with prv := 'i' }
  else if key = "errortype".toList then .ok { s with prv := 'e' }
  else if key = "medium".toList then .ok { s with prv := 'm' }
  else if key.head? = some 'F' then .ok { s with prv := 'F' }
  else s.parseValue key

def Loader.event (s : Loader) : Event → Except Trap Loader
  | .seqEnd =>
      .ok { s with tree := { s.tree with
        current := s.tree.current.bind fun p => (s.tree.node p).parent } }
  | .scalar key => s.parseParam key
  | _ => .ok s

def Loader.events : Loader → List Event → Except Trap Loader
  | s, [] => .ok s
  | s, e :: es =>
      match s.event e with
      | .ok s => s.events es
      | .error e => .error e

def loadConfig (lines : List Line) : Except Trap PhaseTree :=
  match blockEvents lines with
  | none => .error .parser
  | some es =>
      match Loader.events {} es with
      | .ok s => .ok { s.tree with phaseGen := 0, current := s.tree.root }
      | .error e => .error e

/-- The file is written and read without a failed assertion, and the tree read has the shape
and the parameters of the tree written. -/
def RoundTrips (tuning : Bool) (t : PhaseTree) : Prop :=
  ∃ lines t', printInputYAML tuning t = .ok lines ∧ loadConfig lines = .ok t' ∧
    t'.shape = t.shape

/-- A label that is not taken for a key. -/
def PlainLabel (label : String) : Prop :=
  label.toList ∉ ["label".toList, "interval".toList, "errortype".toList, "medium".toList] ∧
    label.toList.head? ≠ some 'F'

instance (label : String) : Decidable (PlainLabel label) :=
  inferInstanceAs (Decidable (_ ∧ _))

def Params.loaded (d : Params) : Params :=
  { d with
    label := if PlainLabel d.label then d.label else "Undefined"
    errortype := strtol16 ('0' :: 'x' :: printHex d.errortype) }

/-- The ranges of the fields: 32 bits for the numbers, 64 for interval and error type. -/
structure Params.Fits (d : Params) : Prop where
  level : d.level < 2 ^ 32
  phase : d.phase < 2 ^ 32
  interval : -2 ^ 63 ≤ d.interval ∧ d.interval < 2 ^ 63
  errortype : -2 ^ 63 ≤ d.errortype ∧ d.errortype < 2 ^ 63

def entryEvents (d : Params) (medium : List Char) : List Event :=
  [.mapStart, .scalar (cdKey d.level d.phase), .seqStart,
    .mapStart,
    .scalar "label".toList, .scalar d.label.toList,
    .scalar "interval".toList, .scalar (printInt d.interval),
    .scalar "errortype".toList, .scalar ('0' :: 'x' :: printHex d.errortype),
    .scalar "medium".toList, .scalar medium,
    .mapEnd]

section Entry

variable {s : Loader}

theorem events_append (xs ys : List Event) : ∀ s : Loader, s.events (xs ++ ys) =
    match s.events xs with
    | .ok s => s.events ys
    | .error e => .error e := by
  induction xs with
  | nil => intro s; rfl
  | cons e xs ih =>
      intro s
      rw [List.cons_append, Loader.events, Loader.events]
      cases s.event e with
      | ok s' => exact ih s'
      | error _ => rfl

theorem updateSwitchParams_cdKey {level phase : ℕ} (hl : level < 2 ^ 32) (hp : phase < 2 ^ 32) :
    updateSwitchParams (cdKey level phase) = (level, phase) := by
  have h₁ : strtok (cdKey level phase) =
      (['C', 'D'], '_' :: (printNat level ++ '_' :: printNat phase)) := by
    have h : strtok ([] ++ (['C', 'D'] ++ '_' :: (printNat level ++ '_' :: printNat phase))) = _ :=
      strtok_token (by simp) (by simp) (by simp) (.inr ⟨_, rfl⟩)
    exact h
  have h₂ : strtok ('_' :: (printNat level ++ '_' :: printNat phase)) =
      (printNat level, '_' :: printNat phase) := strtok_number level (.inr ⟨_, rfl⟩)
  have h₃ : strtok ('_' :: printNat phase) = (printNat phase, []) := by
    have h := strtok_number phase (.inl rfl)
    rwa [List.append_nil] at h
  unfold updateSwitchParams
  dsimp only
  rw [h₁, h₂, h₃]
  dsimp only
  rw [atol_printNat, atol_printNat]
  congr 1 <;> omega

theorem parse_cdKey (hprv : s.prv ≠ 'l') {level phase : ℕ} (hl : level < 2 ^ 32)
    (hp : phase < 2 ^ 32) : s.parseParam (cdKey level phase) =
      if phase ≠ s.tree.phaseGen then .error .phaseNumber
      else .ok { tree := s.tree.addTuned level phase, prv := 'C' } := by
  unfold Loader.parseParam
  rw [if_pos ⟨rfl, rfl, hprv⟩]
  dsimp only
  rw [updateSwitchParams_cdKey hl hp]

theorem parse_label : s.parseParam "label".toList = .ok { s with prv := 'l' } := by
  simp [Loader.parseParam]

theorem parse_interval : s.parseParam "interval".toList = .ok { s with prv := 'i' } := by
  simp [Loader.parseParam]

theorem parse_errortype : s.parseParam "errortype".toList = .ok { s with prv := 'e' } := by
  simp [Loader.parseParam]

theorem parse_medium : s.parseParam "medium".toList = .ok { s with prv := 'm' } := by
  simp [Loader.parseParam]

theorem parse_value {key : List Char} {c : Char} (hc : key.head? = some c)
    (h : c ∉ ['C', 'F', 'l', 'i', 'e', 'm']) : s.parseParam key = s.parseValue key := by
  have hne : ∀ k : List Char, k.head? ≠ some c → key ≠ k := by
    rintro k hk rfl
    exact hk hc
  simp only [List.mem_cons, List.not_mem_nil, or_false, not_or] at h
  obtain ⟨hC, hF, hl, hi, he, hm⟩ := h
  unfold Loader.parseParam
  rw [hc, if_neg (by simp [hC]), if_neg (hne _ (by simp [Ne.symm hl])),
    if_neg (hne _ (by simp [Ne.symm hi])), if_neg (hne _ (by simp [Ne.symm he])),
    if_neg (hne _ (by simp [Ne.symm hm])), if_neg (by simp [hF])]

theorem printInt_head (i : ℤ) : ∃ c, (printInt i).head? = some c ∧
    c ∉ ['C', 'F', 'l', 'i', 'e', 'm'] := by
  cases i with
  | ofNat n =>
      obtain ⟨c, cs, hcs⟩ := List.exists_cons_of_ne_nil (printNat_ne_nil n)
      refine ⟨c, by simp [printInt, hcs], ?_⟩
      have hd : c.isDigit = true := isDigit_of_mem_printNat (hcs ▸ List.mem_cons_self)
      intro hc
      simp only [List.mem_cons, List.not_mem_nil, or_false] at hc
      obtain rfl | rfl | rfl | rfl | rfl | rfl := hc <;> exact absurd hd (by decide)
  | negSucc n => exact ⟨'-', rfl, by decide⟩

theorem parse_label_value (hprv : s.prv = 'l') {p : ℕ} (hcur : s.tree.current = some p)
    (label : String) : ∃ c, s.parseParam label.toList = .ok
      { tree := if PlainLabel label then s.tree.modify p fun n => { n with label := label }
          else s.tree
        prv := c } := by
  unfold Loader.parseParam
  rw [if_neg fun h => h.2.2 hprv]
  by_cases hplain : PlainLabel label
  · rw [if_pos hplain]
    obtain ⟨hkeys, hF⟩ := hplain
    simp only [List.mem_cons, List.not_mem_nil, or_false, not_or] at hkeys
    rw [if_neg hkeys.1, if_neg hkeys.2.1, if_neg hkeys.2.2.1, if_neg hkeys.2.2.2, if_neg hF]
    refine ⟨s.prv, ?_⟩
    unfold Loader.parseValue
    rw [if_pos hprv, Loader.update, hcur, String.ofList_toList]
  · rw [if_neg hplain]
    split_ifs with h₁ h₂ h₃ h₄ h₅
    · exact ⟨_, rfl⟩
    · exact ⟨_, rfl⟩
    · exact ⟨_, rfl⟩
    · exact ⟨_, rfl⟩
    · exact ⟨_, rfl⟩
    · apply absurd _ hplain
      refine ⟨?_, h₅⟩
      simp only [List.mem_cons, List.not_mem_nil, or_false, not_or]
      exact ⟨h₁, h₂, h₃, h₄⟩

theorem parse_interval_value {t : PhaseTree} {p : ℕ} (hcur : t.current = some p) (i : ℤ) :
    Loader.parseParam ⟨t, 'i'⟩ (printInt i) =
      .ok ⟨t.modify p fun n => { n with interval := i }, 'i'⟩ := by
  obtain ⟨c, hc, hcm⟩ := printInt_head i
  rw [parse_value hc hcm, Loader.parseValue, if_neg (by simp), if_pos rfl, Loader.update]
  simp only [hcur, atol_printInt]

theorem parse_errortype_value {t : PhaseTree} {p : ℕ} (hcur : t.current = some p) (i : ℤ) :
    Loader.parseParam ⟨t, 'e'⟩ ('0' :: 'x' :: printHex i) =
      .ok ⟨t.modify p fun n => { n with errortype := strtol16 ('0' :: 'x' :: printHex i) }, 'e'⟩ := by
  rw [parse_value rfl (by decide), Loader.parseValue, if_neg (by simp), if_neg (by simp),
    if_pos rfl, Loader.update]
  simp only [hcur]

theorem parse_medium_value {t : PhaseTree} {p : ℕ} (hcur : t.current = some p) {m : List Char}
    {c : Char} (hc : m.head? = some c) (hcm : c ∉ ['C', 'F', 'l', 'i', 'e', 'm']) :
    Loader.parseParam ⟨t, 'm'⟩ m =
      match getMedium m with
      | .ok med => .ok ⟨t.modify p fun n => { n with medium := med }, 'm'⟩
      | .error e => .error e := by
  rw [parse_value hc hcm, Loader.parseValue, if_neg (by simp), if_neg (by simp),
    if_neg (by simp), if_pos rfl]
  simp only [Loader.update, hcur]

def PhaseTree.entered (t : PhaseTree) (d : Params) : PhaseTree :=
  let p := t.heap.length
  let t := t.addTuned d.level d.phase
  let t := if PlainLabel d.label then t.modify p fun n => { n with label := d.label } else t
  let t := t.modify p fun n => { n with interval := d.interval }
  let t := t.modify p fun n =>
    { n with errortype := strtol16 ('0' :: 'x' :: printHex d.errortype) }
  t.modify p fun n => { n with medium := d.medium }

theorem entry_phase (hprv : s.prv ≠ 'l') {d : Params} (hd : d.Fits) {m : List Char}
    (hphase : d.phase ≠ s.tree.phaseGen) :
    s.events (entryEvents d m) = .error .phaseNumber := by
  simp only [entryEvents, Loader.events, Loader.event]
  rw [parse_cdKey hprv hd.level hd.phase, if_pos hphase]

theorem entry_events (hprv : s.prv ≠ 'l') {d : Params} (hd : d.Fits) {m : List Char} {c : Char}
    (hc : m.head? = some c) (hcm : c ∉ ['C', 'F', 'l', 'i', 'e', 'm'])
    (hphase : d.phase = s.tree.phaseGen) :
    s.events (entryEvents d m) =
      match getMedium m with
      | .ok med => .ok ⟨s.tree.entered { d with medium := med }, 'm'⟩
      | .error e => .error e := by
  -- the tree after the label, with the new node current
  generalize ht : (if PlainLabel d.label then
      (s.tree.addTuned d.level d.phase).modify s.tree.heap.length fun n =>
        { n with label := d.label }
      else s.tree.addTuned d.level d.phase) = t
  have hcur : t.current = some s.tree.heap.length := by
    rw [← ht]
    split <;> rfl
  have hcur₁ : ∀ f, (t.modify s.tree.heap.length f).current = some s.tree.heap.length :=
    fun _ => hcur
  have hcur₂ : ∀ f g, ((t.modify s.tree.heap.length f).modify s.tree.heap.length g).current =
      some s.tree.heap.length := fun _ _ => hcur
  have hcur₀ : (⟨s.tree.addTuned d.level d.phase, 'l'⟩ : Loader).tree.current =
      some s.tree.heap.length := rfl
  obtain ⟨cl, hlabel⟩ := parse_label_value rfl hcur₀ d.label
  have hentered : ∀ med, s.tree.entered { d with medium := med } =
      ((t.modify s.tree.heap.length fun n => { n with interval := d.interval }).modify
        s.tree.heap.length fun n =>
          { n with errortype := strtol16 ('0' :: 'x' :: printHex d.errortype) }).modify
        s.tree.heap.length fun n => { n with medium := med } := by
    intro med
    rw [← ht]
    rfl
  simp only [entryEvents, Loader.events, Loader.event]
  rw [parse_cdKey hprv hd.level hd.phase, if_neg (not_not.mpr hphase)]
  dsimp only
  rw [parse_label]
  dsimp only
  rw [hlabel]
  dsimp only
  rw [ht, parse_interval]
  dsimp only
  rw [parse_interval_value hcur]
  dsimp only
  rw [parse_errortype]
  dsimp only
  rw [parse_errortype_value (hcur₁ _)]
  dsimp only
  rw [parse_medium]
  dsimp only
  rw [parse_medium_value (hcur₂ _ _) hc hcm]
  cases getMedium m with
  | ok med => simp only [hentered]
  | error e => rfl

section Entered

variable (t : PhaseTree) (d : Params)

theorem entered_field {α : Type*} (g : PhaseNode → α) (hl : ∀ n x, g { n with label := x } = g n)
    (hi : ∀ n x, g { n with interval := x } = g n) (he : ∀ n x, g { n with errortype := x } = g n)
    (hm : ∀ n x, g { n with medium := x } = g n) (q : ℕ) :
    g ((t.entered d).node q) =
      g ((t.newNode t.current d.level "Undefined" .execution).node q) := by
  unfold PhaseTree.entered
  dsimp only
  rw [PhaseTree.modify_field _ _ _ _ g fun n => hm n _,
    PhaseTree.modify_field _ _ _ _ g fun n => he n _,
    PhaseTree.modify_field _ _ _ _ g fun n => hi n _]
  split
  · rw [PhaseTree.modify_field _ _ _ _ g fun n => hl n _]
    rfl
  · rfl

@[simp] theorem entered_length : (t.entered d).heap.length = t.heap.length + 1 := by
  unfold PhaseTree.entered
  dsimp only
  split <;> simp [PhaseTree.addTuned]

@[simp] theorem entered_phaseGen : (t.entered d).phaseGen = (t.phaseGen + 1) % 2 ^ 32 := by
  unfold PhaseTree.entered
  dsimp only
  split <;> simp [PhaseTree.addTuned]

@[simp] theorem entered_current : (t.entered d).current = some t.heap.length := by
  unfold PhaseTree.entered
  dsimp only
  split <;> rfl

@[simp] theorem entered_root : (t.entered d).root = t.root.or (some t.heap.length) := by
  unfold PhaseTree.entered
  dsimp only
  split <;> simp [PhaseTree.addTuned]

theorem entered_parent : ((t.entered d).node t.heap.length).parent = t.current := by
  rw [entered_field t d (·.parent) (fun _ _ => rfl) (fun _ _ => rfl) (fun _ _ => rfl)
    (fun _ _ => rfl), PhaseTree.node_newNode_self]

theorem entered_children : ((t.entered d).node t.heap.length).children = [] := by
  rw [entered_field t d (·.children) (fun _ _ => rfl) (fun _ _ => rfl) (fun _ _ => rfl)
    (fun _ _ => rfl), PhaseTree.node_newNode_self]

theorem entered_old_parent {q : ℕ} (hq : q < t.heap.length) :
    ((t.entered d).node q).parent = (t.node q).parent := by
  rw [entered_field t d (·.parent) (fun _ _ => rfl) (fun _ _ => rfl) (fun _ _ => rfl)
    (fun _ _ => rfl), t.newNode_field _ _ _ _ (·.parent) (fun _ _ => rfl) (fun _ _ => rfl) q
    (Nat.ne_of_lt hq)]

theorem entered_old_children {q : ℕ} (hq : q < t.heap.length) :
    ((t.entered d).node q).children =
      if t.current = some q then (t.node q).children ++ [t.heap.length]
      else (t.node q).children := by
  rw [entered_field t d (·.children) (fun _ _ => rfl) (fun _ _ => rfl) (fun _ _ => rfl)
    (fun _ _ => rfl), t.newNode_children _ _ _ _ q hq]

theorem entered_old_params {q : ℕ} (hq : q < t.heap.length) :
    ((t.entered d).node q).params = (t.node q).params := by
  have hne : t.heap.length ≠ q := Nat.ne_of_gt hq
  have hold : (t.addTuned d.level d.phase).node q =
      (t.newNode t.current d.level "Undefined" .execution).node q := rfl
  unfold PhaseTree.entered
  dsimp only
  rw [PhaseTree.node_modify_ne _ _ _ _ hne, PhaseTree.node_modify_ne _ _ _ _ hne,
    PhaseTree.node_modify_ne _ _ _ _ hne]
  split
  · rw [PhaseTree.node_modify_ne _ _ _ _ hne, hold]
    exact t.newNode_field _ _ _ _ PhaseNode.params (fun _ _ => rfl) (fun _ _ => rfl) q hne.symm
  · rw [hold]
    exact t.newNode_field _ _ _ _ PhaseNode.params (fun _ _ => rfl) (fun _ _ => rfl) q hne.symm

theorem entered_params (hphase : d.phase = t.phaseGen) :
    ((t.entered d).node t.heap.length).params = d.loaded := by
  have hnew : (t.addTuned d.level d.phase).node t.heap.length =
      (t.newNode t.current d.level "Undefined" .execution).node t.heap.length := rfl
  have hlen : t.heap.length < (t.addTuned d.level d.phase).heap.length := by
    simp [PhaseTree.addTuned]
  unfold PhaseTree.entered Params.loaded
  dsimp only
  split
  · rw [PhaseTree.node_modify_self _ _ _ (by simpa using hlen),
      PhaseTree.node_modify_self _ _ _ (by simpa using hlen),
      PhaseTree.node_modify_self _ _ _ (by simpa using hlen),
      PhaseTree.node_modify_self _ _ _ hlen, hnew, PhaseTree.node_newNode_self]
    simp only [PhaseNode.params, hphase]
  · rw [PhaseTree.node_modify_self _ _ _ (by simpa using hlen),
      PhaseTree.node_modify_self _ _ _ (by simpa using hlen),
      PhaseTree.node_modify_self _ _ _ hlen, hnew, PhaseTree.node_newNode_self]
    simp only [PhaseNode.params, hphase]

end Entered

end Entry

end CDRuntime.Phase
