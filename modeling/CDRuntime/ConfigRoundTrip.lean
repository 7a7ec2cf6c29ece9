import CDRuntime.ConfigLines

namespace CDRuntime.Phase
open ConfigText Runs YamlBlocks

/-- The nodes are numbered in the order of the file, modulo the 32 bits of a phase. -/
def Forest.Numbered : ℕ → Forest → Prop
  | _, .nil => True
  | gen, .node d kids rest => d.phase = gen % 2 ^ 32 ∧ kids.Numbered (gen + 1) ∧
      rest.Numbered (gen + 1 + kids.size)

def Forest.loaded : Forest → Forest
  | .nil => .nil
  | .node d kids rest => .node d.loaded kids.loaded rest.loaded

@[simp] theorem Forest.size_loaded (F : Forest) : F.loaded.size = F.size := by
  induction F with
  | nil => rfl
  | node d kids rest hkids hrest => simp [Forest.loaded, Forest.size, hkids, hrest]

/-- The nodes from position `a` on are those of the forest, in the order of the file. -/
def Holds (t : PhaseTree) : ℕ → Forest → List ℕ → Prop
  | _, .nil, ps => ps = []
  | a, .node d kids rest, ps => ∃ qs, ps = a :: qs ∧ (t.node a).params = d ∧
      Holds t (a + 1) kids (t.node a).children ∧ Holds t (a + 1 + kids.size) rest qs

theorem Holds.congr {t t' : PhaseTree} (F : Forest) : ∀ {a : ℕ} {ps : List ℕ},
    (∀ i, a ≤ i → i < a + F.size → (t'.node i).params = (t.node i).params ∧
      (t'.node i).children = (t.node i).children) → Holds t a F ps → Holds t' a F ps := by
  induction F with
  | nil => intro a ps _ h; exact h
  | node d kids rest hkids hrest =>
      intro a ps hkeep h
      simp only [Forest.size] at hkeep
      obtain ⟨qs, rfl, hd, hk, hr⟩ := h
      obtain ⟨hp, hc⟩ := hkeep a (Nat.le_refl a) (by omega)
      refine ⟨qs, rfl, hp.trans hd, ?_, ?_⟩
      · rw [hc]
        exact hkids (fun i hi hi' => hkeep i (by omega) (by omega)) hk
      · exact hrest (fun i hi hi' => hkeep i (by omega) (by omega)) hr

theorem forest_congr {t t' : PhaseTree} (h : t'.heap = t.heap) (fuel : ℕ) :
    t'.forest fuel = t.forest fuel := by
  have hnode : ∀ p, t'.node p = t.node p := by
    intro p
    rw [PhaseTree.node, h]
    rfl
  induction fuel with
  | zero => rfl
  | succ fuel ih =>
      funext ps
      rw [PhaseTree.forest, PhaseTree.forest]
      congr 1
      funext p rest
      rw [hnode, ih]

theorem shape_congr {t t' : PhaseTree} (hheap : t'.heap = t.heap) (hroot : t'.root = t.root) :
    t'.shape = t.shape := by
  rw [PhaseTree.shape, PhaseTree.shape, hheap, hroot, forest_congr hheap]

/-- Then the walk over the children finds the forest. -/
theorem Holds.forest {t : PhaseTree} (F : Forest) : ∀ {a : ℕ} {ps : List ℕ} {fuel : ℕ},
    F.size ≤ fuel → Holds t a F ps → t.forest fuel ps = F := by
  induction F with
  | nil =>
      intro a ps fuel _ h
      rw [show ps = [] from h]
      cases fuel <;> rfl
  | node d kids rest hkids hrest =>
      intro a ps fuel hfuel h
      simp only [Forest.size] at hfuel
      obtain ⟨qs, rfl, hd, hk, hr⟩ := h
      cases fuel with
      | zero => omega
      | succ fuel =>
          have htail : t.forest (fuel + 1) qs = rest := hrest (by omega) hr
          rw [PhaseTree.forest] at htail ⊢
          rw [List.foldr_cons, htail, hd, hkids (by omega) hk]

/-- The tree after the events of a forest below the current node, if there is one. -/
structure Read (t : PhaseTree) (gen : ℕ) (cur : Option ℕ) (F : Forest) (t' : PhaseTree) : Prop where
  length : t'.heap.length = t.heap.length + F.size
  phaseGen : t'.phaseGen = (gen + F.size) % 2 ^ 32
  current : t'.current = cur
  root : t'.root = t.root
  children : ∀ q, cur = some q → ∃ ps, (t'.node q).children = (t.node q).children ++ ps ∧
    Holds t' t.heap.length F.loaded ps
  params : ∀ i < t.heap.length, (t'.node i).params = (t.node i).params
  parent : ∀ i < t.heap.length, (t'.node i).parent = (t.node i).parent
  others : ∀ i < t.heap.length, cur ≠ some i → (t'.node i).children = (t.node i).children

def Forest.Named (F : Forest) : Prop :=
  ∀ d ∈ F.preorder, d.medium ≠ .undefined

theorem Forest.named_node {d : Params} {kids rest : Forest} :
    (Forest.node d kids rest).Named ↔ d.medium ≠ .undefined ∧ kids.Named ∧ rest.Named := by
  simp only [Forest.Named, Forest.preorder, List.mem_cons, List.mem_append]
  constructor
  · intro h
    exact ⟨h d (.inl rfl), fun e he => h e (.inr (.inl he)), fun e he => h e (.inr (.inr he))⟩
  · rintro ⟨hd, hk, hr⟩ e (rfl | he | he)
    · exact hd
    · exact hk e he
    · exact hr e he

theorem events_node {s : Loader} (hprv : s.prv ≠ 'l') {d : Params} (hd : d.Fits)
    (es : List Event) : s.events (entryEvents d (mediumName d.medium) ++ es) =
      if d.phase ≠ s.tree.phaseGen then .error .phaseNumber
      else if d.medium = .undefined then .error .medium
      else Loader.events ⟨s.tree.entered d, 'm'⟩ es := by
  obtain ⟨⟨c, hc, hcm⟩, hget⟩ := mediumName_spec d.medium
  rw [events_append]
  by_cases hphase : d.phase = s.tree.phaseGen
  · rw [entry_events hprv hd hc hcm hphase, if_neg (not_not.mpr hphase), hget]
    by_cases hmed : d.medium = .undefined
    · rw [if_pos hmed, if_pos hmed]
    · rw [if_neg hmed, if_neg hmed]
  · rw [entry_phase hprv hd hphase, if_pos hphase]

/-- Behind the children the loader is back at the parent. -/
theorem Read.seqEnd {t t₂ : PhaseTree} {d : Params} {gen : ℕ} {cur : Option ℕ} {kids : Forest}
    (hcur : t.current = cur) (h : Read (t.entered d) gen (some t.heap.length) kids t₂)
    (es : List Event) (prv : Char) :
    Loader.events ⟨t₂, prv⟩ (.seqEnd :: .mapEnd :: es) =
      Loader.events ⟨{ t₂ with current := cur }, prv⟩ es := by
  have hparent : (t₂.node t.heap.length).parent = cur := by
    rw [h.parent _ (by simp), entered_parent, hcur]
  simp only [Loader.events, Loader.event, h.current, Option.bind_some, hparent]

/-- The forests of a node and of its siblings make up the forest that starts with the node. -/
theorem Read.node {t t₂ t₄ : PhaseTree} {gen : ℕ} {cur : Option ℕ} {d : Params}
    {kids rest : Forest} (hcur : t.current = cur) (hq : ∀ q, cur = some q → q < t.heap.length)
    (hroot : t.root.isSome = true) (hphase : d.phase = t.phaseGen)
    (hkids : Read (t.entered d) (gen + 1) (some t.heap.length) kids t₂)
    (hrest : Read { t₂ with current := cur } (gen + 1 + kids.size) cur rest t₄) :
    Read t gen cur (.node d kids rest) t₄ := by
  have hlen₁ : (t.entered d).heap.length = t.heap.length + 1 := entered_length t d
  have hlen₂ : ({ t₂ with current := cur } : PhaseTree).heap.length =
      t.heap.length + 1 + kids.size := by
    rw [← hlen₁]
    exact hkids.length
  have hne : cur ≠ some t.heap.length := fun h => Nat.lt_irrefl _ (hq _ h)
  have hnode : ∀ i, ({ t₂ with current := cur } : PhaseTree).node i = t₂.node i :=
    fun _ => rfl
  obtain ⟨ps₁, hch₁, hholds₁⟩ := hkids.children _ rfl
  rw [entered_children, List.nil_append] at hch₁
  refine ⟨?_, ?_, hrest.current, ?_, ?_, ?_, ?_, ?_⟩
  · rw [hrest.length, hlen₂, Forest.size]
    omega
  · rw [hrest.phaseGen, Forest.size]
    congr 1
    omega
  · have h₂ : t₄.root = t₂.root := hrest.root
    rw [h₂, hkids.root, entered_root]
    exact Option.or_of_isSome hroot
  · intro q hcurq
    have hlt := hq q hcurq
    obtain ⟨ps₂, hch₂, hholds₂⟩ := hrest.children q hcurq
    refine ⟨t.heap.length :: ps₂, ?_, ps₂, rfl, ?_, ?_, ?_⟩
    · rw [hch₂, hnode, hkids.others q (by omega) (by simp; omega), entered_old_children t d hlt,
        if_pos (hcur.trans hcurq), List.append_assoc]
      rfl
    · rw [hrest.params _ (by omega), hnode, hkids.params _ (by omega), entered_params t d hphase]
    · rw [hrest.others _ (by omega) hne, hnode, hch₁]
      rw [hlen₁] at hholds₁
      apply Holds.congr _ _ hholds₁
      intro i hi hi'
      rw [Forest.size_loaded] at hi'
      refine ⟨hrest.params i (by omega), hrest.others i (by omega) ?_⟩
      rw [hcurq, ne_eq, Option.some.injEq]
      omega
    · rw [Forest.size_loaded, ← hlen₂]
      exact hholds₂
  · intro i hi
    rw [hrest.params i (by omega), hnode, hkids.params i (by omega), entered_old_params t d hi]
  · intro i hi
    rw [hrest.parent i (by omega), hnode, hkids.parent i (by omega), entered_old_parent t d hi]
  · intro i hi hiq
    rw [hrest.others i (by omega) hiq, hnode, hkids.others i (by omega) (by simp; omega),
      entered_old_children t d hi, if_neg (by rwa [hcur])]

theorem read_forest (F : Forest) : ∀ (s : Loader) (gen : ℕ) (cur : Option ℕ), s.prv ≠ 'l' →
    s.tree.current = cur → (∀ q, cur = some q → q < s.tree.heap.length) →
    s.tree.root.isSome = true → s.tree.phaseGen = gen % 2 ^ 32 → (∀ d ∈ F.preorder, d.Fits) →
    (F.Numbered gen → F.Named → ∃ s', s.events F.events = .ok s' ∧ s'.prv ≠ 'l' ∧
      Read s.tree gen cur F s'.tree) ∧
    (¬ (F.Numbered gen ∧ F.Named) → ∃ e, s.events F.events = .error e) := by
  induction F with
  | nil =>
      intro s gen cur hprv hcur _ _ hgen _
      refine ⟨fun _ _ => ⟨s, rfl, hprv, rfl, hgen, hcur, rfl, fun q _ => ⟨[], by simp, rfl⟩,
        fun _ _ => rfl, fun _ _ => rfl, fun _ _ _ => rfl⟩, ?_⟩
      intro hbad
      exact absurd ⟨trivial, by simp [Forest.Named, Forest.preorder]⟩ hbad
  | node d kids rest ihk ihr =>
      intro s gen cur hprv hcur hq hroot hgen hfits
      simp only [Forest.preorder, List.mem_cons, List.mem_append] at hfits
      have hd := hfits d (.inl rfl)
      rw [Forest.events, List.append_assoc, List.append_assoc, events_node hprv hd,
        Forest.named_node]
      simp only [Forest.Numbered]
      have hphase : d.phase = s.tree.phaseGen ↔ d.phase = gen % 2 ^ 32 := by rw [hgen]
      -- the children are read below the new node, its siblings below the old one
      have hkids := ihk ⟨s.tree.entered d, 'm'⟩ (gen + 1) (some s.tree.heap.length)
        (by simp) (by simp) (by rintro q ⟨⟩; simp) (by simp) (by simp [hgen])
        (fun e he => hfits e (.inr (.inl he)))
      have hrest := fun (s₂ : Loader) (hprv₂ : s₂.prv ≠ 'l')
          (hread : Read (s.tree.entered d) (gen + 1) (some s.tree.heap.length) kids s₂.tree) =>
        ihr ⟨{ s₂.tree with current := cur }, s₂.prv⟩ (gen + 1 + kids.size) cur hprv₂ rfl
          (by intro q hcurq; have := hq q hcurq; have := hread.length; simp at this ⊢; omega)
          (by have := hread.root; simp [this]) hread.phaseGen
          (fun e he => hfits e (.inr (.inr he)))
      constructor
      · rintro ⟨hp, hnk, hnr⟩ ⟨hmed, hmk, hmr⟩
        rw [if_neg (not_not.mpr (hphase.mpr hp)), if_neg hmed, events_append]
        obtain ⟨s₂, hev, hprv₂, hread⟩ := hkids.1 hnk hmk
        obtain ⟨s₄, hev₄, hprv₄, hread₄⟩ := (hrest s₂ hprv₂ hread).1 hnr hmr
        refine ⟨s₄, ?_, hprv₄, hread.node hcur hq hroot (hphase.mpr hp) hread₄⟩
        rw [hev]
        exact (hread.seqEnd hcur rest.events s₂.prv).trans hev₄
      · intro hbad
        by_cases hp : d.phase = gen % 2 ^ 32
        · rw [if_neg (not_not.mpr (hphase.mpr hp))]
          by_cases hmed : d.medium = .undefined
          · exact ⟨_, if_pos hmed⟩
          rw [if_neg hmed, events_append]
          by_cases hk : kids.Numbered (gen + 1) ∧ kids.Named
          · obtain ⟨s₂, hev, hprv₂, hread⟩ := hkids.1 hk.1 hk.2
            obtain ⟨e, he⟩ := (hrest s₂ hprv₂ hread).2 fun hr =>
              hbad ⟨⟨hp, hk.1, hr.1⟩, hmed, hk.2, hr.2⟩
            refine ⟨e, ?_⟩
            rw [hev]
            exact (hread.seqEnd hcur rest.events s₂.prv).trans he
          · obtain ⟨e, he⟩ := hkids.2 hk
            refine ⟨e, ?_⟩
            rw [he]
        · exact ⟨_, if_pos fun h => hp (hphase.mp h)⟩

theorem load_root {d : Params} {kids rest : Forest}
    (hfits : ∀ e ∈ (Forest.node d kids rest).preorder, e.Fits) :
    ((Forest.node d kids rest).Numbered 0 → (Forest.node d kids rest).Named →
      ∃ s, Loader.events {} (.seqStart :: (Forest.node d kids rest).events ++ [.seqEnd]) = .ok s ∧
        s.tree.shape = (Forest.node d kids .nil).loaded) ∧
    (¬ ((Forest.node d kids rest).Numbered 0 ∧ (Forest.node d kids rest).Named) →
      ∃ e, Loader.events {} (.seqStart :: (Forest.node d kids rest).events ++ [.seqEnd]) =
        .error e) := by
  simp only [Forest.preorder, List.mem_cons, List.mem_append] at hfits
  have hkids := read_forest kids ⟨PhaseTree.entered {} d, 'm'⟩ 1 (some 0) (by simp) (by simp)
    (by simp) (by simp) (by simp) (fun e he => hfits e (.inr (.inl he)))
  have hlen₁ : (PhaseTree.entered {} d).heap.length = 1 := entered_length {} d
  have hrest := fun (s₂ : Loader) (hprv₂ : s₂.prv ≠ 'l')
      (hread : Read (PhaseTree.entered {} d) 1 (some 0) kids s₂.tree) =>
    read_forest rest ⟨{ s₂.tree with current := none }, s₂.prv⟩ (1 + kids.size) none hprv₂ rfl
      (by simp) (by have := hread.root; simp [this]) hread.phaseGen
      (fun e he => hfits e (.inr (.inr he)))
  have hevents : Loader.events {} (.seqStart :: (Forest.node d kids rest).events ++ [.seqEnd]) =
      Loader.events {} (entryEvents d (mediumName d.medium) ++
        (kids.events ++ (.seqEnd :: .mapEnd :: (rest.events ++ [.seqEnd])))) := by
    simp [Forest.events, Loader.events, Loader.event]
  have hend : ∀ s : Loader, s.tree.current = none → s.events [.seqEnd] = .ok s := by
    intro s hs
    simp only [Loader.events, Loader.event, hs, Option.bind_none]
    rw [← hs]
  rw [hevents, events_node (by simp) (hfits d (.inl rfl)), Forest.named_node]
  simp only [Forest.Numbered, Nat.zero_mod, Nat.zero_add]
  constructor
  · rintro ⟨hp, hnk, hnr⟩ ⟨hmed, hmk, hmr⟩
    obtain ⟨s₂, hev, hprv₂, hread⟩ := hkids.1 hnk hmk
    obtain ⟨s₄, hev₄, -, hread₄⟩ := (hrest s₂ hprv₂ hread).1 hnr hmr
    have hlen₂ : s₂.tree.heap.length = 1 + kids.size := by rw [hread.length, hlen₁]
    rw [if_neg (not_not.mpr hp), if_neg hmed, events_append, hev]
    refine ⟨s₄, ?_, ?_⟩
    · refine (Read.seqEnd (t := {}) rfl hread _ _).trans ?_
      rw [events_append, hev₄]
      exact hend s₄ hread₄.current
    have hroot : s₄.tree.root = some 0 := by
      rw [hread₄.root]
      exact hread.root.trans (entered_root {} d)
    have hold : ∀ i < s₂.tree.heap.length, (s₄.tree.node i).params = (s₂.tree.node i).params ∧
        (s₄.tree.node i).children = (s₂.tree.node i).children :=
      fun i hi => ⟨hread₄.params i hi, hread₄.others i hi (by simp)⟩
    have hnil : ((PhaseTree.entered {} d).node 0).children = [] := entered_children {} d
    have hparams : (s₂.tree.node 0).params = d.loaded := by
      rw [hread.params 0 (by rw [hlen₁]; exact Nat.one_pos)]
      exact entered_params {} d hp
    have hfinal : Holds s₄.tree 0 (Forest.node d kids .nil).loaded [0] := by
      obtain ⟨ps, hch, hholds⟩ := hread.children 0 rfl
      rw [hnil, List.nil_append] at hch
      rw [hlen₁] at hholds
      refine ⟨[], rfl, (hold 0 (by omega)).1.trans hparams, ?_, rfl⟩
      rw [(hold 0 (by omega)).2, hch]
      apply Holds.congr _ _ hholds
      intro i _ hi
      rw [Forest.size_loaded] at hi
      exact hold i (by omega)
    rw [PhaseTree.shape, hroot]
    apply Holds.forest _ _ hfinal
    have hlen₄ : s₄.tree.heap.length = s₂.tree.heap.length + rest.size := hread₄.length
    rw [Forest.size_loaded, hlen₄, hlen₂, Forest.size, Forest.size]
    omega
  · intro hbad
    by_cases hp : d.phase = 0
    · rw [if_neg (not_not.mpr hp)]
      by_cases hmed : d.medium = .undefined
      · exact ⟨_, by rw [if_pos hmed]⟩
      rw [if_neg hmed, events_append]
      by_cases hk : kids.Numbered 1 ∧ kids.Named
      · obtain ⟨s₂, hev, hprv₂, hread⟩ := hkids.1 hk.1 hk.2
        obtain ⟨e, he⟩ := (hrest s₂ hprv₂ hread).2 fun hr =>
          hbad ⟨⟨hp, hk.1, hr.1⟩, hmed, hk.2, hr.2⟩
        refine ⟨e, ?_⟩
        rw [hev]
        refine (Read.seqEnd (t := {}) rfl hread _ _).trans ?_
        rw [events_append, he]
      · obtain ⟨e, he⟩ := hkids.2 hk
        refine ⟨e, ?_⟩
        rw [he]
    · exact ⟨_, by rw [if_pos hp]⟩

structure Params.Loadable (d : Params) : Prop where
  label : PlainLabel d.label
  errortype : 0 ≤ d.errortype
  medium : d.medium ≠ .undefined

theorem Params.loaded_eq_iff {d : Params} (hd : d.Fits) :
    d.loaded = d ↔ PlainLabel d.label ∧ 0 ≤ d.errortype := by
  rw [← strtol16_printHex_iff hd.errortype.1 hd.errortype.2]
  constructor
  · intro h
    refine ⟨?_, congrArg Params.errortype h⟩
    by_contra hplain
    have hlabel := congrArg Params.label h
    rw [Params.loaded, if_neg hplain] at hlabel
    dsimp only at hlabel
    rw [← hlabel] at hplain
    exact hplain (by decide)
  · rintro ⟨hplain, herr⟩
    rw [Params.loaded, if_pos hplain, herr]

theorem Forest.preorder_loaded (F : Forest) :
    F.loaded.preorder = F.preorder.map Params.loaded := by
  induction F with
  | nil => rfl
  | node d kids rest hkids hrest =>
      rw [Forest.loaded, Forest.preorder, hkids, hrest, Forest.preorder, List.map_cons,
        List.map_append]

theorem Forest.loaded_eq (F : Forest) (h : ∀ d ∈ F.preorder, d.loaded = d) : F.loaded = F := by
  induction F with
  | nil => rfl
  | node d kids rest hkids hrest =>
      simp only [Forest.preorder, List.mem_cons, List.mem_append] at h
      rw [Forest.loaded, h d (.inl rfl), hkids fun e he => h e (.inr (.inl he)),
        hrest fun e he => h e (.inr (.inr he))]

theorem Forest.print_ok (tuning : Bool) (F : Forest) (h : F.Named) :
    ∃ lines, F.print tuning = .ok lines := by
  induction F with
  | nil => exact ⟨[], rfl⟩
  | node d kids rest hkids hrest =>
      obtain ⟨hd, hk, hr⟩ := Forest.named_node.mp h
      obtain ⟨ks, hks⟩ := hkids hk
      obtain ⟨rs, hrs⟩ := hrest hr
      obtain ⟨m, hm⟩ : ∃ m, mediumText tuning d.medium = .ok m := by
        cases hmed : d.medium with
        | undefined => exact absurd hmed hd
        | localMemory => exact ⟨_, rfl⟩
        | remoteMemory => exact ⟨_, rfl⟩
        | localDisk => exact ⟨_, rfl⟩
        | globalDisk => exact ⟨_, rfl⟩
      rw [Forest.print, hm]
      dsimp only
      rw [hks]
      dsimp only
      rw [hrs]
      exact ⟨_, rfl⟩

theorem loadConfig_events {lines : List Line} {es : List Event}
    (h : blockEvents lines = some es) : loadConfig lines =
      match Loader.events {} es with
      | .ok s => .ok { s.tree with phaseGen := 0, current := s.tree.root }
      | .error e => .error e := by
  unfold loadConfig
  generalize blockEvents lines = o at h ⊢
  subst h
  rfl

theorem roundTrips_iff {tuning : Bool} {t : PhaseTree} {d : Params} {kids : Forest}
    (hshape : t.shape = .node d kids .nil) (hlevel : d.level = 0)
    (hfits : ∀ e ∈ t.shape.preorder, e.Fits) :
    RoundTrips tuning t ↔
      t.shape.Nested 0 ∧ t.shape.Numbered 0 ∧ ∀ e ∈ t.shape.preorder, e.Loadable := by
  have hcolumn : column d.level = 0 := by rw [hlevel]; rfl
  have hpre : t.shape.preorder = d :: (kids.preorder ++ []) := by rw [hshape]; rfl
  constructor
  · rintro ⟨lines, t', hlines, hload, hsame⟩
    obtain rfl := Forest.print_lines _ hlines
    rw [hpre] at hload
    cases hblock : blockEvents (paramLines (d :: (kids.preorder ++ []))) with
    | none =>
        rw [loadConfig, hblock] at hload
        cases hload
    | some es =>
        obtain ⟨F, hnested, hF, rfl⟩ := (blockEvents_lines hcolumn).mp hblock
        rw [loadConfig_events hblock] at hload
        rw [← hpre] at hF
        cases F with
        | nil =>
            rw [hpre] at hF
            cases hF
        | node e ks rest =>
            rw [← hF] at hfits
            have hgood : (Forest.node e ks rest).Numbered 0 ∧ (Forest.node e ks rest).Named := by
              by_contra hbad
              obtain ⟨er, he⟩ := (load_root hfits).2 hbad
              rw [he] at hload
              cases hload
            obtain ⟨s, hev, hshape'⟩ := (load_root hfits).1 hgood.1 hgood.2
            rw [hev] at hload
            have hloaded : (Forest.node e ks .nil).loaded = t.shape := by
              obtain rfl := Except.ok.inj hload
              rw [← hshape', ← hsame]
              exact shape_congr rfl rfl
            -- a second item at the root's column would be missing in the tree read
            have hrest : rest = .nil := by
              have hsize := congrArg Forest.size hloaded
              rw [Forest.size_loaded, ← t.shape.length_preorder, ← hF,
                Forest.length_preorder] at hsize
              simp only [Forest.size] at hsize
              cases rest with
              | nil => rfl
              | node _ _ _ => simp only [Forest.size] at hsize; omega
            subst hrest
            have hmap : ∀ x ∈ (Forest.node e ks .nil).preorder, x.loaded = x := by
              have hpreorder := congrArg Forest.preorder hloaded
              rw [Forest.preorder_loaded, ← hF] at hpreorder
              exact List.map_inj_left.mp (hpreorder.trans (List.map_id _).symm)
            have hsame' : Forest.node e ks .nil = t.shape := by
              rw [← hloaded, Forest.loaded_eq _ hmap]
            rw [← hsame']
            refine ⟨hnested, hgood.1, fun x hx => ?_⟩
            obtain ⟨hlabel, herr⟩ := (Params.loaded_eq_iff (hfits x hx)).mp (hmap x hx)
            exact ⟨hlabel, herr, hgood.2 x hx⟩
  · rintro ⟨hnested, hnum, hall⟩
    obtain ⟨lines, hprint⟩ := t.shape.print_ok tuning fun e he => (hall e he).medium
    have hblock : blockEvents (paramLines t.shape.preorder) =
        some (.seqStart :: t.shape.events ++ [.seqEnd]) := by
      rw [hpre]
      exact (blockEvents_lines hcolumn).mpr ⟨t.shape, hnested, hpre, rfl⟩
    have hloaded : t.shape.loaded = t.shape := by
      apply Forest.loaded_eq
      intro e he
      exact (Params.loaded_eq_iff (hfits e he)).mpr ⟨(hall e he).label, (hall e he).errortype⟩
    obtain rfl := Forest.print_lines _ hprint
    have hload := loadConfig_events hblock
    rw [hshape] at hfits hnum hall hloaded
    obtain ⟨s, hev, hshape'⟩ := (load_root hfits).1 hnum fun e he => (hall e he).medium
    rw [hshape] at hload
    rw [hev] at hload
    refine ⟨_, _, hprint, by rw [hshape]; exact hload, ?_⟩
    rw [hshape, ← hloaded, ← hshape']
    exact shape_congr rfl rfl

/-- Interval, error type and medium set to any values. -/
def PhaseTree.decorate (t : PhaseTree) (f : ℕ → ℤ × ℤ × PrvMedium) : PhaseTree :=
  { t with heap := t.heap.mapIdx fun i n =>
      { n with interval := (f i).1, errortype := (f i).2.1, medium := (f i).2.2 } }

section Decorate

variable (t : PhaseTree) (f : ℕ → ℤ × ℤ × PrvMedium)

@[simp] theorem decorate_length : (t.decorate f).heap.length = t.heap.length := by
  simp [PhaseTree.decorate]

theorem node_decorate (i : ℕ) : (t.decorate f).node i = if i < t.heap.length then
    { t.node i with interval := (f i).1, errortype := (f i).2.1, medium := (f i).2.2 }
    else t.node i := by
  simp only [PhaseTree.node, PhaseTree.decorate, List.getD_eq_getElem?_getD,
    List.getElem?_mapIdx]
  by_cases hi : i < t.heap.length
  · simp [hi]
  · simp [hi]

theorem mem_preorder_forest (fuel : ℕ) : ∀ (ps : List ℕ) (d : Params),
    d ∈ (t.forest fuel ps).preorder → ∃ i, d = (t.node i).params := by
  induction fuel with
  | zero => intro ps d hd; cases hd
  | succ fuel ih =>
      intro ps
      induction ps with
      | nil => intro d hd; cases hd
      | cons p ps ihps =>
          intro d hd
          have hd' : d ∈ (Forest.node (t.node p).params (t.forest fuel (t.node p).children)
            (t.forest (fuel + 1) ps)).preorder := hd
          simp only [Forest.preorder, List.mem_cons, List.mem_append] at hd'
          obtain rfl | hd' | hd' := hd'
          · exact ⟨p, rfl⟩
          · exact ih _ d hd'
          · exact ihps d hd'

end Decorate

/-- A file written from the tree of a well-nested run, with any intervals, error types and
media, comes back as it was exactly when every node is printed two columns further than its
parent, the nodes were created in the order in which they are printed and every node is
loadable. -/
theorem config_round_trip_iff {env : Env} {ops : List Op} {s : Scopes} {r : ℕ}
    (hrun : run (Scopes.step env) {} ops = some s) (hroot : s.tree.root = some r)
    (f : ℕ → ℤ × ℤ × PrvMedium)
    (hf : ∀ i, (-2 ^ 63 ≤ (f i).1 ∧ (f i).1 < 2 ^ 63) ∧
      -2 ^ 63 ≤ (f i).2.1 ∧ (f i).2.1 < 2 ^ 63) :
    RoundTrips env.tuning (s.tree.decorate f) ↔
      (s.tree.decorate f).shape.Nested 0 ∧ (s.tree.decorate f).shape.Numbered 0 ∧
        ∀ d ∈ (s.tree.decorate f).shape.preorder, d.Loadable := by
  have h := rooted_of_run hrun
  have hr := h.sound.root r hroot
  obtain ⟨n, hn⟩ : ∃ n, s.tree.heap.length = n + 1 := ⟨s.tree.heap.length - 1, by omega⟩
  have hroot' : (s.tree.decorate f).root = some r := hroot
  have hshape : (s.tree.decorate f).shape = .node ((s.tree.decorate f).node r).params
      ((s.tree.decorate f).forest n ((s.tree.decorate f).node r).children) .nil := by
    rw [PhaseTree.shape, decorate_length, hn, hroot']
    rfl
  have hlevel : ((s.tree.decorate f).node r).params.level = 0 := by
    rw [node_decorate, if_pos hr]
    exact h.level r hroot
  apply roundTrips_iff hshape hlevel
  intro d hd
  obtain ⟨i, rfl⟩ := mem_preorder_forest _ _ _ d hd
  rw [node_decorate]
  split
  · exact ⟨h.sound.level i, h.sound.phase i, (hf i).1, (hf i).2⟩
  · rename_i hi
    have hdefault : s.tree.node i = default := by
      rw [PhaseTree.node, List.getD_eq_getElem?_getD, List.getElem?_eq_none (Nat.le_of_not_lt hi)]
      rfl
    rw [hdefault]
    exact ⟨by decide, by decide, by decide, by decide⟩

/-- A root with a child `a`, a grandchild `b` and a second child `c`. -/
def childrenOps : List Op :=
  [.beginPhase "R" .localMemory 1, .beginPhase "a" .localMemory 1, .beginPhase "b" .localMemory 1,
    .completePhase, .completePhase, .beginPhase "c" .localDisk 2]

theorem round_trip_of_children : ∃ s, run (Scopes.step {}) {} childrenOps = some s ∧
    RoundTrips false (s.tree.decorate fun i => (i % 10, 5, .localDisk)) := by
  have hrun : (run (Scopes.step {}) {} childrenOps).map
      (fun s => (s.tree.root, (s.tree.decorate fun i => (i % 10, 5, .localDisk)).shape)) =
      some (some 0, .node ⟨0, 0, "R", 0, 5, .localDisk⟩
        (.node ⟨1, 1, "a", 1, 5, .localDisk⟩ (.node ⟨2, 2, "b", 2, 5, .localDisk⟩ .nil .nil)
          (.node ⟨1, 3, "c", 3, 5, .localDisk⟩ .nil .nil)) .nil) := by
    decide
  obtain ⟨s, hs, heq⟩ := Option.map_eq_some_iff.mp hrun
  obtain ⟨hroot, hshape⟩ := Prod.mk.inj heq
  refine ⟨s, hs, (config_round_trip_iff hs hroot (fun i => (i % 10, 5, .localDisk))
    fun i => by dsimp only; omega).mpr ?_⟩
  rw [hshape]
  refine ⟨by decide, by simp [Forest.Numbered, Forest.size], ?_⟩
  intro d hd
  simp only [Forest.preorder, List.append_nil, List.nil_append, List.cons_append, List.mem_cons,
    List.not_mem_nil, or_false] at hd
  obtain rfl | rfl | rfl | rfl := hd <;> exact ⟨by decide, by decide, by decide⟩

-- with the path `R_a_b` for a label, `c` below `b` has the level of `b`
example : ∃ s, run (Scopes.step { myTaskID := 1 }) {} [.beginPhase "R" .localMemory 1,
      .beginPhase "a" .localMemory 1, .beginPhase "b" .localMemory 1, .completePhase,
      .completePhase, .beginPhase "R_a_b" .localMemory 1, .beginPhase "c" .localMemory 1] = some s ∧
    ¬ RoundTrips false (s.tree.decorate fun _ => (1, 5, .localDisk)) := by
  have hrun : (run (Scopes.step { myTaskID := 1 }) {} [.beginPhase "R" .localMemory 1,
      .beginPhase "a" .localMemory 1, .beginPhase "b" .localMemory 1, .completePhase,
      .completePhase, .beginPhase "R_a_b" .localMemory 1, .beginPhase "c" .localMemory 1]).map
      (fun s => (s.tree.decorate fun _ => (1, 5, .localDisk)).shape) =
      some (.node ⟨0, 0, "R", 1, 5, .localDisk⟩
        (.node ⟨1, 1, "a", 1, 5, .localDisk⟩ (.node ⟨2, 2, "b", 1, 5, .localDisk⟩
          (.node ⟨2, 3, "c", 1, 5, .localDisk⟩ .nil .nil) .nil) .nil) .nil) := by
    decide
  obtain ⟨s, hs, hshape⟩ := Option.map_eq_some_iff.mp hrun
  refine ⟨s, hs, ?_⟩
  have hfits : ∀ e ∈ (s.tree.decorate fun _ => (1, 5, .localDisk)).shape.preorder, e.Fits := by
    rw [hshape]
    intro d hd
    simp only [Forest.preorder, List.append_nil, List.mem_cons, List.not_mem_nil, or_false] at hd
    obtain rfl | rfl | rfl | rfl := hd <;> exact ⟨by decide, by decide, by decide, by decide⟩
  rw [roundTrips_iff hshape rfl hfits, hshape]
  exact fun h => absurd h.1 (by decide)

theorem root_errortype_changes :
    ∃ s, run (Scopes.step {}) {} [.beginPhase "R" .localMemory 1] = some s ∧
      ¬ RoundTrips false s.tree := by
  have hrun : (run (Scopes.step {}) {} [.beginPhase "R" .localMemory 1]).map (·.tree.shape) =
      some (.node ⟨0, 0, "R", -1, -1, .globalDisk⟩ .nil .nil) := by
    decide
  obtain ⟨s, hs, hshape⟩ := Option.map_eq_some_iff.mp hrun
  refine ⟨s, hs, ?_⟩
  have hfits : ∀ e ∈ s.tree.shape.preorder, e.Fits := by
    intro d hd
    rw [hshape] at hd
    rw [List.mem_singleton.mp hd]
    exact ⟨by decide, by decide, by decide, by decide⟩
  rw [roundTrips_iff hshape rfl hfits, hshape]
  rintro ⟨-, -, hall⟩
  exact absurd (hall _ (List.mem_singleton.mpr rfl)).errortype (by decide)

end CDRuntime.Phase
