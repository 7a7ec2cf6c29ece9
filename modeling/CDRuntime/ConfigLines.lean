import CDRuntime.ConfigFile

namespace CDRuntime.Phase
open ConfigText YamlBlocks

def mediumName : PrvMedium → List Char
  | .localMemory => "LocalMemory".toList
  | .remoteMemory => "RemoteMemory".toList
  | .localDisk => "LocalDisk".toList
  | .globalDisk => "GlobalDisk".toList
  | .undefined => "Undefined".toList

theorem mediumText_eq {tuning : Bool} {med : PrvMedium} {m : List Char}
    (h : mediumText tuning med = .ok m) : m = mediumName med := by
  cases med with
  | undefined =>
      cases tuning with
      | false => cases h
      | true => cases h; rfl
  | localMemory => cases h; rfl
  | remoteMemory => cases h; rfl
  | localDisk => cases h; rfl
  | globalDisk => cases h; rfl

theorem mediumName_spec (med : PrvMedium) :
    (∃ c, (mediumName med).head? = some c ∧ c ∉ ['C', 'F', 'l', 'i', 'e', 'm']) ∧
      getMedium (mediumName med) = if med = .undefined then .error .medium else .ok med := by
  cases med with
  | undefined => exact ⟨⟨'U', rfl, by decide⟩, by decide⟩
  | localMemory => exact ⟨⟨'L', rfl, by decide⟩, by decide⟩
  | remoteMemory => exact ⟨⟨'R', rfl, by decide⟩, by decide⟩
  | localDisk => exact ⟨⟨'L', rfl, by decide⟩, by decide⟩
  | globalDisk => exact ⟨⟨'G', rfl, by decide⟩, by decide⟩

def paramLines : List Params → List Line
  | [] => []
  | d :: ds => entryLines d (mediumName d.medium) ++ paramLines ds

theorem paramLines_append (ds ds' : List Params) :
    paramLines (ds ++ ds') = paramLines ds ++ paramLines ds' := by
  induction ds with
  | nil => rfl
  | cons d ds ih => rw [List.cons_append, paramLines, ih, paramLines, List.append_assoc]

theorem paramLines_length (ds : List Params) : (paramLines ds).length = 5 * ds.length := by
  induction ds with
  | nil => rfl
  | cons d ds ih =>
      rw [paramLines, List.length_append, ih, List.length_cons]
      simp only [entryLines, List.length_cons, List.length_nil]
      omega

theorem Forest.print_lines {tuning : Bool} (F : Forest) : ∀ {lines : List Line},
    F.print tuning = .ok lines → lines = paramLines F.preorder := by
  induction F with
  | nil => intro lines h; exact (Except.ok.inj h).symm
  | node d kids rest hkids hrest =>
      intro lines h
      rw [Forest.print] at h
      cases hm : mediumText tuning d.medium with
      | error e => rw [hm] at h; cases h
      | ok m =>
          rw [hm] at h
          dsimp only at h
          cases hk : kids.print tuning with
          | error e => rw [hk] at h; cases h
          | ok ks =>
              rw [hk] at h
              dsimp only at h
              cases hr : rest.print tuning with
              | error e => rw [hr] at h; cases h
              | ok rs =>
                  rw [hr] at h
                  rw [← Except.ok.inj h, hkids hk, hrest hr, mediumText_eq hm, Forest.preorder,
                    paramLines, paramLines_append, List.append_assoc]

/-- The children of every node stand two columns further than the node. -/
def Forest.Nested : ℕ → Forest → Prop
  | _, .nil => True
  | c, .node d kids rest =>
      (column d.level = c ∧ c + 4 < 2 ^ 32) ∧ kids.Nested (c + 2) ∧ rest.Nested c

instance Forest.decidableNested : ∀ (c : ℕ) (F : Forest), Decidable (F.Nested c)
  | _, .nil => .isTrue trivial
  | c, .node _ kids rest =>
      have := kids.decidableNested (c + 2)
      have := rest.decidableNested c
      inferInstanceAs (Decidable (_ ∧ _))

def Forest.events : Forest → List Event
  | .nil => []
  | .node d kids rest =>
      entryEvents d (mediumName d.medium) ++ kids.events ++ [.seqEnd, .mapEnd] ++ rest.events

@[simp] theorem Forest.length_preorder (F : Forest) : F.preorder.length = F.size := by
  induction F with
  | nil => rfl
  | node d kids rest hkids hrest =>
      rw [Forest.preorder, List.length_cons, List.length_append, hkids, hrest, Forest.size]
      omega

section Parse

variable {fuel c : ℕ} {d : Params} {m : List Char}

theorem column_succ {level : ℕ} (hc : column level = c) :
    column (level + 1) = (c + 2) % 2 ^ 32 := by
  unfold column at hc ⊢
  omega

theorem stopsKeys_lines (c : ℕ) (ds : List Params) : StopsKeys c (paramLines ds) := by
  intro l hl
  cases ds with
  | nil => cases hl
  | cons d ds =>
      cases hl
      simp

theorem stopsItems_lines {ds : List Params} (h : ∀ d ∈ ds.head?, column d.level ≠ c) :
    StopsItems c (paramLines ds) := by
  intro l hl
  cases ds with
  | nil => cases hl
  | cons d ds =>
      cases hl
      exact fun hcolumn => h d rfl hcolumn.1

theorem parse_entry (hcolumn : column d.level = c) (hc : c + 4 < 2 ^ 32)
    {rest rest₁ rest₂ : List Line} {ks items : List Event} (hrest : StopsKeys (c + 4) rest)
    (hkids : parseItems (fuel + 5) (c + 2) rest = some (ks, rest₁)) (hstop : StopsKeys (c + 2) rest₁)
    (hitems : parseItems (fuel + 7) c rest₁ = some (items, rest₂)) :
    parseItems (fuel + 8) c (entryLines d m ++ rest) =
      some (entryEvents d m ++ ks ++ [.seqEnd, .mapEnd] ++ items, rest₂) := by
  have hcolumn₁ : column (d.level + 1) = c + 2 := by
    rw [column_succ hcolumn]
    exact Nat.mod_eq_of_lt (by omega)
  have hcolumn₂ : column (d.level + 2) = c + 4 := by
    rw [column_succ hcolumn₁]
    exact Nat.mod_eq_of_lt hc
  unfold entryLines
  rw [hcolumn, hcolumn₁, hcolumn₂]
  have hmedium := parseKeys_scalar "medium".toList m (parseKeys_stop fuel hrest)
  have herrortype := parseKeys_scalar "errortype".toList ('0' :: 'x' :: printHex d.errortype) hmedium
  have hinterval := parseKeys_scalar "interval".toList (printInt d.interval) herrortype
  have hlabel := parseKeys_scalar "label".toList d.label.toList hinterval
  have hparams := parseItems_item "label".toList hlabel hkids
  have hentry := parseItems_item (cdKey d.level d.phase)
    (parseKeys_items _ rfl rfl hparams (parseKeys_stop _ hstop)) hitems
  rw [List.cons_append, List.cons_append, List.cons_append, List.cons_append, List.cons_append,
    List.nil_append, hentry]
  simp [entryEvents]

theorem parse_nested (F : Forest) : ∀ (fuel c : ℕ) (ds : List Params), 3 * F.size + 8 ≤ fuel →
    F.Nested c → (∀ d ∈ ds.head?, column d.level < c) →
    parseItems fuel c (paramLines (F.preorder ++ ds)) = some (F.events, paramLines ds) := by
  induction F with
  | nil =>
      intro fuel c ds hfuel _ hds
      obtain ⟨fuel, rfl⟩ : ∃ f, fuel = f + 1 := ⟨fuel - 1, by omega⟩
      exact parseItems_stop _ (stopsItems_lines fun d hd => Nat.ne_of_lt (hds d hd))
  | node d kids rest ihk ihr =>
      intro fuel c ds hfuel hF hds
      obtain ⟨⟨hcolumn, hc⟩, hk, hr⟩ := hF
      simp only [Forest.size] at hfuel
      obtain ⟨fuel, rfl⟩ : ∃ f, fuel = f + 8 := ⟨fuel - 8, by omega⟩
      -- behind the children stands a sibling or what follows the forest
      have hnext : ∀ e ∈ (rest.preorder ++ ds).head?, column e.level < c + 2 := by
        cases rest with
        | nil => intro e he; exact Nat.lt_add_right 2 (hds e he)
        | node e kids' rest' =>
            intro e' he'
            cases he'
            rw [hr.1.1]
            exact Nat.lt_add_of_pos_right Nat.two_pos
      have hkids := ihk (fuel + 5) (c + 2) (rest.preorder ++ ds) (by omega) hk hnext
      have hrest := ihr (fuel + 7) c ds (by omega) hr hds
      rw [Forest.preorder, List.cons_append, List.append_assoc, paramLines]
      exact parse_entry hcolumn hc (stopsKeys_lines _ _) hkids (stopsKeys_lines _ _) hrest

theorem parse_wrapped (hcolumn : column d.level = c) (hc : c + 2 < 2 ^ 32)
    (hwrap : ¬ c + 4 < 2 ^ 32) (rest : List Line) :
    ∃ es l ls, parseItems (fuel + 8) c (entryLines d m ++ rest) = some (es, l :: ls) ∧
      l.indent = 0 ∧ l.dash = false := by
  have hcolumn₁ : column (d.level + 1) = c + 2 := by
    rw [column_succ hcolumn]
    exact Nat.mod_eq_of_lt hc
  have hcolumn₂ : column (d.level + 2) = 0 := by
    rw [column_succ hcolumn₁]
    unfold column at hcolumn
    omega
  obtain ⟨l, ls, hlines, hindent, hdash⟩ : ∃ l ls, entryLines d m ++ rest =
      ⟨column d.level, true, cdKey d.level d.phase, none⟩ ::
        ⟨column (d.level + 1), true, "label".toList, some d.label.toList⟩ :: l :: ls ∧
      l.indent = 0 ∧ l.dash = false :=
    ⟨_, _, rfl, hcolumn₂, rfl⟩
  have hstopK : ∀ e > 0, StopsKeys e (l :: ls) := by
    intro e he l' hl' hbad
    cases hl'
    omega
  have hstopI : ∀ e, StopsItems e (l :: ls) := by
    intro e l' hl' hbad
    cases hl'
    rw [hdash] at hbad
    cases hbad.2
  have hlabel := parseKeys_scalar "label".toList d.label.toList
    (parseKeys_stop (fuel + 3) (hstopK (c + 4) (by omega)))
  have hparams := parseItems_item "label".toList hlabel (parseItems_stop _ (hstopI (c + 2)))
  have hentry := parseItems_item (cdKey d.level d.phase)
    (parseKeys_items _ rfl rfl hparams (parseKeys_stop _ (hstopK (c + 2) (by omega))))
    (parseItems_stop _ (hstopI c))
  rw [hlines, hcolumn, hcolumn₁]
  exact ⟨_, l, ls, hentry, hindent, hdash⟩

theorem parse_lines (n : ℕ) : ∀ (ds : List Params) (fuel c : ℕ), ds.length ≤ n →
    3 * n + 8 ≤ fuel → c + 2 < 2 ^ 32 →
    (∃ (F : Forest) (ds' : List Params), F.preorder ++ ds' = ds ∧ F.Nested c ∧
      parseItems fuel c (paramLines ds) = some (F.events, paramLines ds')) ∨
    ∃ es l ls, parseItems fuel c (paramLines ds) = some (es, l :: ls) ∧
      l.indent = 0 ∧ l.dash = false := by
  induction n with
  | zero =>
      intro ds fuel c hds hfuel _
      obtain rfl := List.length_eq_zero_iff.mp (Nat.le_zero.mp hds)
      obtain ⟨fuel, rfl⟩ : ∃ f, fuel = f + 1 := ⟨fuel - 1, by omega⟩
      exact .inl ⟨.nil, [], rfl, trivial, rfl⟩
  | succ n ih =>
      intro ds fuel c hds hfuel hc
      obtain ⟨fuel, rfl⟩ : ∃ f, fuel = f + 8 := ⟨fuel - 8, by omega⟩
      by_cases hhead : ∃ d ∈ ds.head?, column d.level = c
      · obtain ⟨d, hd, hcolumn⟩ := hhead
        obtain ⟨ds, rfl⟩ : ∃ ds', ds = d :: ds' := by
          cases ds with
          | nil => cases hd
          | cons e ds => cases hd; exact ⟨ds, rfl⟩
        rw [List.length_cons] at hds
        by_cases hwrap : c + 4 < 2 ^ 32
        · obtain ⟨K, ds₁, hK, hnested, hkids⟩ | ⟨ks, l, ls, hkids, hl, hdash⟩ :=
            ih ds (fuel + 5) (c + 2) (by omega) (by omega) (by omega)
          · have hlen : ds₁.length ≤ n := by
              have := congrArg List.length hK
              simp only [List.length_append] at this
              omega
            obtain ⟨R, ds₂, hR, hnested', hrest⟩ | ⟨rs, l, ls, hrest, hl⟩ :=
              ih ds₁ (fuel + 7) c hlen (by omega) hc
            · refine .inl ⟨.node d K R, ds₂, ?_, ⟨⟨hcolumn, hwrap⟩, hnested, hnested'⟩, ?_⟩
              · rw [← hK, ← hR, Forest.preorder, List.cons_append, List.append_assoc]
              · exact parse_entry hcolumn hwrap (stopsKeys_lines _ _) hkids (stopsKeys_lines _ _)
                  hrest
            · exact .inr ⟨_, l, ls, parse_entry hcolumn hwrap (stopsKeys_lines _ _) hkids
                (stopsKeys_lines _ _) hrest, hl⟩
          · -- no open mapping or sequence takes the line on which the children stop
            have hstopK : StopsKeys (c + 2) (l :: ls) := by
              intro l' hl' hbad
              cases hl'
              omega
            have hstopI : StopsItems c (l :: ls) := by
              intro l' hl' hbad
              cases hl'
              rw [hdash] at hbad
              cases hbad.2
            exact .inr ⟨_, l, ls, parse_entry hcolumn hwrap (stopsKeys_lines _ _) hkids hstopK
              (parseItems_stop _ hstopI), hl, hdash⟩
        · exact .inr (parse_wrapped hcolumn hc hwrap _)
      · refine .inl ⟨.nil, ds, rfl, trivial, ?_⟩
        exact parseItems_stop _ (stopsItems_lines fun d hd h => hhead ⟨d, hd, h⟩)

theorem blockEvents_lines (hd : column d.level = 0) {ds : List Params} {es : List Event} :
    blockEvents (paramLines (d :: ds)) = some es ↔
      ∃ F : Forest, F.Nested 0 ∧ F.preorder = d :: ds ∧ es = .seqStart :: F.events ++ [.seqEnd] := by
  obtain ⟨l, ls, hlines, hdash, hindent⟩ : ∃ l ls, paramLines (d :: ds) = l :: ls ∧
      l.dash = true ∧ l.indent = 0 :=
    ⟨_, _, rfl, rfl, hd⟩
  have hlen : (l :: ls).length = 5 * (ds.length + 1) := by
    rw [← hlines, paramLines_length, List.length_cons]
  constructor
  · intro h
    obtain ⟨F, ds', hF, hnested, hparse⟩ | ⟨es', l', ls', hparse, -⟩ :=
      parse_lines (ds.length + 1) (d :: ds) (2 * (l :: ls).length + 1) 0 (by simp)
        (by rw [hlen]; omega) (by decide)
    · rw [hlines] at hparse h
      rw [blockEvents_items hdash (by rw [hindent]; exact hparse)] at h
      cases ds' with
      | nil =>
          rw [List.append_nil] at hF
          exact ⟨F, hnested, hF, (Option.some.inj h).symm⟩
      | cons e ds' => cases h
    · rw [hlines] at hparse h
      rw [blockEvents_items hdash (by rw [hindent]; exact hparse)] at h
      cases h
  · rintro ⟨F, hnested, hF, rfl⟩
    have hsize : F.size = ds.length + 1 := by rw [← F.length_preorder, hF, List.length_cons]
    have hparse := parse_nested F (2 * (l :: ls).length + 1) 0 [] (by rw [hlen]; omega) hnested
      (by simp)
    rw [List.append_nil, hF, hlines] at hparse
    rw [hlines, blockEvents_items hdash (by rw [hindent]; exact hparse)]
    rfl

end Parse

end CDRuntime.Phase
