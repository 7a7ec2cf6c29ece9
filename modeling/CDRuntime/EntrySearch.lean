import CDRuntime.CDID
import CDRuntime.Packer

namespace CDRuntime.EntrySearch
open TableStore

/-- The members of a CD that the search reads. -/
structure CD where
  level : ℕ
  mode : ExecMode
  remoteEntryDirectoryMap : List (UInt64 × CDEntry)
  table : TableStore CDEntry

/-- The CDs from the root to the leaf; each one is at the index of its level. -/
structure CDPath where
  cds : List CD
  level : ∀ (i : ℕ) (cd : CD), cds[i]? = some cd → cd.level = i

/-- The newest entry of the table counts, unless the map has one; a reference is not found. -/
def CD.internalGetEntry (cd : CD) (tag : UInt64) : Option (Option CDEntry) := do
  let entry ← match cd.remoteEntryDirectoryMap.lookup tag with
    | some e => some (some e)
    | none => cd.table.findReverse tag
  some (entry.filter fun e => !e.size_.check Attr.krefer)

namespace CDPath

/-- `at` throws for an index outside of the path. -/
def getParentCD (p : CDPath) (currentLevel : ℕ) : Option (Option CD) :=
  if 1 < p.cds.length ∧ 1 ≤ currentLevel then p.cds[currentLevel - 1]?.map some
  else some none

/-- A CD in suspension leaves the turn to its parent. -/
def getCurrentCD (p : CDPath) : Option (Option CD) :=
  match p.cds.getLast? with
  | none => some none
  | some cd => if cd.mode ≠ .suspension then some (some cd) else p.getParentCD cd.level

/-- The loop of `SearchEntry` for at most `fuel` rounds, with the `found_level` of the caller; the
attribute searched for is `knoattr`. -/
def searchLoop (p : CDPath) (tag : UInt64) : ℕ → Option CD → ℕ → Option (Option CDEntry × ℕ)
  | 0, _, _ => none
  | _ + 1, none, foundLevel => some (none, foundLevel)
  | fuel + 1, some cd, foundLevel => do
      match ← cd.internalGetEntry tag with
      | some e =>
          -- the assertion on the entry found
          if e.size_.check Attr.krefer then none else some (some e, cd.level)
      | none => searchLoop p tag fuel (← p.getParentCD cd.level) foundLevel

/-- The CD is all that a round changes, so a search that has not ended after a round for each CD
and one more never ends. -/
def searchEntry (p : CDPath) (tag : UInt64) (foundLevel : ℕ) : Option (Option CDEntry × ℕ) := do
  p.searchLoop tag (p.cds.length + 1) (← p.getCurrentCD) foundLevel

def depth (p : CDPath) : ℕ :=
  match p.cds.getLast? with
  | none => 0
  | some cd => if cd.mode ≠ .suspension then p.cds.length else p.cds.length - 1

end CDPath

/-- The copy under a tag among the entries of one level: the newest entry, when it is not a
reference. -/
def copyIn (es : List CDEntry) (tag : UInt64) : Option CDEntry :=
  (es.reverse.find? fun e => e.id = tag).filter fun e => !e.size_.check Attr.krefer

def resolve (es : ℕ → List CDEntry) (tag : UInt64) : ℕ → Option (CDEntry × ℕ)
  | 0 => none
  | level + 1 =>
      match copyIn (es level) tag with
      | some e => some (e, level)
      | none => resolve es tag level

section Resolve

variable {es : ℕ → List CDEntry} {tag : UInt64}

theorem resolve_some_iff {e : CDEntry} {level : ℕ} (n : ℕ) :
    resolve es tag n = some (e, level) ↔ level < n ∧ copyIn (es level) tag = some e ∧
      ∀ k, level < k → k < n → copyIn (es k) tag = none := by
  induction n with
  | zero =>
      constructor
      · intro h
        cases h
      · intro h
        exact absurd h.1 (Nat.not_lt_zero level)
  | succ n ih =>
      rw [resolve]
      cases hcopy : copyIn (es n) tag with
      | some e' =>
          constructor
          · intro h
            obtain ⟨rfl, rfl⟩ := Prod.mk.inj (Option.some.inj h)
            exact ⟨Nat.lt_succ_self n, hcopy, fun k hlt hk => by omega⟩
          · rintro ⟨hlt, hlevel, hdeeper⟩
            have hn : level = n := by
              by_contra hne
              have hnone := hdeeper n (by omega) (Nat.lt_succ_self n)
              rw [hcopy] at hnone
              cases hnone
            rw [hn, hcopy] at hlevel
            rw [hn, Option.some.inj hlevel]
      | none =>
          show resolve es tag n = some (e, level) ↔ _
          rw [ih]
          constructor
          · rintro ⟨hlt, hlevel, hdeeper⟩
            refine ⟨Nat.lt_succ_of_lt hlt, hlevel, fun k hlk hk => ?_⟩
            rcases Nat.lt_succ_iff_lt_or_eq.mp hk with hkn | rfl
            · exact hdeeper k hlk hkn
            · exact hcopy
          · rintro ⟨hlt, hlevel, hdeeper⟩
            have hne : level ≠ n := by
              rintro rfl
              rw [hcopy] at hlevel
              cases hlevel
            exact ⟨by omega, hlevel, fun k hlk hk => hdeeper k hlk (Nat.lt_succ_of_lt hk)⟩

theorem resolve_none_iff (n : ℕ) :
    resolve es tag n = none ↔ ∀ level < n, copyIn (es level) tag = none := by
  induction n with
  | zero => exact iff_of_true rfl fun level hlt => absurd hlt (Nat.not_lt_zero level)
  | succ n ih =>
      rw [resolve, Nat.forall_lt_succ_right, ← ih]
      cases copyIn (es n) tag with
      | some e => exact iff_of_false (fun h => nomatch h) fun h => nomatch h.2
      | none => exact (and_iff_left rfl).symm

end Resolve

/-- What the caller gets back; `found_level` keeps its value when nothing is found. -/
def report (foundLevel : ℕ) : Option (CDEntry × ℕ) → Option CDEntry × ℕ
  | some (e, level) => (some e, level)
  | none => (none, foundLevel)

section Search

variable {p : CDPath} {es : ℕ → List CDEntry}

/-- The tables of the path hold the entries, and nothing has been gathered from other tasks. -/
def Lists (p : CDPath) (es : ℕ → List CDEntry) : Prop :=
  ∀ (i : ℕ) (cd : CD), p.cds[i]? = some cd →
    cd.table.Shows (es i) ∧ cd.remoteEntryDirectoryMap = []

theorem internalGetEntry_spec {cd : CD} {fs : List CDEntry} (h : cd.table.Shows fs)
    (hmap : cd.remoteEntryDirectoryMap = []) (tag : UInt64) :
    cd.internalGetEntry tag = some (copyIn fs tag) := by
  have hrev := findReverse_spec h tag
  simp only [CD.internalGetEntry, hmap, List.lookup_nil, hrev, Option.bind_eq_bind,
    Option.bind_some]
  rfl

def deepest (p : CDPath) : ℕ → Option CD
  | 0 => none
  | n + 1 => p.cds[n]?

theorem getParentCD_spec {level : ℕ} {cd : CD} (hcd : p.cds[level]? = some cd) :
    p.getParentCD level = some (deepest p level) := by
  have hlt : level < p.cds.length := (List.getElem?_eq_some_iff.mp hcd).1
  cases level with
  | zero => rw [CDPath.getParentCD, if_neg (by omega), deepest]
  | succ level =>
      have hget := List.getElem?_eq_getElem (show level < p.cds.length by omega)
      rw [CDPath.getParentCD, if_pos (by omega), Nat.add_sub_cancel, deepest, hget, Option.map_some]

theorem not_refer_of_copyIn {fs : List CDEntry} {tag : UInt64} {e : CDEntry}
    (h : copyIn fs tag = some e) : e.size_.check Attr.krefer = false := by
  have hnot := (Option.filter_eq_some_iff.mp h).2
  exact Bool.not_eq_true' _ |>.mp hnot

theorem searchLoop_spec (h : Lists p es) (tag : UInt64) (foundLevel n : ℕ) :
    n ≤ p.cds.length → ∀ fuel, n < fuel →
      p.searchLoop tag fuel (deepest p n) foundLevel =
        some (report foundLevel (resolve es tag n)) := by
  induction n with
  | zero =>
      intro _ fuel hfuel
      obtain ⟨fuel, rfl⟩ := Nat.exists_eq_add_one_of_ne_zero (Nat.ne_of_gt hfuel)
      rfl
  | succ n ih =>
      intro hn fuel hfuel
      obtain ⟨fuel, rfl⟩ := Nat.exists_eq_add_one_of_ne_zero (by omega : fuel ≠ 0)
      have hget := List.getElem?_eq_getElem (show n < p.cds.length from hn)
      obtain ⟨hshows, hmap⟩ := h n _ hget
      have hentry := internalGetEntry_spec hshows hmap tag
      have hparent := getParentCD_spec hget
      have hlevel := p.level n _ hget
      rw [deepest, hget, CDPath.searchLoop, hentry, hlevel, hparent, resolve]
      cases hcopy : copyIn (es n) tag with
      | some e =>
          have hcheck := not_refer_of_copyIn hcopy
          simp only [Option.bind_eq_bind, Option.bind_some, hcheck, Bool.false_eq_true, if_false]
          rfl
      | none =>
          simp only [Option.bind_eq_bind, Option.bind_some]
          exact ih (by omega) fuel (by omega)

theorem getCurrentCD_spec (p : CDPath) : p.getCurrentCD = some (deepest p p.depth) := by
  rw [CDPath.getCurrentCD, CDPath.depth]
  cases hlast : p.cds.getLast? with
  | none => rfl
  | some cd =>
      have hget : p.cds[p.cds.length - 1]? = some cd := by
        rw [← List.getLast?_eq_getElem?, hlast]
      have hlt := (List.getElem?_eq_some_iff.mp hget).1
      by_cases hmode : cd.mode ≠ .suspension
      · simp only [if_pos hmode]
        rw [← Nat.sub_add_cancel (show 1 ≤ p.cds.length by omega), deepest, hget]
      · simp only [if_neg hmode]
        rw [p.level _ _ hget, getParentCD_spec hget]

theorem depth_le (p : CDPath) : p.depth ≤ p.cds.length := by
  rw [CDPath.depth]
  split
  · exact Nat.zero_le _
  · split_ifs
    · exact Nat.le_refl _
    · exact Nat.sub_le _ _

/-- The search ends without a failed assertion. It returns the newest entry of the deepest level,
from the current CD up, whose newest entry is not a reference, and `found_level` is that level;
it returns `NULL` exactly when there is no such level. -/
theorem searchEntry_spec (h : Lists p es) (tag : UInt64) (foundLevel : ℕ) :
    ∃ r, p.searchEntry tag foundLevel = some r ∧
      (∀ e, r.1 = some e ↔ r.2 < p.depth ∧ copyIn (es r.2) tag = some e ∧
        ∀ level, r.2 < level → level < p.depth → copyIn (es level) tag = none) ∧
      (r.1 = none ↔ ∀ level < p.depth, copyIn (es level) tag = none) ∧
      (r.1 = none → r.2 = foundLevel) := by
  have hrun : p.searchEntry tag foundLevel =
      some (report foundLevel (resolve es tag p.depth)) := by
    rw [CDPath.searchEntry, getCurrentCD_spec]
    exact searchLoop_spec h tag foundLevel p.depth (depth_le p) _
      (Nat.lt_succ_of_le (depth_le p))
  refine ⟨_, hrun, ?_⟩
  cases hres : resolve es tag p.depth with
  | some r =>
      obtain ⟨e, level⟩ := r
      have hspec := (resolve_some_iff p.depth).mp hres
      refine ⟨fun e' => ?_, ?_, fun hnull => nomatch hnull⟩
      · constructor
        · intro he
          exact Option.some.inj he ▸ hspec
        · intro he
          exact hspec.2.1.symm.trans he.2.1
      · apply iff_of_false (fun hnull => nomatch hnull)
        intro hnone
        exact nomatch hspec.2.1.symm.trans (hnone level hspec.1)
  | none =>
      have hnone := (resolve_none_iff p.depth).mp hres
      refine ⟨fun e => ?_, iff_of_true rfl hnone, fun _ => rfl⟩
      apply iff_of_false (fun he => nomatch he)
      intro he
      exact nomatch he.2.1.symm.trans (hnone foundLevel he.1)

end Search

def fullTable (es : List CDEntry) : TableStore CDEntry :=
  ⟨es.length * 32, 0, es.length, 0, es.length, 1, some es⟩

theorem fullTable_shows (es : List CDEntry) : (fullTable es).Shows es :=
  ⟨rfl, fun _ => ⟨es, rfl, rfl⟩⟩

def referringLeaf : CDPath where
  cds := [⟨0, .execution, [], fullTable [⟨7, .ofSize 4, 0, 64⟩]⟩,
    ⟨1, .execution, [], fullTable [⟨7, .ofAttr Attr.krefer 4, 0, 7⟩]⟩]
  level := by
    intro i cd h
    match i with
    | 0 => exact Option.some.inj h ▸ rfl
    | 1 => exact Option.some.inj h ▸ rfl
    | _ + 2 => exact nomatch h

theorem searchEntry_referringLeaf :
    ∃ r, referringLeaf.searchEntry 7 9 = some r ∧ r.1 ≠ none := by
  have hlists : Lists referringLeaf fun level =>
      if level = 0 then [⟨7, .ofSize 4, 0, 64⟩] else [⟨7, .ofAttr Attr.krefer 4, 0, 7⟩] := by
    intro i cd h
    match i with
    | 0 => exact Option.some.inj h ▸ ⟨fullTable_shows _, rfl⟩
    | 1 => exact Option.some.inj h ▸ ⟨fullTable_shows _, rfl⟩
    | _ + 2 => exact nomatch h
  obtain ⟨r, hrun, -, hnone, -⟩ := searchEntry_spec hlists 7 9
  refine ⟨r, hrun, fun hr => ?_⟩
  exact absurd (hnone.mp hr 0 (by decide)) (by decide)

theorem restore_selects {p : Packer} {mem mem' : Cells UInt8} {tag : UInt64} {dst len : ℕ}
    {entry : Option CDEntry} (h : p.restore mem tag dst len = some (entry, mem')) :
    p.table.find tag = some entry := by
  obtain ⟨found, hfind, hrest⟩ := Option.bind_eq_some_iff.mp h
  rw [hfind]
  cases found with
  | none => exact congrArg some (Prod.mk.inj (Option.some.inj hrest)).1
  | some e =>
      simp only at hrest
      by_cases hempty : e.src = 0 ∨ e.size = 0
      · rw [if_pos hempty] at hrest
        exact congrArg some (Prod.mk.inj (Option.some.inj hrest)).1
      · rw [if_neg hempty] at hrest
        by_cases hnested : e.size_.check Attr.knested
        · rw [if_pos hnested] at hrest
          cases hrest
        · rw [if_neg hnested] at hrest
          obtain ⟨xs, -, hrest⟩ := Option.bind_eq_some_iff.mp hrest
          exact congrArg some (Prod.mk.inj (Option.some.inj hrest)).1

def insertAll (t : TableStore CDEntry) : List CDEntry → Option (TableStore CDEntry)
  | [] => some t
  | e :: es => do insertAll (← t.insert e) es

theorem insertAll_holds (new : List CDEntry) :
    ∀ {t : TableStore CDEntry} {es : List CDEntry}, t.Holds es →
      ∃ t', insertAll t new = some t' ∧ t'.Holds (es ++ new) := by
  induction new with
  | nil =>
      intro t es h
      exact ⟨t, rfl, by rw [List.append_nil]; exact h⟩
  | cons e new ih =>
      intro t es h
      obtain ⟨t₁, hins, hholds⟩ := insert_spec h Packer.entrySize_pos e
      obtain ⟨t', hrest, hholds'⟩ := ih hholds
      refine ⟨t', ?_, ?_⟩
      · rw [insertAll, hins]
        exact hrest
      · rw [List.append_assoc] at hholds'
        exact hholds'

/-- What `InternalGetEntry` returns is what `Find` returns and what `Restore` selects, unless the
newest entry under the id is a reference. -/
def LookupsAgree (cd : CD) (id : UInt64) : Prop :=
  ∃ newest entry, cd.table.findReverse id = some newest ∧ cd.internalGetEntry id = some entry ∧
    ((∀ e, newest = some e → e.size_.check Attr.krefer = false) →
      cd.table.find id = some entry ∧
      ∀ (p : Packer) (mem mem' : Cells UInt8) (dst len : ℕ) (e : Option CDEntry),
        p.table = cd.table → p.restore mem id dst len = some (e, mem') → e = entry)

/-- The first entry with the id is the newest one too, and `Find` gets there. -/
def OneVersion (es : List CDEntry) (id : UInt64) : Prop :=
  match es.reverse.find? fun e => e.id = id with
  | none => es.length < 2 ^ 32
  | some newest =>
      newest.size_.check Attr.krefer = true ∨
        (es.find? fun e => e.id = id) = some newest ∧ es.findIdx (fun e => e.id = id) < 2 ^ 32

theorem find_spec {t : TableStore CDEntry} {es : List CDEntry} (h : t.Shows es) {id : UInt64}
    {e : CDEntry} (he : (es.find? fun e => e.id = id) = some e) :
    t.find id = if es.findIdx (fun e => e.id = id) < 2 ^ 32 then some (some e) else none := by
  obtain ⟨hid, front, rest, rfl, hfront⟩ := List.find?_eq_some_iff_append.mp he
  obtain rfl := of_decide_eq_true hid
  have hother : ∀ (j : ℕ) e', j < front.length → (front ++ e :: rest)[j]? = some e' →
      e'.id ≠ e.id := by
    intro j e' hj he'
    rw [List.getElem?_append_left hj] at he'
    have hnot := hfront e' (List.mem_of_getElem? he')
    exact of_decide_eq_false (Bool.not_eq_true' _ |>.mp hnot)
  have hget : (front ++ e :: rest)[front.length]? = some e := by
    rw [List.getElem?_append_right (Nat.le_refl _), Nat.sub_self, List.getElem?_cons_zero]
  obtain ⟨hlt, hat⟩ := List.getElem?_eq_some_iff.mp hget
  have hidx : (front ++ e :: rest).findIdx (fun e' => e'.id = e.id) = front.length := by
    apply (List.findIdx_eq hlt).mpr
    refine ⟨by rw [hat]; exact decide_eq_true rfl, fun j hj => ?_⟩
    exact decide_eq_false (hother j _ hj (List.getElem?_eq_getElem _))
  rw [hidx]
  split_ifs with hsmall
  · exact find_found h hget hsmall hother
  · exact find_beyond h (fun j e' hj he' => hother j e' (by omega) he') (by omega)

theorem internalGetEntry_of_table {cd : CD} (hmap : cd.remoteEntryDirectoryMap = [])
    {id : UInt64} {newest : Option CDEntry} (h : cd.table.findReverse id = some newest) :
    cd.internalGetEntry id = some (newest.filter fun e => !e.size_.check Attr.krefer) := by
  rw [CD.internalGetEntry, hmap]
  simp only [List.lookup_nil, h, Option.bind_eq_bind, Option.bind_some]

theorem filter_copy {newest : Option CDEntry}
    (h : ∀ e, newest = some e → e.size_.check Attr.krefer = false) :
    (newest.filter fun e => !e.size_.check Attr.krefer) = newest := by
  cases newest with
  | none => rfl
  | some e => rw [Option.filter_some, h e rfl, if_pos (by decide)]

theorem lookupsAgree_iff {cd : CD} (hmap : cd.remoteEntryDirectoryMap = []) {id : UInt64}
    {newest : Option CDEntry} (h : cd.table.findReverse id = some newest) :
    LookupsAgree cd id ↔
      ((∀ e, newest = some e → e.size_.check Attr.krefer = false) →
        cd.table.find id = some newest) := by
  have hentry := internalGetEntry_of_table hmap h
  constructor
  · rintro ⟨newest', entry, hnewest, hget, hagree⟩ hcopy
    obtain rfl := Option.some.inj (h.symm.trans hnewest)
    obtain rfl := Option.some.inj (hentry.symm.trans hget)
    rw [(hagree hcopy).1, filter_copy hcopy]
  · intro hfind
    refine ⟨newest, _, h, hentry, fun hcopy => ?_⟩
    rw [filter_copy hcopy]
    refine ⟨hfind hcopy, ?_⟩
    intro p mem mem' dst len e htable hrestore
    have hselect := restore_selects hrestore
    rw [htable, hfind hcopy] at hselect
    exact (Option.some.inj hselect).symm

/-- The two look-ups agree exactly on the ids with one version. -/
theorem lookups_agree_iff {alloc : ℕ} (halloc : 0 < alloc) (es : List CDEntry) :
    ∃ t, insertAll (create CDEntry alloc) es = some t ∧
      ∀ (cd : CD) (id : UInt64), cd.table = t → cd.remoteEntryDirectoryMap = [] →
        (LookupsAgree cd id ↔ OneVersion es id) := by
  obtain ⟨t, hrun, hholds⟩ := insertAll_holds es (create_holds (E := CDEntry) halloc)
  rw [List.nil_append] at hholds
  refine ⟨t, hrun, fun cd id ht hmap => ?_⟩
  have hrev : cd.table.findReverse id = some (es.reverse.find? fun e => e.id = id) := by
    rw [ht]
    exact findReverse_spec hholds.shows id
  rw [lookupsAgree_iff hmap hrev, ht, OneVersion]
  cases hnew : es.reverse.find? fun e => e.id = id with
  | none =>
      have habs : ∀ e ∈ es, e.id ≠ id := by
        intro e he
        exact of_decide_eq_false
          (Bool.eq_false_iff.mpr (List.find?_eq_none.mp hnew e (List.mem_reverse.mpr he)))
      rw [find_absent hholds.shows habs]
      constructor
      · intro hfind
        by_contra hbig
        rw [if_neg hbig] at hfind
        exact nomatch hfind fun e he => nomatch he
      · intro hsmall _
        exact if_pos hsmall
  | some newest =>
      -- an entry that is found from the end is there to be found from the beginning
      have hex : ∃ first, (es.find? fun e => e.id = id) = some first := by
        have hid := List.find?_some (p := fun e : CDEntry => decide (e.id = id)) hnew
        rw [← Option.isSome_iff_exists, List.find?_isSome]
        exact ⟨newest, List.mem_reverse.mp (List.mem_of_find?_eq_some hnew), hid⟩
      obtain ⟨first, hfirst⟩ := hex
      rw [find_spec hholds.shows hfirst, hfirst]
      constructor
      · intro hfind
        by_cases href : newest.size_.check Attr.krefer
        · exact Or.inl href
        · have hsame := hfind fun e he => Option.some.inj he ▸ Bool.eq_false_iff.mpr href
          by_cases hsmall : es.findIdx (fun e => e.id = id) < 2 ^ 32
          · rw [if_pos hsmall] at hsame
            exact Or.inr ⟨Option.some.inj hsame, hsmall⟩
          · rw [if_neg hsmall] at hsame
            cases hsame
      · rintro (href | ⟨hsame, hsmall⟩) hcopy
        · exact nomatch href.symm.trans (hcopy newest rfl)
        · rw [if_pos hsmall, hsame]

def localCD (table : TableStore CDEntry) : CD := ⟨0, .execution, [], table⟩

theorem preserved_twice : ∃ t,
    insertAll (create CDEntry 1) [⟨7, .ofSize 4, 0, 64⟩, ⟨7, .ofSize 4, 8, 64⟩] = some t ∧
      ¬ LookupsAgree (localCD t) 7 := by
  obtain ⟨t, hrun, hholds⟩ := insertAll_holds
    [⟨7, .ofSize 4, 0, 64⟩, ⟨7, .ofSize 4, 8, 64⟩] (create_holds (E := CDEntry) Nat.one_pos)
  refine ⟨t, hrun, fun h => ?_⟩
  have hrev : t.findReverse 7 = some (some ⟨7, .ofSize 4, 8, 64⟩) :=
    findReverse_spec hholds.shows 7
  have hfind : t.find 7 = some (some ⟨7, .ofSize 4, 0, 64⟩) :=
    (find_spec hholds.shows rfl).trans (if_pos (by decide))
  have hsame := (lookupsAgree_iff rfl hrev).mp h fun e he => Option.some.inj he ▸ rfl
  exact absurd (hfind.symm.trans hsame) (by decide)

theorem lookups_agree_once : ∃ t,
    insertAll (create CDEntry 1) [⟨7, .ofSize 4, 0, 64⟩, ⟨8, .ofSize 4, 8, 32⟩,
      ⟨8, .ofSize 4, 16, 32⟩] = some t ∧
      LookupsAgree (localCD t) 7 ∧ ¬ LookupsAgree (localCD t) 8 := by
  obtain ⟨t, hrun, hagree⟩ := lookups_agree_iff Nat.one_pos
    [⟨7, .ofSize 4, 0, 64⟩, ⟨8, .ofSize 4, 8, 32⟩, ⟨8, .ofSize 4, 16, 32⟩]
  refine ⟨t, hrun, (hagree (localCD t) 7 rfl rfl).mpr ?_, fun h => ?_⟩
  · exact Or.inr ⟨rfl, by decide⟩
  · rcases (hagree (localCD t) 8 rfl rfl).mp h with href | ⟨hsame, -⟩
    · exact absurd href (by decide)
    · exact absurd hsame (by decide)

end CDRuntime.EntrySearch
