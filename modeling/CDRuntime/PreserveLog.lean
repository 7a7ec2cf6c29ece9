import CDRuntime.PreserveItems
import Mathlib.Data.List.Induction

namespace CDRuntime.Preserve
open Cells Packer TableStore RemoteEntries

/-- The items of a directory, and where `remote_entry_directory_map_` leads among them. -/
structure Log where
  items : List Item
  shared : UInt64 → Option ℕ

namespace Log

def held (log : Log) (tag : UInt64) : Option Item :=
  match log.shared tag with
  | some i => log.items[i]?
  | none => log.items.reverse.find? fun it => it.id = tag

/-- What the directory itself has under a tag. -/
def own (log : Log) (tag : UInt64) : Option Item := (log.held tag).filter fun it => it.mem?.isSome

/-- The table has not grown since its entry was registered under the tag. -/
def Live (a : ℕ) (log : Log) (tag : UInt64) : Prop :=
  ∀ i, log.shared tag = some i → grown a (i + 1) = grown a log.items.length

end Log

structure Books (base a : ℕ) (cd : CD) (log : Log) : Prop where
  kept : Kept base a cd.dir log.items
  remote : ∀ tag, cd.remote tag = (log.shared tag).map fun i => (grown a (i + 1) + 1, i)
  within : ∀ tag i, log.shared tag = some i → i < log.items.length

theorem Books.held {base a : ℕ} {cd : CD} {log : Log} (h : Books base a cd log) {tag : UInt64}
    (hlive : log.Live a tag) :
    match log.held tag with
    | none => internalGetEntry cd tag = some none
    | some it => ∃ pre post, log.items = pre ++ it :: post ∧ internalGetEntry cd tag =
        some ((some (it.entry (place base pre))).filter fun e => !e.size_.check Attr.krefer) := by
  have htable := h.kept.stored.table
  rw [h.kept.base] at htable
  rw [Log.held, internalGetEntry, h.remote]
  cases hs : log.shared tag with
  | some i =>
      have hi := h.within tag i hs
      have hsplit : log.items = log.items.take i ++ log.items[i] :: log.items.drop (i + 1) := by
        rw [← List.drop_eq_getElem_cons hi, List.take_append_drop]
      have hget : (layout Item.entry Item.bytes base (log.items.take i ++
          log.items[i] :: log.items.drop (i + 1)))[(log.items.take i).length]? =
            some (log.items[i].entry (place base (log.items.take i))) :=
        layout_getElem? base (log.items.take i) (log.items.drop (i + 1)) log.items[i]
      rw [← hsplit, List.length_take_of_le (Nat.le_of_lt hi)] at hget
      obtain ⟨ptr, hptr, hread⟩ :=
        htable.shows.getElem? (i := i) (by rw [layout_length]; exact hi)
      have hblock : grown a (i + 1) + 1 = cd.dir.table.allocated := by
        rw [hlive i hs, h.kept.allocated]
      dsimp only
      rw [List.getElem?_eq_getElem hi]
      refine ⟨_, _, hsplit, ?_⟩
      simp only [Option.map_some, RemoteEntries.entryIn, if_pos hblock, hptr, hread, hget,
        Option.bind_eq_bind, Option.bind_some]
  | none =>
      have hfind := findReverse_spec htable.shows tag
      dsimp only
      cases hn : log.items.reverse.find? (fun it => it.id = tag) with
      | none =>
          have habs : ∀ it ∈ log.items, it.id ≠ tag := by
            intro it hit
            simpa using List.find?_eq_none.mp hn it (List.mem_reverse.mpr hit)
          rw [layout_none base habs] at hfind
          simp only [Option.map_none, hfind, Option.bind_eq_bind, Option.bind_some]
          rfl
      | some it =>
          obtain ⟨hid, front, back, hrev, hfront⟩ := List.find?_eq_some_iff_append.mp hn
          have hitems : log.items = back.reverse ++ it :: front.reverse := by
            rw [← List.reverse_reverse log.items, hrev]
            simp
          have hlater : ∀ it' ∈ front.reverse, it'.id ≠ tag := by
            intro it' hit'
            simpa using hfront it' (List.mem_reverse.mp hit')
          rw [hitems, layout_newest base _ (by simpa using hid) hlater] at hfind
          refine ⟨_, _, hitems, ?_⟩
          simp only [Option.map_none, hfind, Option.bind_eq_bind, Option.bind_some]
          rfl

theorem internalGetEntry_spec {base a : ℕ} {cd : CD} {log : Log} (h : Books base a cd log)
    {tag : UInt64} (hlive : log.Live a tag) :
    match log.own tag with
    | none => internalGetEntry cd tag = some none
    | some it => ∃ pre post, log.items = pre ++ it :: post ∧
        internalGetEntry cd tag = some (some (it.entry (place base pre))) := by
  have hheld := h.held hlive
  rw [Log.own]
  cases hit : log.held tag with
  | none =>
      rw [hit] at hheld
      exact hheld
  | some it =>
      rw [hit] at hheld
      obtain ⟨pre, post, hitems, hget⟩ := hheld
      rw [Option.filter_some, Item.check_krefer] at hget
      rw [Option.filter_some]
      cases hmem : it.mem? with
      | none =>
          rw [hmem] at hget
          exact hget
      | some mem =>
          rw [hmem] at hget
          exact ⟨pre, post, hitems, hget⟩

section Calls

variable (hash : String → UInt64) (outer : Outer) (base a : ℕ)

def Call.referItem (c : Call) : Item :=
  .refer (c.id hash) c.coop c.serdes (if c.serdes then c.totalSize else c.len) c.refOffset
    (c.refId hash)

/-- A reference that finds nothing becomes a copy under the name it refers to. -/
def Call.leaves (c : Call) (mem : Cells UInt8) (log : Log) : List Item :=
  if c.copy then c.items base mem (c.id hash) log.items
  else if c.ignore ∨ (log.own (c.refId hash)).isSome ∨ (outer (c.refId hash)).isSome then
    [c.referItem hash]
  else c.items base mem (c.refId hash) log.items

/-- `kCoop` registers the last entry under the name of the call. -/
def logCall (log : Log) (x : Call × Cells UInt8) : Log where
  items := log.items ++ x.1.leaves hash outer base x.2 log
  shared := if x.1.id hash ≠ INVALID_NUM ∧ x.1.coop then
      Function.update log.shared (x.1.id hash)
        (some ((log.items ++ x.1.leaves hash outer base x.2 log).length - 1))
    else log.shared

def logOf (xs : List (Call × Cells UInt8)) : Log :=
  xs.foldl (logCall hash outer base) ⟨[], fun _ => none⟩

/-- A call that can preserve: its pointer into the table, if it follows one, is live. -/
structure Preservable (log : Log) (c : Call) : Prop where
  name : c.name ≠ ""
  type : c.copy ∨ c.ref
  live : c.copy = false → c.ignore = false → log.Live a (c.refId hash)

variable {hash outer base a}

theorem logOf_snoc (xs : List (Call × Cells UInt8)) (x : Call × Cells UInt8) :
    logOf hash outer base (xs ++ [x]) = logCall hash outer base (logOf hash outer base xs) x := by
  rw [logOf, List.foldl_append]
  rfl

theorem Call.items_ne_nil (c : Call) (mem : Cells UInt8) (id : UInt64) (old : List Item) :
    c.items base mem id old ≠ [] :=
  List.append_ne_nil_of_right_ne_nil _ (List.cons_ne_nil _ _)

variable (hash outer base) in
theorem Call.leaves_ne_nil (c : Call) (mem : Cells UInt8) (log : Log) :
    c.leaves hash outer base mem log ≠ [] := by
  unfold Call.leaves
  split_ifs
  · exact c.items_ne_nil mem _ _
  · exact List.cons_ne_nil _ _
  · exact c.items_ne_nil mem _ _

theorem preserveRef_spec {dir : Packer} {items : List Item} (h : Kept base a dir items)
    (c : Call) :
    ∃ dir', preserveRef hash dir c = some dir' ∧
      Kept base a dir' (items ++ [c.referItem hash]) := by
  obtain ⟨t, hins, hkept⟩ := h.listed (show (c.referItem hash).bytes = [] from rfl) trivial
  have hentry : ∀ off, (c.referItem hash).entry off =
      ⟨c.id hash,
        .ofAttr (c.remote ||| Attr.krefer ||| (if c.serdes then Attr.knested else 0))
          (if c.serdes then c.totalSize else c.len), c.refOffset, (c.refId hash).toNat⟩ :=
    fun _ => rfl
  rw [hentry] at hins
  refine ⟨{ dir with table := t }, ?_, hkept⟩
  simp only [preserveRef, hins, Option.bind_eq_bind, Option.bind_some]

variable (outer) in
theorem searchEntry_found {cd : CD} {log : Log} (h : Books base a cd log) {tag : UInt64}
    (hlive : log.Live a tag) :
    match log.own tag with
    | none => searchEntry outer cd tag = some (outer tag)
    | some it => ∃ pre post, log.items = pre ++ it :: post ∧
        searchEntry outer cd tag = some (some (it.entry (place base pre), .own cd.dir)) := by
  have hget := internalGetEntry_spec h hlive
  rw [searchEntry]
  cases hown : log.own tag with
  | none =>
      rw [hown] at hget
      simp only [hget, Option.bind_eq_bind, Option.bind_some]
  | some it =>
      rw [hown] at hget
      obtain ⟨pre, post, hitems, hget⟩ := hget
      exact ⟨pre, post, hitems, by simp only [hget, Option.bind_eq_bind, Option.bind_some]⟩

variable (outer) in
theorem preserveEntry_spec {cd : CD} {log : Log} (h : Books base a cd log) {c : Call}
    (hc : c.Fits) (mem : Cells UInt8) (hpres : Preservable hash a log c) :
    ∃ dir', preserveEntry hash outer cd mem c = some dir' ∧
      Kept base a dir' (log.items ++ c.leaves hash outer base mem log) := by
  rw [Call.leaves, preserveEntry]
  by_cases hcopy : c.copy
  · rw [if_pos hcopy, if_pos hcopy]
    exact preserveCopy_spec h.kept hc mem _
  rw [if_neg hcopy, if_neg hcopy, if_pos (hpres.type.resolve_left hcopy)]
  by_cases hign : c.ignore
  · rw [if_pos hign, if_pos (Or.inl hign)]
    exact preserveRef_spec h.kept c
  rw [if_neg hign]
  have hsearch := searchEntry_found outer h
    (hpres.live (Bool.eq_false_iff.mpr hcopy) (Bool.eq_false_iff.mpr hign))
  cases hown : log.own (c.refId hash) with
  | some it =>
      rw [hown] at hsearch
      obtain ⟨pre, post, -, hfound⟩ := hsearch
      rw [hfound, if_pos (Or.inr (Or.inl Option.isSome_some))]
      exact preserveRef_spec h.kept c
  | none =>
      rw [hown] at hsearch
      rw [hsearch]
      cases hout : outer (c.refId hash) with
      | some r =>
          rw [if_pos (Or.inr (Or.inr Option.isSome_some))]
          exact preserveRef_spec h.kept c
      | none =>
          rw [if_neg (by simp [hign])]
          exact preserveCopy_spec h.kept hc mem _

variable (outer) in
theorem internalPreserve_spec {cd : CD} {log : Log} (h : Books base a cd log) {c : Call}
    (hc : c.Fits) (mem : Cells UInt8) (hpres : Preservable hash a log c) :
    ∃ dir' remote', internalPreserve hash outer cd mem c =
        some { cd with dir := dir', remote := remote' } ∧
      Books base a { cd with dir := dir', remote := remote' }
        (logCall hash outer base log (c, mem)) := by
  obtain ⟨dir', hentry, hkept⟩ := preserveEntry_spec outer h hc mem hpres
  set items := log.items ++ c.leaves hash outer base mem log with hitems
  have hpos : 0 < items.length := by
    have hleaves := List.length_pos_of_ne_nil (c.leaves_ne_nil hash outer base mem log)
    rw [hitems, List.length_append]
    omega
  have hlast : lastEntry dir' = (grown a (items.length - 1 + 1) + 1, items.length - 1) := by
    rw [lastEntry, hkept.allocated, hkept.stored.table.tail, layout_length,
      Nat.sub_add_cancel hpos]
  refine ⟨dir', if c.id hash ≠ INVALID_NUM ∧ c.coop then
      Function.update cd.remote (c.id hash) (some (lastEntry dir')) else cd.remote,
    ?_, hkept, ?_, ?_⟩
  · rw [internalPreserve, if_neg hpres.name, hentry]
    rfl
  · intro tag
    simp only [logCall, ← hitems]
    split_ifs with hshare
    · by_cases htag : tag = c.id hash
      · subst htag
        rw [Function.update_self, Function.update_self, hlast]
        rfl
      · rw [Function.update_of_ne htag, Function.update_of_ne htag]
        exact h.remote tag
    · exact h.remote tag
  · intro tag i hi
    have hold : ∀ i, log.shared tag = some i → i < items.length := by
      intro i hi
      have hlt := h.within tag i hi
      rw [hitems, List.length_append]
      omega
    simp only [logCall, ← hitems] at hi
    split_ifs at hi with hshare
    · by_cases htag : tag = c.id hash
      · subst htag
        rw [Function.update_self] at hi
        obtain rfl := Option.some.inj hi
        exact Nat.sub_lt hpos (by decide)
      · rw [Function.update_of_ne htag] at hi
        exact hold i hi
    · exact hold i hi

theorem Call.whole_id (c : Call) (mem : Cells UInt8) (id : UInt64) (old : List Item) :
    (c.whole base mem id old).id = id := by
  unfold Call.whole
  split_ifs <;> rfl

theorem Call.whole_mem? (c : Call) (mem : Cells UInt8) (id : UInt64) (old : List Item) :
    (c.whole base mem id old).mem? = some mem := by
  unfold Call.whole
  split_ifs <;> rfl

theorem Call.items_id {c : Call} {mem : Cells UInt8} {id : UInt64} {old : List Item} {it : Item}
    (h : it ∈ c.items base mem id old) : it.id = id ∨ ∃ m ∈ c.members, m.id = it.id := by
  rcases List.mem_append.mp h with hpart | hwhole
  · right
    rw [Call.parts] at hpart
    split_ifs at hpart
    · obtain ⟨m, hm, rfl⟩ := List.mem_map.mp hpart
      exact ⟨m, hm, rfl⟩
    · cases hpart
  · left
    rw [List.mem_singleton.mp hwhole]
    exact c.whole_id mem id _

theorem leaves_id {log : Log} {c : Call} {mem : Cells UInt8} {tag : UInt64}
    (hid : c.id hash ≠ tag) (hmember : ∀ m ∈ c.members, m.id ≠ tag)
    (hown : (log.own tag).isSome) {it : Item} (hit : it ∈ c.leaves hash outer base mem log) :
    it.id ≠ tag := by
  have hitems : ∀ id, id ≠ tag → it ∈ c.items base mem id log.items → it.id ≠ tag := by
    intro id hne hmem
    rcases Call.items_id hmem with heq | ⟨m, hm, heq⟩
    · exact heq ▸ hne
    · exact heq ▸ hmember m hm
  rw [Call.leaves] at hit
  split_ifs at hit with hcopy hrefer
  · exact hitems _ hid hit
  · rw [List.mem_singleton.mp hit]
    exact hid
  · refine hitems _ ?_ hit
    intro heq
    exact hrefer (Or.inr (Or.inl (heq ▸ hown)))

theorem held_of_own {log : Log} {tag : UInt64} {it : Item} (h : log.own tag = some it) :
    log.held tag = some it ∧ it.mem?.isSome :=
  Option.filter_eq_some_iff.mp h

theorem own_stable {log : Log} {x : Call × Cells UInt8} {tag : UInt64} {it : Item}
    (hid : x.1.id hash ≠ tag) (hmember : ∀ m ∈ x.1.members, m.id ≠ tag)
    (h : log.own tag = some it) : (logCall hash outer base log x).own tag = some it := by
  have hnew : ∀ it' ∈ x.1.leaves hash outer base x.2 log, it'.id ≠ tag :=
    fun it' hit' => leaves_id hid hmember (Option.isSome_iff_exists.mpr ⟨it, h⟩) hit'
  have hshared : (logCall hash outer base log x).shared tag = log.shared tag := by
    rw [logCall]
    dsimp only
    split_ifs
    · exact Function.update_of_ne (Ne.symm hid) _ _
    · rfl
  obtain ⟨hheld, hmem⟩ := held_of_own h
  have hkeep : (logCall hash outer base log x).held tag = some it := by
    rw [Log.held, hshared]
    rw [Log.held] at hheld
    cases hs : log.shared tag with
    | some i =>
        rw [hs] at hheld
        have hi : i < log.items.length := (List.getElem?_eq_some_iff.mp hheld).1
        exact (List.getElem?_append_left hi).trans hheld
    | none =>
        rw [hs] at hheld
        have hnone : (x.1.leaves hash outer base x.2 log).reverse.find? (fun it => it.id = tag) =
            none := by
          rw [List.find?_eq_none]
          intro it' hit'
          simpa using hnew it' (List.mem_reverse.mp hit')
        rw [logCall]
        dsimp only
        rw [List.reverse_append, List.find?_append, hnone, Option.none_or]
        exact hheld
  rw [Log.own, hkeep, Option.filter_some, if_pos hmem]

theorem shared_none {tag : UInt64} (xs : List (Call × Cells UInt8)) :
    (∀ x ∈ xs, x.1.id hash ≠ tag) → (logOf hash outer base xs).shared tag = none := by
  induction xs using List.reverseRecOn with
  | nil => exact fun _ => rfl
  | append_singleton xs x ih =>
      intro h
      have hold := ih fun y hy => h y (List.mem_append_left _ hy)
      have hne := h x (List.mem_append_right _ List.mem_cons_self)
      rw [logOf_snoc, logCall]
      dsimp only
      split_ifs
      · rw [Function.update_of_ne (Ne.symm hne), hold]
      · exact hold

theorem own_copied {log : Log} {x : Call × Cells UInt8} (hcopy : x.1.copy)
    (hshared : log.shared (x.1.id hash) = none) :
    ∃ old, (logCall hash outer base log x).own (x.1.id hash) =
      some (x.1.whole base x.2 (x.1.id hash) old) := by
  have hleaves : x.1.leaves hash outer base x.2 log =
      x.1.items base x.2 (x.1.id hash) log.items := if_pos hcopy
  set whole := x.1.whole base x.2 (x.1.id hash) (log.items ++ x.1.parts x.2) with hwhole
  have hitems : (logCall hash outer base log x).items = log.items ++ x.1.parts x.2 ++ [whole] := by
    rw [logCall]
    dsimp only
    rw [hleaves, Call.items, List.append_assoc]
  have hheld : (logCall hash outer base log x).held (x.1.id hash) = some whole := by
    rw [Log.held, hitems]
    by_cases hshare : x.1.id hash ≠ INVALID_NUM ∧ x.1.coop
    · have hmap : (logCall hash outer base log x).shared (x.1.id hash) =
          some ((logCall hash outer base log x).items.length - 1) := by
        rw [logCall]
        dsimp only
        rw [if_pos hshare, Function.update_self]
      rw [hmap, hitems]
      dsimp only
      rw [List.length_append, List.length_singleton, Nat.add_sub_cancel, List.getElem?_concat_length]
    · have hmap : (logCall hash outer base log x).shared (x.1.id hash) = none := by
        rw [logCall]
        dsimp only
        rw [if_neg hshare, hshared]
      rw [hmap]
      dsimp only
      rw [List.reverse_append, List.reverse_singleton, List.singleton_append, List.find?_cons,
        decide_eq_true (x.1.whole_id x.2 _ _)]
  refine ⟨log.items ++ x.1.parts x.2, ?_⟩
  rw [Log.own, hheld, Option.filter_some, if_pos]
  rw [hwhole, Call.whole_mem?]
  rfl

end Calls

end CDRuntime.Preserve
