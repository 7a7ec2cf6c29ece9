import CDRuntime.Runs
import CDRuntime.TableOps
import Mathlib.Algebra.BigOperators.Group.List.Defs
import Mathlib.Algebra.Ring.Nat
import Mathlib.Data.Fintype.Basic
import Mathlib.Data.List.AList
import Mathlib.Data.List.FinRange
import Mathlib.Logic.Function.Basic

namespace CDRuntime.RemoteEntries
open Runs Splice TableStore

structure RemoteCDEntry where
  entry : CDEntry
  taskId : ℤ
  deriving DecidableEq, Repr

instance : Entry RemoteCDEntry where
  id r := r.entry.id
  sizeOf := 40
  blank := ⟨Entry.blank, 0⟩

/-- A pointer to an entry. It is known by the allocation of the block it points into and by the
index in the block: `own` is the table of the task, `remote` the table of the head. -/
inductive EntryPtr where
  | null
  | own (block i : ℕ)
  | remote (block i : ℕ)
  deriving DecidableEq

/-- `EntryDirType`; the order of the entries is that of an iteration. -/
abbrev EntryDir := AList fun _ : UInt64 => EntryPtr

structure Task where
  directory : TableStore CDEntry
  map : EntryDir

/-- The tasks of a CD in the order of their ranks, with the remote table of the head. -/
structure Group (m : ℕ) where
  head : Fin m
  myTaskID : Fin m → ℤ
  tasks : Fin m → Task
  table : TableStore RemoteCDEntry

def INVALID_NUM : UInt64 := 0xFFFFFFFFFFFFFFFF

/-- What a pointer reads; the block of an earlier allocation is gone. -/
def entryIn {E : Type} (t : TableStore E) (block i : ℕ) : Option E :=
  if block = t.allocated then t.ptr.bind fun ptr => ptr[i]? else none

section Model

variable {m : ℕ}

namespace Group

def read (g : Group m) (t : Fin m) : EntryPtr → Option CDEntry
  | .null => none
  | .own block i => entryIn (g.tasks t).directory block i
  | .remote block i => (entryIn g.table block i).map RemoteCDEntry.entry

def setTask (g : Group m) (t : Fin m) (task : Task) : Group m :=
  { g with tasks := Function.update g.tasks t task }

/-- `SerializeRemoteEntryDir`. The copy takes the number of the task that copies. -/
def serialize (g : Group m) (t : Fin m) : Option (List RemoteCDEntry) :=
  (g.tasks t).map.entries.mapM fun r => (g.read t r.2).map fun e => ⟨e, g.myTaskID t⟩

/-- The loop of `DeserializeRemoteEntryDir` over the entries from the index `i` on. -/
def register (table : TableStore RemoteCDEntry) (start : ℕ) :
    ℕ → List RemoteCDEntry → EntryDir → Option EntryDir
  | _, [], map => some map
  | i, e :: entry, map => do
      let pos := (start + i) % table.size
      let remoteEntry ← entryIn table table.allocated pos
      if remoteEntry.entry.id = e.entry.id then
        register table start (i + 1) entry
          (map.insert remoteEntry.entry.id (.remote table.allocated pos))
      else none

/-- `DeserializeRemoteEntryDir` on a buffer with the entries `object`. The bytes are divided by
the size of a `CDEntry`. -/
def deserialize (g : Group m) (object : List RemoteCDEntry) (totsize : ℕ) :
    Option (Group m) := do
  let totsize := totsize / Entry.sizeOf CDEntry
  let entry ← load object 0 totsize
  if g.table.size = 0 then none
  else
    let start := g.table.tail % g.table.size
    let table ← g.table.insertMany entry
    let map ← register table start 0 entry (g.tasks g.head).map
    some { g.setTask g.head { g.tasks g.head with map } with table }

/-- `CollectHeadInfoAndEntry` of all the tasks. A task without entries does not take part in the
gathering. -/
def collect (gather : List (List RemoteCDEntry) → Option (List RemoteCDEntry)) (g : Group m) :
    Option (Group m) := do
  let serialized ← (List.finRange m).mapM g.serialize
  if ∀ entries ∈ serialized, entries = [] then some g
  else
    let received ← gather serialized
    let own ← serialized[g.head.val]?
    if own = [] then some g
    else g.deserialize received (m * (own.length * Entry.sizeOf RemoteCDEntry))

/-- The end of `InternalPreserve` of the task `t`, with the entry that it has made. An output that
is there already makes none. -/
def preserve (g : Group m) (t : Fin m) (id : UInt64) (entry : Option CDEntry) (coop : Bool) :
    Option (Group m) := do
  let task := g.tasks t
  let (pEntry, directory) ← match entry with
    | none => some (.null, task.directory)
    | some e => do
        let (i, directory) ← task.directory.insertEntry e
        some (EntryPtr.own directory.allocated i, directory)
  if id ≠ INVALID_NUM ∧ coop then
    let g := g.setTask t ⟨directory, task.map.insert id pEntry⟩
    if t = g.head then
      let table ← g.table.insert ⟨← g.read t pEntry, g.myTaskID t⟩
      some { g with table }
    else some g
  else some (g.setTask t { task with directory })

def deleteEntryDirectory (g : Group m) (t : Fin m) : Group m :=
  let g' := g.setTask t ⟨(g.tasks t).directory.free, ∅⟩
  if t = g.head then { g' with table := g.table.free } else g'

end Group

inductive Op (m : ℕ) where
  | preserve (t : Fin m) (id : UInt64) (entry : Option CDEntry) (coop : Bool)
  | collect
  | deleteEntryDirectory (t : Fin m)
  | rehash (t : Fin m) (map : EntryDir)

/-- The map of a task may come to be iterated in another order. -/
def step (gather : List (List RemoteCDEntry) → Option (List RemoteCDEntry)) (g : Group m) :
    Op m → Option (Group m)
  | .preserve t id entry coop => g.preserve t id entry coop
  | .collect => g.collect gather
  | .deleteEntryDirectory t => some (g.deleteEntryDirectory t)
  | .rehash t map =>
      if (g.tasks t).map.entries.Perm map.entries then
        some (g.setTask t { g.tasks t with map })
      else none

structure Created (g : Group m) : Prop where
  directory : ∀ t, (g.tasks t).directory.Keeps []
  map : ∀ t, (g.tasks t).map = ∅
  table : ∃ garbage, g.table = construct RemoteCDEntry garbage baseEntryCnt

/-- `PMPI_Gather` concatenates equal-sized contributions in the order of the ranks. -/
def Concatenates (gather : List (List RemoteCDEntry) → Option (List RemoteCDEntry)) : Prop :=
  ∀ parts n, (∀ entries ∈ parts, entries.length = n) → gather parts = some parts.flatten

def SerializedUnder (g : Group m) (id : UInt64) (r : RemoteCDEntry) : Prop :=
  ∃ t ptr e, (g.tasks t).map.lookup id = some ptr ∧ g.read t ptr = some e ∧ r = ⟨e, g.myTaskID t⟩

/-- The map of the head has the ids of all the maps, each with an entry that was serialized under
it. -/
structure Gathered (g g' : Group m) : Prop where
  ids : ∀ id, id ∈ (g'.tasks g'.head).map ↔ ∃ t, id ∈ (g.tasks t).map
  entry : ∀ id ptr, (g'.tasks g'.head).map.lookup id = some ptr →
    ∃ block i r, ptr = .remote block i ∧ entryIn g'.table block i = some r ∧ SerializedUnder g id r

/-- The gathering ends, within its buffer and without a failed assertion, and loses and invents
nothing. -/
def Lossless (gather : List (List RemoteCDEntry) → Option (List RemoteCDEntry)) (g : Group m) :
    Op m → Prop
  | .collect => ∃ g', g.collect gather = some g' ∧ Gathered g g'
  | _ => True

def InBlock (g : Group m) (t : Fin m) : EntryPtr → Prop
  | .null => False
  | .own block _ => block = (g.tasks t).directory.allocated
  | .remote block _ => block = g.table.allocated

/-- A gathering takes the same number of entries from each task and at most three in all, and no
table has been reallocated since a pointer into it was stored. A shared entry is stored under its
own id. -/
def Guard (g : Group m) : Op m → Prop
  | .preserve _ id entry coop =>
      id ≠ INVALID_NUM ∧ coop = true → entry.map CDEntry.id = some id
  | .collect =>
      m * (g.tasks g.head).map.entries.length ≤ 3 ∧
        ∀ t, (g.tasks t).map.entries.length = (g.tasks g.head).map.entries.length ∧
          ∀ r ∈ (g.tasks t).map.entries, InBlock g t r.2
  | .deleteEntryDirectory _ => True
  | .rehash t map => (g.tasks t).map.entries.Perm map.entries

instance (g : Group m) (t : Fin m) : DecidablePred (InBlock g t)
  | .null => inferInstanceAs (Decidable False)
  | .own block _ => inferInstanceAs (Decidable (block = (g.tasks t).directory.allocated))
  | .remote block _ => inferInstanceAs (Decidable (block = g.table.allocated))

instance (g : Group m) : DecidablePred (Guard g)
  | .preserve _ id entry coop =>
      inferInstanceAs (Decidable (id ≠ INVALID_NUM ∧ coop = true → entry.map CDEntry.id = some id))
  | .collect => by unfold Guard; infer_instance
  | .deleteEntryDirectory _ => inferInstanceAs (Decidable True)
  | .rehash t map => inferInstanceAs (Decidable ((g.tasks t).map.entries.Perm map.entries))

/-- A pointer that leads, as long as its block is there, to an entry with the id. -/
def Leads {E : Type} [Entry E] (t : TableStore E) (es : List E) (id : UInt64) (block i : ℕ) :
    Prop :=
  block ≤ t.allocated ∧ (block = t.allocated → ∃ e, es[i]? = some e ∧ Entry.id e = id)

/-- New entries do not move those that are in the block; a new block has a number of its own. -/
theorem Leads.grow {E : Type} [Entry E] {t t' : TableStore E} {es : List E} {id : UInt64}
    {block i : ℕ} (h : Leads t es id block i) (hle : t.allocated ≤ t'.allocated) (new : List E) :
    Leads t' (es ++ new) id block i := by
  refine ⟨Nat.le_trans h.1 hle, fun hblock => ?_⟩
  have hsame : block = t.allocated := Nat.le_antisymm h.1 (hblock ▸ hle)
  obtain ⟨e, he, hid⟩ := h.2 hsame
  have hlt : i < es.length := (List.getElem?_eq_some_iff.mp he).1
  exact ⟨e, by rw [List.getElem?_append_left hlt, he], hid⟩

theorem Leads.entryIn {E : Type} [Entry E] {t : TableStore E} {es : List E} {id : UInt64}
    {block i : ℕ} (h : Leads t es id block i) (ht : t.Keeps es) (hblock : block = t.allocated) :
    ∃ e, entryIn t block i = some e ∧ Entry.id e = id := by
  obtain ⟨e, he, hid⟩ := h.2 hblock
  obtain ⟨ptr, hptr, hget⟩ := ht.shows.getElem? (List.getElem?_eq_some_iff.mp he).1
  refine ⟨e, ?_, hid⟩
  rw [RemoteEntries.entryIn, if_pos hblock, hptr, Option.bind_some, hget, he]

/-- The pointers stored under an id in the map of the task `t`. Only the head has pointers into
the remote table. -/
def Stored (g : Group m) (ds : Fin m → List CDEntry) (rs : List RemoteCDEntry) (t : Fin m)
    (id : UInt64) : EntryPtr → Prop
  | .null => False
  | .own block i => Leads (g.tasks t).directory (ds t) id block i
  | .remote block i => t = g.head ∧ Leads g.table rs id block i

/-- A pointer still leads to its entry where both tables still do. -/
theorem Stored.mono {g g' : Group m} {ds ds' : Fin m → List CDEntry} {rs rs' : List RemoteCDEntry}
    {t : Fin m} {id : UInt64} {ptr : EntryPtr} (h : Stored g ds rs t id ptr)
    (hhead : g'.head = g.head)
    (hown : ∀ block i, Leads (g.tasks t).directory (ds t) id block i →
      Leads (g'.tasks t).directory (ds' t) id block i)
    (hremote : ∀ block i, t = g.head → Leads g.table rs id block i →
      Leads g'.table rs' id block i) : Stored g' ds' rs' t id ptr := by
  cases ptr with
  | null => exact h
  | own block i => exact hown block i h
  | remote block i => exact ⟨h.1.trans hhead.symm, hremote block i h.1 h.2⟩

/-- The invariant: the tables have the entries `ds` and `rs`. -/
structure Kept (g : Group m) (ds : Fin m → List CDEntry) (rs : List RemoteCDEntry) : Prop where
  directory : ∀ t, (g.tasks t).directory.Keeps (ds t)
  table : g.table.Keeps rs
  size : 0 < g.table.size
  map : ∀ t id ptr, (g.tasks t).map.lookup id = some ptr → Stored g ds rs t id ptr

variable {g : Group m} {ds : Fin m → List CDEntry} {rs : List RemoteCDEntry}

theorem remoteSize_pos : 0 < Entry.sizeOf RemoteCDEntry := by decide

theorem directorySize_pos : 0 < Entry.sizeOf CDEntry := by decide

theorem created_kept (h : Created g) : Kept g (fun _ => []) [] := by
  obtain ⟨garbage, htable⟩ := h.table
  refine ⟨h.directory, ?_, ?_, fun t id ptr hptr => ?_⟩
  · rw [htable]
    refine keeps_nil rfl (show 0 < baseEntryCnt by decide) ?_ fun hnull => nomatch hnull
    intro ptr hptr
    obtain rfl := Option.some.inj hptr
    rw [List.length_replicate]
    exact Nat.le_of_eq (Nat.mul_div_cancel _ remoteSize_pos)
  · rw [htable]
    show 0 < baseEntryCnt * Entry.sizeOf RemoteCDEntry
    decide
  · rw [h.map t, AList.lookup_empty] at hptr
    cases hptr

/-- A pointer that is in its block can be read. -/
theorem Kept.read (h : Kept g ds rs) {t : Fin m} {id : UInt64} {ptr : EntryPtr}
    (hptr : (g.tasks t).map.lookup id = some ptr) (hblock : InBlock g t ptr) :
    ∃ e, g.read t ptr = some e ∧ e.id = id := by
  have hstored := h.map t id ptr hptr
  cases ptr with
  | null => exact hblock.elim
  | own block i => exact Leads.entryIn hstored (h.directory t) hblock
  | remote block i =>
      obtain ⟨r, hr, hid⟩ := Leads.entryIn hstored.2 h.table hblock
      refine ⟨r.entry, ?_, hid⟩
      rw [Group.read, hr, Option.map_some]

theorem Group.setTask_self (g : Group m) (t : Fin m) (task : Task) :
    (g.setTask t task).tasks t = task := Function.update_self ..

theorem Group.setTask_of_ne (g : Group m) {t t' : Fin m} (h : t' ≠ t) (task : Task) :
    (g.setTask t task).tasks t' = g.tasks t' := Function.update_of_ne h ..

theorem Group.setTask_setTask (g : Group m) (t : Fin m) (task task' : Task) :
    (g.setTask t task).setTask t task' = g.setTask t task' := by
  rw [Group.setTask, Group.setTask, Group.setTask, Function.update_idem]

theorem Kept.grow_directory (h : Kept g ds rs) (t : Fin m) {directory : TableStore CDEntry}
    {new : List CDEntry} (hkeeps : directory.Keeps (ds t ++ new))
    (hle : (g.tasks t).directory.allocated ≤ directory.allocated) :
    Kept (g.setTask t { g.tasks t with directory }) (Function.update ds t (ds t ++ new)) rs := by
  refine ⟨fun t' => ?_, h.table, h.size, fun t' id ptr hptr => ?_⟩
  · by_cases ht : t' = t
    · subst ht
      rw [Group.setTask_self, Function.update_self]
      exact hkeeps
    · rw [Group.setTask_of_ne _ ht, Function.update_of_ne ht]
      exact h.directory t'
  · by_cases ht : t' = t
    · subst ht
      rw [Group.setTask_self] at hptr
      refine (h.map t' id ptr hptr).mono rfl (fun block i hlead => ?_) fun _ _ _ hlead => hlead
      rw [Group.setTask_self, Function.update_self]
      exact hlead.grow hle new
    · rw [Group.setTask_of_ne _ ht] at hptr
      refine (h.map t' id ptr hptr).mono rfl (fun block i hlead => ?_) fun _ _ _ hlead => hlead
      rw [Group.setTask_of_ne _ ht, Function.update_of_ne ht]
      exact hlead

theorem Kept.set_map (h : Kept g ds rs) (t : Fin m) {map : EntryDir}
    (hmap : ∀ id ptr, map.lookup id = some ptr → Stored g ds rs t id ptr) :
    Kept (g.setTask t { g.tasks t with map }) ds rs := by
  have hdirectory : ∀ t', ((g.setTask t { g.tasks t with map }).tasks t').directory =
      (g.tasks t').directory := by
    intro t'
    by_cases ht : t' = t
    · rw [ht, Group.setTask_self]
    · rw [Group.setTask_of_ne _ ht]
  refine ⟨fun t' => ?_, h.table, h.size, fun t' id ptr hptr => ?_⟩
  · rw [hdirectory]
    exact h.directory t'
  · have hstored : Stored g ds rs t' id ptr := by
      by_cases ht : t' = t
      · subst ht
        rw [Group.setTask_self] at hptr
        exact hmap id ptr hptr
      · rw [Group.setTask_of_ne _ ht] at hptr
        exact h.map t' id ptr hptr
    refine hstored.mono rfl (fun block i hlead => ?_) fun _ _ _ hlead => hlead
    rw [hdirectory]
    exact hlead

theorem Kept.grow_table (h : Kept g ds rs) {table : TableStore RemoteCDEntry}
    {new : List RemoteCDEntry} (hnew : new ≠ []) (hkeeps : table.Keeps (rs ++ new))
    (hle : g.table.allocated ≤ table.allocated) : Kept { g with table } ds (rs ++ new) := by
  refine ⟨h.directory, hkeeps, ?_, fun t id ptr hptr => ?_⟩
  · have hpos : 0 < table.tail * Entry.sizeOf RemoteCDEntry := by
      apply Nat.mul_pos _ remoteSize_pos
      rw [hkeeps.tail, List.length_append]
      exact Nat.add_pos_right _ (List.length_pos_iff.mpr hnew)
    exact Nat.lt_of_lt_of_le hpos hkeeps.room
  · exact (h.map t id ptr hptr).mono rfl (fun _ _ hlead => hlead)
      fun _ _ _ hlead => hlead.grow hle new

theorem preserve_kept (h : Kept g ds rs) (t : Fin m) {id : UInt64} {entry : Option CDEntry}
    {coop : Bool} (hG : Guard g (.preserve t id entry coop)) :
    ∃ g', g.preserve t id entry coop = some g' ∧ ∃ ds' rs', Kept g' ds' rs' := by
  by_cases hshare : id ≠ INVALID_NUM ∧ coop = true
  · obtain ⟨e, rfl, hid⟩ := Option.map_eq_some_iff.mp (hG hshare)
    obtain ⟨directory, hinsert, hkeeps⟩ :=
      insertEntry_spec (h.directory t) directorySize_pos e
    have hle := insertEntry_allocated hinsert
    have hgrown := h.grow_directory t hkeeps hle
    set g₁ := g.setTask t { g.tasks t with directory } with hg₁
    set ds₁ := Function.update ds t (ds t ++ [e]) with hds₁
    have htask : g₁.tasks t = { g.tasks t with directory } := Group.setTask_self ..
    have hat : (ds t ++ [e])[(ds t).length]? = some e := by
      rw [List.getElem?_append_right (Nat.le_refl _), Nat.sub_self, List.getElem?_cons_zero]
    -- the new pointer leads to the new entry
    have hptr : Stored g₁ ds₁ rs t id (.own directory.allocated (ds t).length) := by
      rw [Stored, htask, hds₁, Function.update_self]
      exact ⟨Nat.le_refl _, fun _ => ⟨e, hat, hid⟩⟩
    have hmapped : Kept (g₁.setTask t { g₁.tasks t with
        map := (g₁.tasks t).map.insert id (.own directory.allocated (ds t).length) }) ds₁ rs := by
      apply hgrown.set_map t
      intro id' ptr hlookup
      by_cases hsame : id' = id
      · rw [hsame, AList.lookup_insert] at hlookup
        rw [hsame, ← Option.some.inj hlookup]
        exact hptr
      · rw [AList.lookup_insert_ne hsame] at hlookup
        exact hgrown.map t id' ptr hlookup
    rw [htask, hg₁, Group.setTask_setTask] at hmapped
    set g₂ := g.setTask t ⟨directory,
      (g.tasks t).map.insert id (.own directory.allocated (ds t).length)⟩ with hg₂
    by_cases hhead : t = g.head
    · have hread : g₂.read t (.own directory.allocated (ds t).length) = some e := by
        obtain ⟨ptr, hblock, hget⟩ := hkeeps.shows.getElem? (List.getElem?_eq_some_iff.mp hat).1
        rw [Group.read, hg₂, Group.setTask_self, entryIn, if_pos rfl, hblock, Option.bind_some,
          hget, hat]
      obtain ⟨table, htable, hkeeps'⟩ := insert_keeps h.table remoteSize_pos ⟨e, g.myTaskID t⟩
      refine ⟨{ g₂ with table }, ?_, ds₁, rs ++ [⟨e, g.myTaskID t⟩],
        hmapped.grow_table (List.cons_ne_nil _ _) hkeeps' (insert_allocated htable)⟩
      simp only [Group.preserve, hinsert, Option.bind_eq_bind, Option.bind_some, if_pos hshare]
      rw [← hg₂, if_pos (show t = g₂.head from hhead), hread, Option.bind_some,
        show g₂.table.insert ⟨e, g₂.myTaskID t⟩ = some table from htable, Option.bind_some]
    · refine ⟨g₂, ?_, ds₁, rs, hmapped⟩
      simp only [Group.preserve, hinsert, Option.bind_eq_bind, Option.bind_some, if_pos hshare]
      exact if_neg hhead
  · cases entry with
    | none =>
        refine ⟨g.setTask t { g.tasks t with map := (g.tasks t).map }, ?_, ds, rs,
          h.set_map t (h.map t)⟩
        simp only [Group.preserve, Option.bind_eq_bind, Option.bind_some, if_neg hshare]
    | some e =>
        obtain ⟨directory, hinsert, hkeeps⟩ :=
          insertEntry_spec (h.directory t) directorySize_pos e
        refine ⟨g.setTask t { g.tasks t with directory }, ?_, _, rs,
          h.grow_directory t hkeeps (insertEntry_allocated hinsert)⟩
        simp only [Group.preserve, hinsert, Option.bind_eq_bind, Option.bind_some, if_neg hshare]

theorem deleteEntryDirectory_kept (h : Kept g ds rs) (t : Fin m) :
    ∃ ds' rs', Kept (g.deleteEntryDirectory t) ds' rs' := by
  have hkept : Kept (g.setTask t ⟨(g.tasks t).directory.free, ∅⟩) (Function.update ds t []) rs := by
    refine ⟨fun t' => ?_, h.table, h.size, fun t' id ptr hptr => ?_⟩
    · by_cases ht : t' = t
      · subst ht
        rw [Group.setTask_self, Function.update_self]
        exact free_keeps (h.directory t')
      · rw [Group.setTask_of_ne _ ht, Function.update_of_ne ht]
        exact h.directory t'
    · by_cases ht : t' = t
      · subst ht
        rw [Group.setTask_self, AList.lookup_empty] at hptr
        cases hptr
      · rw [Group.setTask_of_ne _ ht] at hptr
        refine (h.map t' id ptr hptr).mono rfl (fun block i hlead => ?_) fun _ _ _ hlead => hlead
        rw [Group.setTask_of_ne _ ht, Function.update_of_ne ht]
        exact hlead
  by_cases hhead : t = g.head
  · refine ⟨Function.update ds t [], [], ?_⟩
    rw [Group.deleteEntryDirectory, if_pos hhead]
    refine ⟨hkept.directory, free_keeps h.table, h.size, fun t' id ptr hptr => ?_⟩
    refine (hkept.map t' id ptr hptr).mono rfl (fun _ _ hlead => hlead) fun block i ht _ => ?_
    -- the map of the head is empty now
    rw [show t' = t from ht.trans hhead.symm, Group.setTask_self, AList.lookup_empty] at hptr
    cases hptr
  · refine ⟨Function.update ds t [], rs, ?_⟩
    rw [Group.deleteEntryDirectory, if_neg hhead]
    exact hkept

theorem mapM_of_forall {α β : Type} {f : α → Option β} {k : α → β} :
    ∀ l : List α, (∀ a ∈ l, f a = some (k a)) → l.mapM f = some (l.map k)
  | [], _ => rfl
  | a :: l, h => by
      have htail := mapM_of_forall l fun b hb => h b (List.mem_cons_of_mem a hb)
      rw [List.mapM_cons, h a List.mem_cons_self, htail]
      rfl

def Group.copies (g : Group m) (t : Fin m) : List RemoteCDEntry :=
  (g.tasks t).map.entries.map fun r => ⟨(g.read t r.2).getD Entry.blank, g.myTaskID t⟩

theorem copies_length (t : Fin m) :
    (g.copies t).length = (g.tasks t).map.entries.length := List.length_map ..

section Serialize

variable {t : Fin m}

theorem serialize_spec (h : Kept g ds rs)
    (hblock : ∀ r ∈ (g.tasks t).map.entries, InBlock g t r.2) :
    g.serialize t = some (g.copies t) := by
  apply mapM_of_forall
  intro r hr
  obtain ⟨e, he, -⟩ := h.read (AList.mem_lookup_iff.mpr hr) (hblock r hr)
  rw [he, Option.map_some, Option.getD_some]

theorem copies_under (h : Kept g ds rs)
    (hblock : ∀ r ∈ (g.tasks t).map.entries, InBlock g t r.2) {r : RemoteCDEntry}
    (hr : r ∈ g.copies t) : SerializedUnder g r.entry.id r := by
  obtain ⟨s, hs, rfl⟩ := List.mem_map.mp hr
  have hlookup := AList.mem_lookup_iff.mpr hs
  obtain ⟨e, he, hid⟩ := h.read hlookup (hblock s hs)
  refine ⟨t, s.2, e, ?_, he, ?_⟩
  · rw [he, Option.getD_some, hid]
    exact hlookup
  · rw [he, Option.getD_some]

theorem mem_copies (h : Kept g ds rs)
    (hblock : ∀ r ∈ (g.tasks t).map.entries, InBlock g t r.2) {id : UInt64}
    (hid : id ∈ (g.tasks t).map) : ∃ r ∈ g.copies t, r.entry.id = id := by
  obtain ⟨ptr, hptr⟩ := Option.isSome_iff_exists.mp (AList.lookup_isSome.mpr hid)
  have hs := AList.mem_lookup_iff.mp hptr
  obtain ⟨e, he, hid⟩ := h.read hptr (hblock _ hs)
  refine ⟨_, List.mem_map_of_mem hs, ?_⟩
  simp only [he, Option.getD_some, hid]

end Serialize

theorem register_spec {table : TableStore RemoteCDEntry} {front object : List RemoteCDEntry}
    (htable : table.Keeps (front ++ object)) (rest : List RemoteCDEntry) :
    ∀ (i : ℕ) (map : EntryDir), object.drop i = rest →
      ∃ map', Group.register table front.length i rest map = some map' ∧
        ∀ id, (∃ k r, object[k]? = some r ∧ r.entry.id = id ∧
            map'.lookup id = some (.remote table.allocated (front.length + k))) ∨
          (∀ r ∈ rest, r.entry.id ≠ id) ∧ map'.lookup id = map.lookup id := by
  induction rest with
  | nil =>
      intro i map _
      exact ⟨map, rfl, fun id => Or.inr ⟨List.forall_mem_nil _, rfl⟩⟩
  | cons e rest ih =>
      intro i map hdrop
      have hat : object[i]? = some e := by
        rw [← List.head?_drop, hdrop, List.head?_cons]
      have hlt : i < object.length := (List.getElem?_eq_some_iff.mp hat).1
      have hpos : (front.length + i) % table.size = front.length + i := by
        apply Nat.mod_eq_of_lt
        have hle := Nat.le_mul_of_pos_right table.tail remoteSize_pos
        have hroom := htable.room
        rw [htable.tail, List.length_append] at hle hroom
        omega
      have hfull : (front ++ object)[front.length + i]? = some e := by
        rw [List.getElem?_append_right (Nat.le_add_right _ _), Nat.add_sub_cancel_left, hat]
      have hentry : entryIn table table.allocated (front.length + i) = some e := by
        obtain ⟨ptr, hptr, hget⟩ :=
          htable.shows.getElem? (List.getElem?_eq_some_iff.mp hfull).1
        rw [entryIn, if_pos rfl, hptr, Option.bind_some, hget, hfull]
      have hnext : object.drop (i + 1) = rest := by
        rw [← List.tail_drop, hdrop, List.tail_cons]
      obtain ⟨map', hrun, hmap'⟩ := ih (i + 1)
        (map.insert e.entry.id (.remote table.allocated (front.length + i))) hnext
      refine ⟨map', ?_, fun id => ?_⟩
      · simp only [Group.register, hpos, hentry, Option.bind_eq_bind, Option.bind_some, if_true]
        exact hrun
      · rcases hmap' id with hfound | ⟨hnone, hsame⟩
        · exact Or.inl hfound
        · by_cases hid : e.entry.id = id
          · refine Or.inl ⟨i, e, hat, hid, ?_⟩
            rw [hsame, hid, AList.lookup_insert]
          · refine Or.inr ⟨?_, ?_⟩
            · intro r hr
              rcases List.mem_cons.mp hr with rfl | hr
              · exact hid
              · exact hnone r hr
            · rw [hsame, AList.lookup_insert_ne (Ne.symm hid)]

theorem deserialize_spec (h : Kept g ds rs) {object : List RemoteCDEntry} (hne : object ≠ [])
    (hfew : object.length ≤ 3) :
    ∃ g', g.deserialize object (object.length * Entry.sizeOf RemoteCDEntry) = some g' ∧
      Kept g' ds (rs ++ object) ∧ g'.head = g.head ∧
      ∀ id, (∃ k r, object[k]? = some r ∧ r.entry.id = id ∧
          (g'.tasks g.head).map.lookup id = some (.remote g'.table.allocated (rs.length + k))) ∨
        (∀ r ∈ object, r.entry.id ≠ id) ∧
          (g'.tasks g.head).map.lookup id = (g.tasks g.head).map.lookup id := by
  have hpos : 0 < object.length := List.length_pos_iff.mpr hne
  -- 40 bytes an entry, counted in units of 32
  have hcnt : object.length * Entry.sizeOf RemoteCDEntry / Entry.sizeOf CDEntry =
      object.length := by
    show object.length * 40 / 32 = object.length
    omega
  have hload : load object 0 object.length = some object := by
    rw [load_of_le (Nat.le_of_eq (Nat.zero_add _)), slice_zero, List.take_length]
  have htakes : g.table.Takes object.length := by
    rw [Takes]
    split
    · exact ⟨hpos, Nat.le_trans hfew (by decide)⟩
    · exact Or.inl hpos
  obtain ⟨table, hinsert, hkeeps⟩ := insertMany_spec h.table remoteSize_pos htakes
  have hstart : g.table.tail % g.table.size = rs.length := by
    have hle := Nat.le_mul_of_pos_right g.table.tail remoteSize_pos
    have hroom := h.table.room
    have hsize := h.size
    rw [← h.table.tail]
    apply Nat.mod_eq_of_lt
    have hforty : g.table.tail * 40 ≤ g.table.size := hroom
    omega
  obtain ⟨map, hrun, hmap⟩ := register_spec hkeeps object 0 (g.tasks g.head).map List.drop_zero
  have hgrown : Kept { g with table } ds (rs ++ object) :=
    h.grow_table hne hkeeps (insertMany_allocated hinsert)
  have hstored : ∀ id ptr, map.lookup id = some ptr →
      Stored { g with table } ds (rs ++ object) g.head id ptr := by
    intro id ptr hptr
    rcases hmap id with ⟨k, r, hk, hid, hlookup⟩ | ⟨-, hsame⟩
    · obtain rfl := Option.some.inj (hlookup.symm.trans hptr)
      refine ⟨rfl, Nat.le_refl _, fun _ => ⟨r, ?_, hid⟩⟩
      rw [List.getElem?_append_right (Nat.le_add_right _ _), Nat.add_sub_cancel_left, hk]
    · exact hgrown.map g.head id ptr (hsame ▸ hptr)
  have hkept := hgrown.set_map g.head hstored
  refine ⟨_, ?_, hkept, rfl, fun id => ?_⟩
  · simp only [Group.deserialize, hcnt, hload, if_neg (Nat.ne_of_gt h.size), hinsert, hstart, hrun,
      Option.bind_eq_bind, Option.bind_some]
    rfl
  · rw [Group.setTask_self]
    exact hmap id

theorem collect_spec {gather : List (List RemoteCDEntry) → Option (List RemoteCDEntry)}
    (hgather : Concatenates gather) (h : Kept g ds rs) (hG : Guard g .collect) :
    ∃ g', g.collect gather = some g' ∧ Gathered g g' ∧ ∃ rs', Kept g' ds rs' := by
  obtain ⟨hfew, hsame⟩ := hG
  set n := (g.tasks g.head).map.entries.length
  have hblock := fun t => (hsame t).2
  have hlen : ∀ t, (g.copies t).length = n := fun t => (copies_length t).trans (hsame t).1
  have hserialize : (List.finRange m).mapM g.serialize = some ((List.finRange m).map g.copies) :=
    mapM_of_forall _ fun t _ => serialize_spec h (hblock t)
  have hparts : ∀ entries ∈ (List.finRange m).map g.copies, entries.length = n := by
    intro entries hentries
    obtain ⟨t, -, rfl⟩ := List.mem_map.mp hentries
    exact hlen t
  have hmem : ∀ r, r ∈ ((List.finRange m).map g.copies).flatten ↔ ∃ t, r ∈ g.copies t := by
    intro r
    constructor
    · intro hr
      obtain ⟨entries, hentries, hr⟩ := List.mem_flatten.mp hr
      obtain ⟨t, -, rfl⟩ := List.mem_map.mp hentries
      exact ⟨t, hr⟩
    · rintro ⟨t, hr⟩
      exact List.mem_flatten.mpr ⟨_, List.mem_map_of_mem (List.mem_finRange t), hr⟩
  by_cases hzero : n = 0
  · -- nobody has an entry to send
    have hempty : ∀ entries ∈ (List.finRange m).map g.copies, entries = [] := fun entries he =>
      List.length_eq_zero_iff.mp ((hparts entries he).trans hzero)
    have hnone : ∀ t id, id ∉ (g.tasks t).map := by
      intro t id hid
      obtain ⟨r, hr, -⟩ := mem_copies h (hblock t) hid
      rw [List.length_eq_zero_iff.mp ((hlen t).trans hzero)] at hr
      cases hr
    refine ⟨g, ?_, ⟨fun id => ?_, fun id ptr hptr => ?_⟩, rs, h⟩
    · simp only [Group.collect, hserialize, Option.bind_eq_bind, Option.bind_some, if_pos hempty]
    · apply iff_of_false (hnone g.head id)
      rintro ⟨t, hid⟩
      exact hnone t id hid
    · refine absurd ?_ (hnone g.head id)
      rw [← AList.lookup_isSome, hptr]
      rfl
  · set object := ((List.finRange m).map g.copies).flatten with hobject
    have hcount : object.length = m * n := by
      have hlens : ∀ k ∈ ((List.finRange m).map g.copies).map List.length, k = n := by
        intro k hk
        obtain ⟨entries, hentries, rfl⟩ := List.mem_map.mp hk
        exact hparts entries hentries
      rw [hobject, List.length_flatten, List.sum_eq_card_nsmul _ n hlens, List.length_map,
        List.length_map, List.length_finRange, Nat.nsmul_eq_mul]
    have hobj : object ≠ [] := by
      rw [← List.length_pos_iff, hcount]
      exact Nat.mul_pos (Nat.zero_lt_of_lt g.head.isLt) (Nat.pos_of_ne_zero hzero)
    have hown : ((List.finRange m).map g.copies)[g.head.val]? = some (g.copies g.head) := by
      have hlt : g.head.val < (List.finRange m).length := by
        rw [List.length_finRange]
        exact g.head.isLt
      rw [List.getElem?_map, List.getElem?_eq_getElem hlt, List.getElem_finRange]
      rfl
    have hfull : ¬ ∀ entries ∈ (List.finRange m).map g.copies, entries = [] := by
      intro hempty
      have hnil := hempty _ (List.mem_of_getElem? hown)
      exact hzero ((hlen g.head).symm.trans (congrArg List.length hnil))
    have hhead : ¬ g.copies g.head = [] := by
      intro hnil
      exact hzero ((hlen g.head).symm.trans (congrArg List.length hnil))
    obtain ⟨g', hdes, hkept, hsamehead, hmap⟩ := deserialize_spec h hobj (hcount.trans_le hfew)
    have hrun : g.collect gather = some g' := by
      simp only [Group.collect, hserialize, Option.bind_eq_bind, Option.bind_some, if_neg hfull,
        hgather _ n hparts, hown, if_neg hhead]
      rw [hlen, ← Nat.mul_assoc, ← hcount]
      exact hdes
    -- every id of the head is among the gathered ones, so no old pointer of its map is left
    have hnew : ∀ id, (∃ t, id ∈ (g.tasks t).map) → ∃ k r, object[k]? = some r ∧
        r.entry.id = id ∧
        (g'.tasks g.head).map.lookup id = some (.remote g'.table.allocated (rs.length + k)) := by
      rintro id ⟨t, hid⟩
      rcases hmap id with hfound | ⟨hnone, -⟩
      · exact hfound
      · obtain ⟨r, hr, hrid⟩ := mem_copies h (hblock t) hid
        exact absurd hrid (hnone r ((hmem r).mpr ⟨t, hr⟩))
    have hold : ∀ id ptr, (g'.tasks g.head).map.lookup id = some ptr →
        ∃ t, id ∈ (g.tasks t).map := by
      intro id ptr hptr
      rcases hmap id with ⟨k, r, hk, hid, -⟩ | ⟨-, hlookup⟩
      · obtain ⟨t, hr⟩ := (hmem r).mp (List.mem_of_getElem? hk)
        obtain ⟨t', ptr', e, hptr', -⟩ := copies_under h (hblock t) hr
        refine ⟨t', ?_⟩
        rw [← AList.lookup_isSome, ← hid, hptr']
        rfl
      · refine ⟨g.head, ?_⟩
        rw [← AList.lookup_isSome, ← hlookup, hptr]
        rfl
    refine ⟨g', hrun, ⟨fun id => ?_, fun id ptr hptr => ?_⟩, _, hkept⟩
    · rw [hsamehead]
      constructor
      · intro hid
        obtain ⟨ptr, hptr⟩ := Option.isSome_iff_exists.mp (AList.lookup_isSome.mpr hid)
        exact hold id ptr hptr
      · intro hid
        obtain ⟨k, r, -, -, hlookup⟩ := hnew id hid
        rw [← AList.lookup_isSome, hlookup]
        rfl
    · rw [hsamehead] at hptr
      obtain ⟨k, r, hk, hid, hlookup⟩ := hnew id (hold id ptr hptr)
      obtain rfl := Option.some.inj (hlookup.symm.trans hptr)
      have hat : (rs ++ object)[rs.length + k]? = some r := by
        rw [List.getElem?_append_right (Nat.le_add_right _ _), Nat.add_sub_cancel_left, hk]
      obtain ⟨block, hblk, hget⟩ :=
        hkept.table.shows.getElem? (List.getElem?_eq_some_iff.mp hat).1
      obtain ⟨t, hr⟩ := (hmem r).mp (List.mem_of_getElem? hk)
      refine ⟨_, _, r, rfl, ?_, hid ▸ copies_under h (hblock t) hr⟩
      rw [entryIn, if_pos rfl, hblk, Option.bind_some, hget, hat]

theorem rehash_kept (h : Kept g ds rs) {t : Fin m} {map : EntryDir}
    (hperm : (g.tasks t).map.entries.Perm map.entries) :
    Kept (g.setTask t { g.tasks t with map }) ds rs := by
  apply h.set_map t
  intro id ptr hptr
  rw [← AList.perm_lookup hperm] at hptr
  exact h.map t id ptr hptr

theorem step_spec {gather : List (List RemoteCDEntry) → Option (List RemoteCDEntry)}
    (hgather : Concatenates gather) (g : Group m) (op : Op m) (h : ∃ ds rs, Kept g ds rs)
    (hG : Guard g op) :
    ∃ g', step gather g op = some g' ∧ (∃ ds rs, Kept g' ds rs) ∧ Lossless gather g op := by
  obtain ⟨ds, rs, h⟩ := h
  cases op with
  | preserve t id entry coop =>
      obtain ⟨g', hrun, hkept⟩ := preserve_kept h t hG
      exact ⟨g', hrun, hkept, trivial⟩
  | collect =>
      obtain ⟨g', hrun, hgathered, rs', hkept⟩ := collect_spec hgather h hG
      exact ⟨g', hrun, ⟨ds, rs', hkept⟩, g', hrun, hgathered⟩
  | deleteEntryDirectory t => exact ⟨_, rfl, deleteEntryDirectory_kept h t, trivial⟩
  | rehash t map => exact ⟨_, if_pos hG, ⟨ds, rs, rehash_kept h hG⟩, trivial⟩

/-- In every run under the guard each gathering is lossless, also when the table of the head
grows. -/
theorem gathering_lossless {gather : List (List RemoteCDEntry) → Option (List RemoteCDEntry)}
    (hgather : Concatenates gather) {g : Group m} (hg : Created g) (ops : List (Op m))
    (hG : Attempted (step gather) Guard g ops) :
    Attempted (step gather) (Lossless gather) g ops :=
  (attempted_invariant (step_spec hgather) ops g ⟨_, _, created_kept hg⟩ hG).2

end Model

/-- Two tasks, the first of them the head, that have preserved two entries before: `Clear` leaves
the room that the table of a new CD, with one entry, has grown to. -/
def twoTasks : Group 2 where
  head := ⟨0, Nat.zero_lt_two⟩
  myTaskID t := t.val
  tasks _ := ⟨create CDEntry 2, ∅⟩
  table := construct RemoteCDEntry 0 baseEntryCnt

theorem twoTasks_created : Created twoTasks :=
  ⟨fun _ => (create_holds (show 0 < 2 by decide)).keeps directorySize_pos, fun _ => rfl, 0, rfl⟩

def shared (id : UInt64) : CDEntry := ⟨id, .ofSize 8, 0, 64⟩

theorem gathering_lossless_twice :
    Attempted (step fun parts => some parts.flatten)
      (Lossless fun parts => some parts.flatten) twoTasks
      [.preserve 0 1 (some (shared 1)) true, .preserve 1 1 (some (shared 1)) true, .collect,
        .collect] :=
  gathering_lossless (fun _ _ _ => rfl) twoTasks_created _ (by decide +kernel)

def sharesTwo (task : Fin 2) (id : UInt64) : List (Op 2) :=
  [.preserve task id (some (shared id)) true, .preserve task (id + 1) (some (shared (id + 1))) true]

def twoEach : List (Op 2) :=
  sharesTwo ⟨0, Nat.zero_lt_two⟩ 1 ++ sharesTwo ⟨1, Nat.one_lt_two⟩ 3

theorem gathering_reads_past : ∃ gather, Concatenates gather ∧
    ¬ Attempted (step gather) (Lossless gather) twoTasks (twoEach ++ [.collect]) := by
  let gather : List (List RemoteCDEntry) → Option (List RemoteCDEntry) := fun parts =>
    some parts.flatten
  refine ⟨gather, fun _ _ _ => rfl, fun h => ?_⟩
  have hrun : ((run (step gather) twoTasks twoEach).map fun g => (g.collect gather).isNone) =
      some true := by
    decide +kernel
  obtain ⟨g, hg, hnone⟩ := Option.map_eq_some_iff.mp hrun
  obtain ⟨g', hcollect, -⟩ := Attempted.last twoEach .collect twoTasks g h hg
  rw [hcollect] at hnone
  cases hnone

end CDRuntime.RemoteEntries
