import CDRuntime.Compaction
import CDRuntime.Loop32
import CDRuntime.TableStore
import Mathlib.Data.List.Nodup

namespace CDRuntime

namespace LibcLog
open Splice Loop32 Compaction

def kNeedFreed : ℕ := 0x100
def kNeedPushed : ℕ := 0x200
def initialTableSize : ℕ := 1024

inductive FTID
  | invalid
  | malloc
  | calloc
  | realloc
  deriving DecidableEq, Repr

structure LogEntry where
  id : ℕ
  size_ : Attr
  offset : ℕ
  ftype : FTID
  deriving DecidableEq, Repr

instance : Entry LogEntry where
  id e := .ofNat e.id
  sizeOf := 32
  blank := ⟨0, ⟨0⟩, 0, .invalid⟩

/-- `LogEntry(id, ftype, attr, offset)` -/
def LogEntry.ofAttr (id : ℕ) (ftype : FTID) (attr offset : ℕ) : LogEntry :=
  ⟨id, .ofAttr attr 0, offset, ftype⟩

/-- `entry->size_.Unset(kNeedPushed); entry->size_.Set(kNeedFreed);` -/
def LogEntry.freed (e : LogEntry) : LogEntry :=
  { e with size_ := (e.size_.unset kNeedPushed).set kNeedFreed }

abbrev Table := TableStore LogEntry

def entryAt (t : Table) (i : ℕ) : Option LogEntry := do
  let ptr ← t.ptr
  ptr[i]?

def offsetRound (t : Table) (offset i : ℕ) (found : Option ℕ) :
    Option (ForInStep (Option ℕ)) := do
  let e ← entryAt t i
  if e.offset = offset then some (.done (some i)) else some (.yield found)

/-- `FindWithOffset`: the index of the entry found, and the new `table_offset`, which is `-1U` when
there is none. -/
def findWithOffset (t : Table) (offset tableOffset : ℕ) : Option (Option ℕ × ℕ) := do
  let found ← loop tableOffset t.tail (offsetRound t offset) none
  some (found, found.getD (2 ^ 32 - 1))

/-- One round of `FindWithAttr` in place, on the position of the next copy and the block. -/
def moveRound (attr i : ℕ) (s : ℕ × List LogEntry) :
    Option (ForInStep (ℕ × List LogEntry)) := do
  let e ← s.2[i]?
  if e.size_.checkAny attr then
    let ptr ← store s.2 s.1 [e]
    some (.yield (s.1 + 1, ptr))
  else some (.yield s)

/-- `FindWithAttr(attr, begin)` moves the entries with the attribute to the front. -/
def findWithAttr (t : Table) (attr start : ℕ) : Option Table := do
  let ptr ← t.ptr
  let (tail, ptr) ← loop start t.tail (moveRound attr) (start, ptr)
  some { t with ptr := some ptr, tail }

def copyRound (t : Table) (attr i : ℕ) (table : Table) : Option (ForInStep Table) := do
  let e ← entryAt t i
  if e.size_.checkAny attr then
    let table ← table.insert e
    some (.yield table)
  else some (.yield table)

/-- `FindWithAttr(attr, begin, table)` copies the entries with the attribute to another table. -/
def findWithAttrInto (t : Table) (attr start : ℕ) (table : Table) : Option Table :=
  loop start t.tail (copyRound t attr) table

/-- The loop of `FindReverseOrder` from the index below `i` down. An entry with the id and the
attribute runs into `assert(0)`. -/
def findReverseOrder (t : Table) (tag attr : ℕ) : ℕ → Option (Option LogEntry)
  | 0 => some none
  | i + 1 => do
      let e ← entryAt t i
      if e.id = tag then
        if attr = Attr.knoattr then some (some e)
        else if e.size_.check attr then none
        else findReverseOrder t tag attr i
      else findReverseOrder t tag attr i

/-- `libc_id` has 64 bits; fewer than `2 ^ 64` calls are made, so that it does not wrap around. -/
structure Logger where
  table : Table
  libcId : ℕ

namespace Logger

def create : Logger := ⟨.create LogEntry initialTableSize, 0⟩

/-- The id of the call is passed as the attribute too, a `uint16_t`. -/
def isLogFound (g : Logger) : Option Bool := do
  let entry ← findReverseOrder g.table g.libcId (g.libcId % 2 ^ 16) g.table.tail
  some entry.isSome

def add (g : Logger) (e : LogEntry) : Option Logger := do
  let table ← g.table.insert e
  some { g with table }

def markFreed (g : Logger) (i : ℕ) : Option Logger := do
  let ptr ← g.table.ptr
  let e ← ptr[i]?
  let ptr ← store ptr i [e.freed]
  some { g with table := { g.table with ptr := some ptr } }

/-- `malloc` with what the real function returns. The search of the log is made in any case. -/
def malloc (g : Logger) (ret : ℕ) : Option Logger := do
  let _ ← g.isLogFound
  let g ← g.add (.ofAttr g.libcId .malloc kNeedPushed ret)
  some { g with libcId := g.libcId + 1 }

def calloc (g : Logger) (ret : ℕ) : Option Logger := do
  let g ← g.add (.ofAttr g.libcId .calloc kNeedPushed ret)
  some { g with libcId := g.libcId + 1 }

/-- The search is repeated until it finds the pointer. One that has gone through the whole table
starts behind its end the next time, so it never does. -/
def free (g : Logger) (ptr : ℕ) : Option Logger := do
  if ptr = 0 then some g
  else
    let (entry, _) ← findWithOffset g.table ptr 0
    let i ← entry
    let g ← g.markFreed i
    some { g with libcId := g.libcId + 1 }

/-- The real function that is called here is `malloc`, and the old block is freed later on. -/
def realloc (g : Logger) (ptr ret : ℕ) : Option Logger := do
  let g ← g.add (.ofAttr g.libcId .realloc kNeedPushed ret)
  let (entry, idx) ← findWithOffset g.table ptr 0
  if idx = 2 ^ 32 - 1 then none
  else
    let i ← entry
    let g ← g.markFreed i
    some { g with libcId := g.libcId + 1 }

/-- `Set(offset)`: the position at which a CD begins. -/
def set (g : Logger) : ℕ := g.table.tail % g.table.size

/-- `FT_free((void *)(entry->offset()))` for the entry `i` of the list. -/
def freeRound (freeList : Table) (i : ℕ) (freed : List ℕ) : Option (ForInStep (List ℕ)) := do
  let e ← entryAt freeList (i % freeList.size)
  some (.yield (freed ++ [e.offset]))

/-- `FreeMemory(offset_from)`: the addresses that the real `free` is called with. -/
def freeMemory (g : Logger) (offsetFrom : ℕ) : Option (List ℕ) := do
  let freeList ← findWithAttrInto g.table kNeedFreed offsetFrom (.create LogEntry initialTableSize)
  loop 0 freeList.tail (freeRound freeList) []

def pushLogs (g : Logger) (offsetFrom : ℕ) : Option Logger := do
  let table ← findWithAttr g.table kNeedPushed offsetFrom
  some { g with table }

end Logger

section Table

variable {t : Table} {es : List LogEntry}

theorem entrySize_pos : 0 < Entry.sizeOf LogEntry := by decide

theorem entryAt_spec (h : t.Holds es) {i : ℕ} (hi : i < es.length) : entryAt t i = es[i]? := by
  obtain ⟨ptr, hptr, hget⟩ := h.shows.getElem? hi
  simp only [entryAt, hptr, hget, Option.bind_eq_bind, Option.bind_some]

theorem offsetRound_spec (h : t.Holds es) {i : ℕ} {e : LogEntry} (he : es[i]? = some e)
    (offset : ℕ) (found : Option ℕ) :
    offsetRound t offset i found =
      if e.offset = offset then some (.done (some i)) else some (.yield found) := by
  rw [offsetRound, entryAt_spec h (List.getElem?_eq_some_iff.mp he).1, he]
  simp only [Option.bind_eq_bind, Option.bind_some]

theorem findWithOffset_found (h : t.Holds es) {k : ℕ} {e : LogEntry} (hk : es[k]? = some e)
    (hsmall : k < 2 ^ 32) (hfirst : ∀ (j : ℕ) e', j < k → es[j]? = some e' → e'.offset ≠ e.offset) :
    findWithOffset t e.offset 0 = some (some k, k) := by
  have hlen : k < es.length := (List.getElem?_eq_some_iff.mp hk).1
  have hloop : loop 0 t.tail (offsetRound t e.offset) none = some (some k) := by
    apply loop_found (by rw [h.tail]; exact hlen) hsmall
    · rw [offsetRound_spec h hk, if_pos rfl]
    · intro i hi
      have hget := List.getElem?_eq_getElem (show i < es.length by omega)
      rw [offsetRound_spec h hget, if_neg (hfirst i _ hi hget)]
  simp only [findWithOffset, hloop, Option.bind_eq_bind, Option.bind_some, Option.getD_some]

theorem findWithOffset_far (h : t.Holds es) {offset : ℕ} (hbig : 2 ^ 32 ≤ es.length)
    (habs : ∀ (j : ℕ) e', j < 2 ^ 32 → es[j]? = some e' → e'.offset ≠ offset) :
    findWithOffset t offset 0 = none := by
  have hloop : loop 0 t.tail (offsetRound t offset) none = none := by
    apply loop_endless (fun _ => True) (by rw [h.tail]; exact hbig) trivial
    intro i s r hi _ hr
    have hget := List.getElem?_eq_getElem (show i < es.length by omega)
    rw [offsetRound_spec h hget, if_neg (habs i _ hi hget)] at hr
    exact ⟨s, (Option.some.inj hr).symm, trivial⟩
  simp only [findWithOffset, hloop, Option.bind_eq_bind, Option.bind_none]

theorem findWithOffset_spec (h : t.Holds es) (hnodup : (es.map LogEntry.offset).Nodup) {k : ℕ}
    {e : LogEntry} (hk : es[k]? = some e) :
    findWithOffset t e.offset 0 = if k < 2 ^ 32 then some (some k, k) else none := by
  have hother : ∀ (j : ℕ) e', j ≠ k → es[j]? = some e' → e'.offset ≠ e.offset := by
    intro j e' hjk hj heq
    have hlt : j < (es.map LogEntry.offset).length := by
      rw [List.length_map]
      exact (List.getElem?_eq_some_iff.mp hj).1
    apply hjk
    apply (List.getElem?_inj hlt hnodup).mp
    rw [List.getElem?_map, List.getElem?_map, hj, hk, Option.map_some, Option.map_some, heq]
  split_ifs with hsmall
  · exact findWithOffset_found h hk hsmall fun j e' hj => hother j e' (Nat.ne_of_lt hj)
  · have hlen : k < es.length := (List.getElem?_eq_some_iff.mp hk).1
    exact findWithOffset_far h (by omega) fun j e' hj => hother j e' (by omega)

theorem findReverseOrder_absent (h : t.Holds es) {tag : ℕ} (attr : ℕ)
    (habs : ∀ e ∈ es, e.id ≠ tag) (i : ℕ) :
    i ≤ es.length → findReverseOrder t tag attr i = some none := by
  induction i with
  | zero => intro _; rfl
  | succ i ih =>
      intro hi
      have hget := List.getElem?_eq_getElem (show i < es.length by omega)
      rw [findReverseOrder, entryAt_spec h (by omega), hget]
      simp only [Option.bind_eq_bind, Option.bind_some,
        if_neg (habs _ (List.mem_of_getElem? hget))]
      exact ih (by omega)

def withAttr (attr : ℕ) (es : List LogEntry) : List LogEntry :=
  es.filter fun e => e.size_.checkAny attr

/-- What the compaction has done when it looks at the entry `i`. -/
structure Compacted (es : List LogEntry) (unit attr start i : ℕ) (s : ℕ × List LogEntry) :
    Prop where
  length : s.2.length = unit
  front : s.2.take s.1 = es.take start ++ withAttr attr ((es.drop start).take (i - start))
  behind : s.1 ≤ i
  rest : ∀ j, i ≤ j → j < es.length → s.2[j]? = es[j]?

theorem compacted_iff {unit attr start i : ℕ} {s : ℕ × List LogEntry} :
    Compacted es unit attr start i s ↔
      Compaction.Compacted (fun e => e.size_.checkAny attr) es unit start i s.1 s.2 :=
  ⟨fun h => ⟨h.length, h.front, h.behind, h.rest⟩, fun h => ⟨h.length, h.front, h.behind, h.rest⟩⟩

theorem moveRound_spec {unit attr start i : ℕ} {s : ℕ × List LogEntry} (hs : start ≤ i)
    (hi : i < es.length) (h : Compacted es unit attr start i s) :
    ∃ s', moveRound attr i s = some (.yield s') ∧ Compacted es unit attr start (i + 1) s' := by
  have h' := compacted_iff.mp h
  have hget := List.getElem?_eq_getElem hi
  have hread := h'.read hget
  by_cases hc : es[i].size_.checkAny attr
  · obtain ⟨hdst, hkeep⟩ := h'.keep hs hget hc
    refine ⟨(s.1 + 1, s.2.set s.1 es[i]), ?_, compacted_iff.mpr hkeep⟩
    simp only [moveRound, hread, Option.bind_eq_bind, Option.bind_some, if_pos hc,
      store_of_le (show s.1 + [es[i]].length ≤ s.2.length from hdst), splice_singleton _ hdst]
  · refine ⟨s, ?_, compacted_iff.mpr (h'.skip hs hget hc)⟩
    simp only [moveRound, hread, Option.bind_eq_bind, Option.bind_some, if_neg hc]

theorem findWithAttr_spec (h : t.Holds es) (attr : ℕ) {start : ℕ} (hsmall : es.length < 2 ^ 32)
    (hs : start ≤ es.length) :
    ∃ t', findWithAttr t attr start = some t' ∧
      t'.Holds (es.take start ++ withAttr attr (es.drop start)) := by
  obtain ⟨ptr, hptr, hlen, htake⟩ := h.alloc
  have h0 : Compacted es t.growUnit attr start start (start, ptr) := by
    rw [compacted_iff, ← hlen]
    exact compacted_start (h.tail ▸ htake) hs
  obtain ⟨⟨dst, block⟩, hloop, hdone⟩ := loop_invariant (Compacted es t.growUnit attr start)
    (by rw [h.tail]; exact hsmall) (by rw [h.tail]; exact hs) h0
    fun i s hsi hi => moveRound_spec hsi (h.tail ▸ hi)
  rw [h.tail] at hdone
  obtain ⟨hfront, htail⟩ := (compacted_iff.mp hdone).finish (h.tail ▸ h.fits)
  refine ⟨{ t with ptr := some block, tail := dst }, ?_,
    ⟨block, rfl, hdone.length, hfront⟩, htail, h.bytes, h.unit,
    Nat.le_trans hdone.behind (h.tail ▸ h.fits)⟩
  simp only [findWithAttr, hptr, hloop, Option.bind_eq_bind, Option.bind_some]

/-- The table that is filled when the copying looks at the entry `i`. -/
def Copied (es : List LogEntry) (attr start i : ℕ) (table : Table) : Prop :=
  table.Holds (withAttr attr ((es.drop start).take (i - start)))

theorem copied_iff {attr start i : ℕ} {table : Table} :
    Copied es attr start i table ↔
      table.Holds (seen (fun e => e.size_.checkAny attr) es start i) := Iff.rfl

theorem copyRound_spec (h : t.Holds es) {attr start i : ℕ} {table : Table} (hs : start ≤ i)
    (hi : i < es.length) (hc : Copied es attr start i table) :
    ∃ table', copyRound t attr i table = some (.yield table') ∧
      Copied es attr start (i + 1) table' := by
  have hget := List.getElem?_eq_getElem hi
  rw [copyRound, entryAt_spec h hi, hget]
  simp only [Option.bind_eq_bind, Option.bind_some, copied_iff, seen_succ hs hget]
  split_ifs with hattr
  · obtain ⟨table', hins, hholds⟩ := TableStore.insert_spec hc entrySize_pos es[i]
    exact ⟨table', by rw [hins, Option.bind_some], hholds⟩
  · rw [List.append_nil]
    exact ⟨table, rfl, hc⟩

theorem findWithAttrInto_spec (h : t.Holds es) (attr : ℕ) {start : ℕ}
    (hsmall : es.length < 2 ^ 32) (hs : start ≤ es.length) {table : Table}
    (hempty : table.Holds []) :
    ∃ table', findWithAttrInto t attr start table = some table' ∧
      table'.Holds (withAttr attr (es.drop start)) := by
  have h0 : Copied es attr start start table := by
    rw [copied_iff, seen_start]
    exact hempty
  obtain ⟨table', hloop, hdone⟩ := loop_invariant (Copied es attr start)
    (by rw [h.tail]; exact hsmall) (by rw [h.tail]; exact hs) h0
    fun i s hsi hi => copyRound_spec h hsi (h.tail ▸ hi)
  rw [copied_iff, h.tail, seen_end] at hdone
  exact ⟨table', hloop, hdone⟩

theorem findWithAttrInto_endless (h : t.Holds es) (attr start : ℕ) (hbig : 2 ^ 32 ≤ es.length)
    (table : Table) : findWithAttrInto t attr start table = none := by
  apply loop_endless (fun _ => True) (by rw [h.tail]; exact hbig) trivial
  intro i table r hi _ hr
  rw [copyRound, entryAt_spec h (by omega)] at hr
  obtain ⟨e, -, hr⟩ := Option.bind_eq_some_iff.mp hr
  split_ifs at hr with hattr
  · obtain ⟨table', -, hr⟩ := Option.bind_eq_some_iff.mp hr
    exact ⟨table', (Option.some.inj hr).symm, trivial⟩
  · exact ⟨table, (Option.some.inj hr).symm, trivial⟩

end Table

namespace Logger

variable {g : Logger} {es : List LogEntry}

theorem create_holds : (TableStore.create LogEntry initialTableSize).Holds [] :=
  TableStore.create_holds (by decide)

theorem add_spec (h : g.table.Holds es) (e : LogEntry) :
    ∃ g', g.add e = some g' ∧ g'.table.Holds (es ++ [e]) ∧ g'.libcId = g.libcId := by
  obtain ⟨t', hins, hholds⟩ := TableStore.insert_spec h entrySize_pos e
  refine ⟨{ g with table := t' }, ?_, hholds, rfl⟩
  simp only [add, hins, Option.bind_eq_bind, Option.bind_some]

theorem markFreed_spec (h : g.table.Holds es) {i : ℕ} {e : LogEntry} (he : es[i]? = some e) :
    ∃ g', g.markFreed i = some g' ∧ g'.table.Holds (es.set i e.freed) ∧
      g'.libcId = g.libcId := by
  obtain ⟨ptr, hptr, hlen, htake⟩ := h.alloc
  have hi : i < es.length := (List.getElem?_eq_some_iff.mp he).1
  have hfits := h.fits
  have htail := h.tail
  have hin : i < ptr.length := by omega
  have hget : ptr[i]? = some e := by
    rw [← he, ← htake, List.getElem?_take_of_lt (by omega)]
  refine ⟨{ g with table := { g.table with ptr := some (ptr.set i e.freed) } }, ?_, ?_, rfl⟩
  · simp only [markFreed, hptr, hget, Option.bind_eq_bind, Option.bind_some,
      store_of_le (show i + [e.freed].length ≤ ptr.length from hin), splice_singleton _ hin]
  · refine ⟨⟨_, rfl, ?_, ?_⟩, ?_, h.bytes, h.unit, h.fits⟩
    · rw [List.length_set, hlen]
    · rw [List.take_set, htake]
    · rw [List.length_set, h.tail]

theorem set_spec (h : g.table.Holds es) : g.set = es.length := by
  have hsize : g.table.size = g.table.growUnit * 32 := h.bytes
  have hfits := h.fits
  have hunit := h.unit
  rw [set, Nat.mod_eq_of_lt (by omega), h.tail]

theorem freeRound_spec {list : Table} {fs : List LogEntry} (h : list.Holds fs) {i : ℕ}
    {freed : List ℕ} (hi : i < fs.length) (hfreed : freed = (fs.take i).map LogEntry.offset) :
    ∃ freed', freeRound list i freed = some (.yield freed') ∧
      freed' = (fs.take (i + 1)).map LogEntry.offset := by
  have hget := List.getElem?_eq_getElem hi
  have hsize : list.size = list.growUnit * 32 := h.bytes
  have hfits := h.fits
  have htail := h.tail
  refine ⟨freed ++ [fs[i].offset], ?_, ?_⟩
  · rw [freeRound, Nat.mod_eq_of_lt (by omega), entryAt_spec h hi, hget]
    rfl
  · rw [List.take_add_one, hget, Option.toList_some, List.map_append, hfreed, List.map_singleton]

theorem freeMemory_spec (h : g.table.Holds es) {start : ℕ} (hsmall : es.length < 2 ^ 32)
    (hs : start ≤ es.length) :
    g.freeMemory start = some ((withAttr kNeedFreed (es.drop start)).map LogEntry.offset) := by
  obtain ⟨list, hlist, hholds⟩ := findWithAttrInto_spec h kNeedFreed hsmall hs create_holds
  generalize hes : withAttr kNeedFreed (es.drop start) = fs at hholds ⊢
  have hfs : fs.length < 2 ^ 32 := by
    have := List.length_filter_le (fun e => e.size_.checkAny kNeedFreed) (es.drop start)
    rw [← hes, withAttr]
    rw [List.length_drop] at this
    omega
  obtain ⟨freed, hloop, hdone⟩ := loop_invariant
    (fun i freed => freed = (fs.take i).map LogEntry.offset) (by rw [hholds.tail]; exact hfs)
    (Nat.zero_le list.tail) rfl fun i freed _ hi => freeRound_spec hholds (hholds.tail ▸ hi)
  rw [hholds.tail, List.take_length] at hdone
  rw [← hdone, freeMemory, hlist]
  exact hloop

theorem freeMemory_endless (h : g.table.Holds es) (start : ℕ) (hbig : 2 ^ 32 ≤ es.length) :
    g.freeMemory start = none := by
  rw [freeMemory, findWithAttrInto_endless h kNeedFreed start hbig]
  rfl

theorem pushLogs_spec (h : g.table.Holds es) {start : ℕ} (hsmall : es.length < 2 ^ 32)
    (hs : start ≤ es.length) :
    ∃ g', g.pushLogs start = some g' ∧ g'.libcId = g.libcId ∧
      g'.table.Holds (es.take start ++ withAttr kNeedPushed (es.drop start)) := by
  obtain ⟨t', hfind, hholds⟩ := findWithAttr_spec h kNeedPushed hsmall hs
  refine ⟨{ g with table := t' }, ?_, rfl, hholds⟩
  simp only [pushLogs, hfind, Option.bind_eq_bind, Option.bind_some]

theorem isLogFound_spec (h : g.table.Holds es) (hids : ∀ e ∈ es, e.id < g.libcId) :
    g.isLogFound = some false := by
  have hsearch := findReverseOrder_absent h (g.libcId % 2 ^ 16)
    (fun e he => Nat.ne_of_lt (hids e he)) g.table.tail (Nat.le_of_eq h.tail)
  simp only [isLogFound, hsearch, Option.bind_eq_bind, Option.bind_some, Option.isSome_none]

theorem malloc_spec (h : g.table.Holds es) (hids : ∀ e ∈ es, e.id < g.libcId) (ret : ℕ) :
    ∃ g', g.malloc ret = some g' ∧ g'.libcId = g.libcId + 1 ∧
      g'.table.Holds (es ++ [.ofAttr g.libcId .malloc kNeedPushed ret]) := by
  obtain ⟨g', hadd, hholds, hid⟩ := add_spec h (.ofAttr g.libcId .malloc kNeedPushed ret)
  refine ⟨{ g' with libcId := g'.libcId + 1 }, ?_, by rw [hid], hholds⟩
  simp only [malloc, isLogFound_spec h hids, hadd, Option.bind_eq_bind, Option.bind_some]

theorem calloc_spec (h : g.table.Holds es) (ret : ℕ) :
    ∃ g', g.calloc ret = some g' ∧ g'.libcId = g.libcId + 1 ∧
      g'.table.Holds (es ++ [.ofAttr g.libcId .calloc kNeedPushed ret]) := by
  obtain ⟨g', hadd, hholds, hid⟩ := add_spec h (.ofAttr g.libcId .calloc kNeedPushed ret)
  refine ⟨{ g' with libcId := g'.libcId + 1 }, ?_, by rw [hid], hholds⟩
  simp only [calloc, hadd, Option.bind_eq_bind, Option.bind_some]

section Search

variable {k : ℕ} {e : LogEntry}

theorem free_spec (h : g.table.Holds es) (hnodup : (es.map LogEntry.offset).Nodup)
    (hk : es[k]? = some e) (he : e.offset ≠ 0) (hsmall : k < 2 ^ 32) :
    ∃ g', g.free e.offset = some g' ∧ g'.libcId = g.libcId + 1 ∧
      g'.table.Holds (es.set k e.freed) := by
  obtain ⟨g', hmark, hholds, hid⟩ := markFreed_spec h hk
  refine ⟨{ g' with libcId := g'.libcId + 1 }, ?_, by rw [hid], hholds⟩
  simp only [free, if_neg he, findWithOffset_spec h hnodup hk, if_pos hsmall, hmark,
    Option.bind_eq_bind, Option.bind_some]

theorem free_endless (h : g.table.Holds es) (hnodup : (es.map LogEntry.offset).Nodup)
    (hk : es[k]? = some e) (he : e.offset ≠ 0) (hbig : ¬ k < 2 ^ 32) : g.free e.offset = none := by
  simp only [free, if_neg he, findWithOffset_spec h hnodup hk, if_neg hbig, Option.bind_eq_bind,
    Option.bind_none]

theorem realloc_spec (h : g.table.Holds es) (hnodup : (es.map LogEntry.offset).Nodup)
    (hk : es[k]? = some e) {ret : ℕ} (hret : ∀ e ∈ es, e.offset ≠ ret) :
    if k < 2 ^ 32 - 1 then
      ∃ g', g.realloc e.offset ret = some g' ∧ g'.libcId = g.libcId + 1 ∧
        g'.table.Holds ((es ++ [LogEntry.ofAttr g.libcId .realloc kNeedPushed ret]).set k e.freed)
    else g.realloc e.offset ret = none := by
  obtain ⟨g₁, hadd, hholds, hid⟩ := add_spec h (.ofAttr g.libcId .realloc kNeedPushed ret)
  have hlen : k < es.length := (List.getElem?_eq_some_iff.mp hk).1
  have hk' : (es ++ [LogEntry.ofAttr g.libcId .realloc kNeedPushed ret])[k]? = some e := by
    rw [List.getElem?_append_left hlen, hk]
  have hnodup' : ((es ++ [LogEntry.ofAttr g.libcId .realloc kNeedPushed ret]).map
      LogEntry.offset).Nodup := by
    rw [List.map_append, List.map_singleton, List.nodup_append]
    refine ⟨hnodup, List.nodup_singleton _, ?_⟩
    intro a ha b hb
    obtain ⟨e', he', rfl⟩ := List.mem_map.mp ha
    rw [List.mem_singleton.mp hb]
    exact hret e' he'
  have hfind := findWithOffset_spec hholds hnodup' hk'
  split_ifs with hsmall
  · obtain ⟨g', hmark, hmarked, hid'⟩ := markFreed_spec hholds hk'
    refine ⟨{ g' with libcId := g'.libcId + 1 }, ?_, by rw [hid', hid], hmarked⟩
    have hne : ¬ k = 2 ^ 32 - 1 := by omega
    rw [if_pos (by omega)] at hfind
    simp only [realloc, hadd, hfind, hmark, if_neg hne, Option.bind_eq_bind, Option.bind_some]
  · by_cases hlast : k = 2 ^ 32 - 1
    · rw [if_pos (by omega)] at hfind
      simp only [realloc, hadd, hfind, if_pos hlast, Option.bind_eq_bind, Option.bind_some]
    · rw [if_neg (by omega)] at hfind
      simp only [realloc, hadd, hfind, Option.bind_eq_bind, Option.bind_some, Option.bind_none]

end Search

end Logger

end LibcLog

end CDRuntime
