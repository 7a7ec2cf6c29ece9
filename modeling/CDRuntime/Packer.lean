import CDRuntime.DataStoreGrowing
import CDRuntime.TableStore

namespace CDRuntime
open Cells

def invalidNum : ℕ := 2 ^ 64 - 1

/-- The table and the data store, with the file and the flush threshold that the store uses.
Application memory is addressed by pointers, `0` is the null pointer. -/
structure Packer where
  table : TableStore CDEntry
  data : DataStore
  file : FileHandle
  threshold : ℕ

namespace Packer

def writeData (p : Packer) (xs : List UInt8) : Option (ℕ × Packer) := do
  let (offset, data, file, threshold) ← p.data.write p.file p.threshold xs
  some (offset, { p with data, file, threshold })

def add (p : Packer) (mem : Cells UInt8) (appData len : ℕ) (id : UInt64) : Option Packer := do
  -- if size is 0, insert entry to table only
  let (offset, p) ← (if len ≠ 0 then p.writeData (readOut mem appData len) else some (0, p))
  let table ← p.table.insert { id, size_ := .ofSize len, offset, src := appData }
  some { p with table }

def addEntry (p : Packer) (mem : Cells UInt8) (src : ℕ) (entry : CDEntry) : Option Packer := do
  let (offset, p) ← (if src ≠ 0 ∧ entry.size ≠ 0 then p.writeData (readOut mem src entry.size)
    else some (invalidNum, p))
  let table ← p.table.insert { entry with offset }
  some { p with table }

/-- `CDPacker::Restore(tag, dst, len)` of a store without a file: the entry found and the memory
afterwards. A packed entry is fetched from the file, so a store without one stops there. -/
def restore (p : Packer) (mem : Cells UInt8) (tag : UInt64) (dst len : ℕ) :
    Option (Option CDEntry × Cells UInt8) := do
  match ← p.table.find tag with
  | none => some (none, mem)
  | some entry =>
      if entry.src = 0 ∨ entry.size = 0 then some (some entry, mem)
      else
        let dst := if dst = 0 then entry.src else dst
        let rstSize := if len ≠ 0 then len else entry.size
        if entry.size_.check Attr.knested then none
        else
          let xs ← p.data.getDataVolatile rstSize entry.offset
          some (some entry, copyIn mem dst xs)

def clear (p : Packer) : Packer :=
  let (data, file) := p.data.freeData p.file true
  -- a volatile store has no file handle
  { p with table := p.table.free, data, file := if data.ftype = .volatile then p.file else file }

theorem entrySize_pos : 0 < Entry.sizeOf CDEntry := by decide

theorem writeData_holds {p : Packer} {bytes : List UInt8} (hdata : p.data.Holds bytes)
    (hvol : p.data.ftype = .volatile) (xs : List UInt8) :
    ∃ p', p.writeData xs = some (bytes.length + p.data.writtenLen, p') ∧
      p'.table = p.table ∧ p'.data.Holds (bytes ++ xs) ∧ p'.data.ftype = .volatile ∧
      p'.data.writtenLen = p.data.writtenLen := by
  obtain ⟨s', hwrite, hholds, hwl, hft, -⟩ := DataStore.writeCacheMode_holds hdata
  -- a volatile store is never flushed
  have hkeep : ¬ (s'.ftype ≠ .volatile ∧ s'.mode.concurrent = false ∧
      (if p.data.size < xs.length + p.data.bufUsed then s'.size * 4 / 5 else p.threshold) ≤
        s'.bufUsed) := by
    rintro ⟨hne, -⟩
    exact hne (hft.trans hvol)
  refine ⟨{ p with
      data := s'
      threshold := if p.data.size < xs.length + p.data.bufUsed then s'.size * 4 / 5
        else p.threshold }, ?_, rfl, hholds, hft.trans hvol, hwl⟩
  rw [writeData, DataStore.write, hwrite]
  simp only [Option.bind_eq_bind, Option.bind_some, if_neg hkeep]

/-- A fresh packer: an allocated table and an empty volatile store in the growing mode. -/
structure Initial (p : Packer) : Prop where
  table : ∃ alloc, 0 < alloc ∧ p.table = TableStore.create CDEntry alloc
  ftype : p.data.ftype = .volatile
  mode : p.data.mode = {}
  alloc : p.data.ptr.isSome
  size : 0 < p.data.size
  unit : 0 < p.data.growUnit
  head : p.data.head = 0
  tail : p.data.tail = 0

def tiny : Packer where
  table := TableStore.create CDEntry 1
  data := { size := 1, head := 0, tail := 0, growUnit := 1, allocated := 1,
            writtenLen := chunkAlignment, mode := {}, ftype := .volatile, ptr := some fun _ => 0 }
  file := ⟨0, fun _ => 0⟩
  threshold := chunksizeThresholdBase

theorem tiny_initial : Initial tiny :=
  ⟨⟨1, by decide, rfl⟩, rfl, rfl, rfl, by decide, by decide, rfl, rfl⟩

section Stored

variable {α : Type*} (entry : ℕ → α → CDEntry) (bytes : α → List UInt8)

/-- The entries of items whose bytes lie one behind the other from `off` on. -/
def layout (off : ℕ) : List α → List CDEntry
  | [] => []
  | a :: as => entry off a :: layout (off + (bytes a).length) as

/-- A volatile packer with the entries and the bytes of the items. -/
structure Stored (p : Packer) (items : List α) : Prop where
  table : p.table.Holds (layout entry bytes p.data.writtenLen items)
  data : p.data.Holds (items.flatMap bytes)
  ftype : p.data.ftype = .volatile

variable {entry bytes}

theorem layout_append (bs as : List α) :
    ∀ off, layout entry bytes off (as ++ bs) =
      layout entry bytes off as ++ layout entry bytes (off + (as.flatMap bytes).length) bs := by
  induction as with
  | nil => intro off; rfl
  | cons a as ih =>
      intro off
      rw [List.cons_append, layout, ih, layout, List.cons_append, List.flatMap_cons,
        List.length_append, Nat.add_assoc]

theorem layout_length (as : List α) : ∀ off, (layout entry bytes off as).length = as.length := by
  induction as with
  | nil => intro off; rfl
  | cons a as ih => intro off; rw [layout, List.length_cons, ih, List.length_cons]

theorem layout_id {id : α → UInt64} (hid : ∀ off a, (entry off a).id = id a) (as : List α) :
    ∀ off, (layout entry bytes off as).map CDEntry.id = as.map id := by
  induction as with
  | nil => intro off; rfl
  | cons a as ih => intro off; rw [layout, List.map_cons, ih, hid, List.map_cons]

theorem layout_getElem? (off : ℕ) (pre post : List α) (a : α) :
    (layout entry bytes off (pre ++ a :: post))[pre.length]? =
      some (entry (off + (pre.flatMap bytes).length) a) := by
  rw [layout_append, List.getElem?_append_right (Nat.le_of_eq (layout_length _ _)), layout_length,
    Nat.sub_self]
  rfl

theorem Initial.stored {p : Packer} (h : Initial p) : Stored entry bytes p [] := by
  obtain ⟨alloc, hpos, htable⟩ := h.table
  obtain ⟨ptr, hptr⟩ := Option.isSome_iff_exists.mp h.alloc
  refine ⟨?_, ⟨⟨ptr, hptr, ?_⟩, h.size, h.unit, h.head, h.tail, ?_⟩, h.ftype⟩
  · rw [htable]
    exact TableStore.create_holds hpos
  · intro i x hx
    cases hx
  · rw [h.tail]
    exact Nat.zero_le _

/-- An item whose bytes are written before its entry is inserted. -/
theorem Stored.written {p : Packer} {items : List α} (h : Stored entry bytes p items) (a : α) :
    ∃ p₁ t, p.writeData (bytes a) =
        some (p.data.writtenLen + (items.flatMap bytes).length, p₁) ∧
      p₁.table.insert (entry (p.data.writtenLen + (items.flatMap bytes).length) a) = some t ∧
      Stored entry bytes { p₁ with table := t } (items ++ [a]) := by
  obtain ⟨p₁, hwrite, htable, hdata, hvol, hwl⟩ := writeData_holds h.data h.ftype (bytes a)
  have hholds : p₁.table.Holds (layout entry bytes p₁.data.writtenLen items) := by
    rw [htable, hwl]
    exact h.table
  obtain ⟨t, hinsert, hentries⟩ := TableStore.insert_spec hholds entrySize_pos
    (entry (p.data.writtenLen + (items.flatMap bytes).length) a)
  refine ⟨p₁, t, by rw [hwrite, Nat.add_comm], hinsert, ?_, ?_, hvol⟩
  · show t.Holds (layout entry bytes p₁.data.writtenLen (items ++ [a]))
    rw [layout_append, layout, layout]
    rw [← hwl] at hentries
    exact hentries
  · rw [List.flatMap_append, List.flatMap_singleton]
    exact hdata

/-- An item without bytes. -/
theorem Stored.listed {p : Packer} {items : List α} (h : Stored entry bytes p items) {a : α}
    (hnil : bytes a = []) :
    ∃ t, p.table.insert (entry (p.data.writtenLen + (items.flatMap bytes).length) a) = some t ∧
      Stored entry bytes { p with table := t } (items ++ [a]) := by
  obtain ⟨t, hinsert, hentries⟩ := TableStore.insert_spec h.table entrySize_pos
    (entry (p.data.writtenLen + (items.flatMap bytes).length) a)
  refine ⟨t, hinsert, ?_, ?_, h.ftype⟩
  · show t.Holds (layout entry bytes p.data.writtenLen (items ++ [a]))
    rw [layout_append, layout, layout]
    exact hentries
  · rw [List.flatMap_append, List.flatMap_singleton, hnil, List.append_nil]
    exact h.data

/-- The first bytes of an item are read at its offset. -/
theorem Stored.read {p : Packer} {pre post : List α} {a : α}
    (h : Stored entry bytes p (pre ++ a :: post)) {n : ℕ} (hle : n ≤ (bytes a).length) :
    p.data.getDataVolatile n (p.data.writtenLen + (pre.flatMap bytes).length) =
      some ((bytes a).take n) := by
  rw [DataStore.getDataVolatile, Nat.add_sub_cancel_left]
  by_cases hpos : 0 < n
  · have hdata := h.data
    have htake : ((bytes a).take n).length = n := by rw [List.length_take, Nat.min_eq_left hle]
    rw [List.flatMap_append, List.flatMap_cons, ← List.take_append_drop n (bytes a),
      List.append_assoc] at hdata
    have hread := DataStore.copyFromBuffer_holds hdata (by omega)
    rwa [htake] at hread
  · obtain rfl : n = 0 := by omega
    rfl

end Stored

end Packer

end CDRuntime
