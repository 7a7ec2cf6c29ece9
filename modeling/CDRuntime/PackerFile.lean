import CDRuntime.AttrFields
import CDRuntime.DataStoreFlushMode
import CDRuntime.PackerImage
import CDRuntime.Runs

namespace CDRuntime
open Cells Splice Runs

/-- `Advance(offset)`: the tail, the table, the entry for the next call and the next `table_id`. -/
def TableStore.advance (t : TableStore CDEntry) (prvEntry : CDEntry) (tableId : UInt64)
    (offset : ℕ) : Option (ℕ × TableStore CDEntry × CDEntry × UInt64) := do
  let t ← t.insert prvEntry
  let tableSize := t.tail - t.advancePoint
  some (t.tail, { t with advancePoint := t.tail },
    { prvEntry with id := tableId, offset, size_ := prvEntry.size_.tableEntry tableSize },
    tableId + 1)

/-- The `tablesize()` bytes at `GetCurrPtr()`. -/
def TableStore.currBytes (t : TableStore CDEntry) : Option (List UInt8) := do
  if t.tail < t.advancePoint ∨ t.size = 0 then none
  else
    let ptr ← t.ptr
    load (CDEntry.layout.encAll ptr) (t.advancePoint % t.size * Entry.sizeOf CDEntry)
      ((t.tail - t.advancePoint) * Entry.sizeOf CDEntry)

/-- `Flush(src, len)` of a store with the header `magic` in front of its ring. -/
def DataStore.flushSrc (s : DataStore) (f : FileHandle) (magic : MagicStore) (src : List UInt8) :
    Option (ℕ × DataStore × FileHandle) := do
  let (tableOffset, s, f) ← s.writeFlushMode f src
  let (s, f) ← s.writeFile f s.bufUsed
  some (tableOffset, s, f.write 0 (MagicStore.layout.enc magic) 0)

/-- A packer with what `WriteToFile` keeps from one call to the next. -/
structure FilePacker extends Packer where
  prvEntry : CDEntry
  tableId : UInt64
  curPos : ℕ

namespace FilePacker

def writeToFile (p : FilePacker) : Option FilePacker := do
  let tablesize := (p.table.tail - p.table.head) * Entry.sizeOf CDEntry
  let tableOffset := p.data.used
  let magic : MagicStore := ⟨tablesize + tableOffset, tableOffset, kCDEntry⟩
  let (curPos, table, prvEntry, tableId) ← p.table.advance p.prvEntry p.tableId p.data.used
  let src ← table.currBytes
  let (_, data, file) ← p.data.flushSrc p.file magic src
  some { p with table, data, file, prvEntry, tableId, curPos }

/-- The entries of the table that a call is to write: those inserted since the call before, and
the entry that leads to the table of that call. -/
def chunk (p : FilePacker) : List CDEntry :=
  ((p.table.ptr.getD []).take p.table.tail).drop p.table.advancePoint ++ [p.prvEntry]

end FilePacker

namespace TableFile

/-- A packer with the bytes that were added to it and the tables that were to be written, each
with its offset. -/
structure Session where
  packer : FilePacker
  bytes : List UInt8
  tables : List (ℕ × List CDEntry)

inductive Op where
  | add (mem : Cells UInt8) (appData len : ℕ) (id : UInt64)
  | writeToFile

def step (s : Session) : Op → Option Session
  | .add mem appData len id => do
      let p ← s.packer.toPacker.add mem appData len id
      some { s with
        packer := { s.packer with toPacker := p }
        bytes := s.bytes ++ readOut mem appData len }
  | .writeToFile => do
      let p ← s.packer.writeToFile
      some ⟨p, s.bytes, s.tables ++ [(s.packer.data.used, s.packer.chunk)]⟩

/-- A fresh packer with a file; `InitFile` puts the data behind the header. -/
structure Created (s : Session) : Prop where
  table : s.packer.table.Keeps []
  advancePoint : s.packer.table.advancePoint = 0
  prvEntry : s.packer.prvEntry.offset = invalidNum
  alloc : s.packer.data.ptr.isSome
  size : 0 < s.packer.data.size
  head : s.packer.data.head = 0
  tail : s.packer.data.tail = 0
  hasHandle : s.packer.data.ftype.hasHandle
  writtenLen : MagicStore.layout.size ≤ s.packer.data.writtenLen
  bytes : s.bytes = []
  tables : s.tables = []

/-- An entry that leads to the table before, if there is one. -/
def LeadsTo (e : CDEntry) : Option (ℕ × List CDEntry) → Prop
  | none => e.offset = invalidNum
  | some (offset, es) => e.offset = offset ∧ e.size = es.length % 2 ^ 48

/-- The last entry of each table leads to the table before. -/
def Chained (tables : List (ℕ × List CDEntry)) : Prop :=
  ∀ front T back, tables = front ++ T :: back →
    ∃ e, T.2.getLast? = some e ∧ LeadsTo e front.getLast?

/-- The file has the bytes of a table at its offset. -/
def HasTable (content : Cells UInt8) (T : ℕ × List CDEntry) : Prop :=
  readOut content T.1 (CDEntry.layout.encAll T.2).length = CDEntry.layout.encAll T.2

/-- The file after a call: the header with the offset of the last table, the data, and every table
at the offset that the next one leads to. -/
structure Persisted (s : Session) : Prop where
  header : ∃ total offset es, s.tables.getLast? = some (offset, es) ∧
    readOut s.packer.file.content 0 MagicStore.layout.size =
      MagicStore.layout.enc ⟨total, offset, kCDEntry⟩
  data : readOut s.packer.file.content s.packer.data.writtenLen s.bytes.length = s.bytes
  tables : ∀ T ∈ s.tables, HasTable s.packer.file.content T
  chain : Chained s.tables

/-- Every call of `WriteToFile` with a table persists it and keeps the tables before. -/
def Persists (s : Session) : Op → Prop
  | .add .. => True
  | .writeToFile =>
      s.packer.table.tail ≠ 0 → ∃ s', step s .writeToFile = some s' ∧ Persisted s'

/-- The call writes the data and the header, and no byte of a table. -/
def WritesNoTable (s : Session) : Op → Prop
  | .add .. => True
  | .writeToFile => ∀ s', step s .writeToFile = some s' → ∃ data file total,
      s.packer.data.writeFile s.packer.file s.packer.data.bufUsed = some (data, file) ∧
        s'.packer.file =
          file.write 0 (MagicStore.layout.enc ⟨total, s.packer.data.used, kCDEntry⟩) 0

/-- How many bytes of the ring `WriteFile` copies: whole chunks, so there may be some from behind
the tail. -/
def copied (s : DataStore) : ℕ :=
  let first := s.size - s.head % s.size
  if first < s.bufUsed then first + alignUp (s.bufUsed - first) else alignUp s.bufUsed

def cellAt (s : DataStore) (k : ℕ) : ℕ :=
  let first := s.size - s.head % s.size
  if first < s.bufUsed ∧ first ≤ k then k - first else s.head % s.size + k

/-- In front of a call the bytes of a table lie there by chance: later data that were added over
it, then what is left in the ring behind the tail, up to the end of the chunk, and then what is in
the file. -/
structure Spelled (s : Session) (T : ℕ × List CDEntry) : Prop where
  data : ∀ k (hk : k < (CDEntry.layout.encAll T.2).length), T.1 + k < s.packer.data.used →
    s.bytes[T.1 + k - s.packer.data.writtenLen]? = some (CDEntry.layout.encAll T.2)[k]
  ring : ∀ k (hk : k < (CDEntry.layout.encAll T.2).length), s.packer.data.used ≤ T.1 + k →
    T.1 + k < s.packer.data.head + s.packer.data.writtenLen + copied s.packer.data →
      s.packer.data.ptr.map
        (· (cellAt s.packer.data (T.1 + k - (s.packer.data.head + s.packer.data.writtenLen)))) =
          some (CDEntry.layout.encAll T.2)[k]
  file : ∀ k (hk : k < (CDEntry.layout.encAll T.2).length), s.packer.data.used ≤ T.1 + k →
    s.packer.data.head + s.packer.data.writtenLen + copied s.packer.data ≤ T.1 + k →
      s.packer.file.content (T.1 + k) = (CDEntry.layout.encAll T.2)[k]

instance (s : Session) (T : ℕ × List CDEntry) : Decidable (Spelled s T) :=
  decidable_of_iff (_ ∧ _ ∧ _)
    ⟨fun ⟨hdata, hring, hfile⟩ => ⟨hdata, hring, hfile⟩, fun ⟨hdata, hring, hfile⟩ =>
      ⟨hdata, hring, hfile⟩⟩

/-- In front of each call its table and the tables before are spelled. -/
def AllSpelled (s : Session) : Op → Prop
  | .add .. => True
  | .writeToFile => s.packer.table.tail ≠ 0 →
      ∀ T ∈ s.tables ++ [(s.packer.data.used, s.packer.chunk)], Spelled s T

instance (s : Session) : ∀ op, Decidable (AllSpelled s op)
  | .add .. => isTrue trivial
  | .writeToFile => inferInstanceAs (Decidable (_ → _))

def GrowsInTurn (s : Session) : Op → Prop
  | .add _ _ len _ => s.packer.data.CanGrow len ∧
      (s.packer.data.head = s.packer.data.tail ∨
        len + s.packer.data.bufUsed ≤ s.packer.data.size ∨
        ∃ size', DataStore.FirstCovering (len + s.packer.data.bufUsed) s.packer.data.size
          s.packer.data.growUnit size' ∧ s.packer.data.SameTurn size')
  | .writeToFile => True

section Store

variable {s : DataStore} {f : FileHandle} {stream : ℕ → UInt8}

def leftByte (s : DataStore) (f : FileHandle) (pos : ℕ) : UInt8 :=
  match s.ptr with
  | none => f.content pos
  | some ptr =>
      if s.head + s.writtenLen ≤ pos ∧ pos < s.head + s.writtenLen + copied s then
        ptr (cellAt s (pos - (s.head + s.writtenLen)))
      else f.content pos

end Store

section Table

variable {t : TableStore CDEntry} {es : List CDEntry}

theorem advance_spec (h : t.Keeps es) (prvEntry : CDEntry) (tableId : UInt64) (offset : ℕ) :
    ∃ t', t.advance prvEntry tableId offset = some (es.length + 1, t',
        { prvEntry with
          id := tableId, offset
          size_ := prvEntry.size_.tableEntry (es.length + 1 - t.advancePoint) }, tableId + 1) ∧
      t'.Keeps (es ++ [prvEntry]) ∧ t'.advancePoint = es.length + 1 ∧ t'.currBytes = some [] := by
  obtain ⟨t₁, hinsert, hkeeps⟩ := TableStore.insert_keeps h Packer.entrySize_pos prvEntry
  have htail : t₁.tail = es.length + 1 := by rw [hkeeps.tail, List.length_append]; rfl
  have hadv := TableStore.insert_advancePoint hinsert
  have hsize : 0 < t₁.size := by
    have hroom := hkeeps.room
    have hpos := Nat.mul_pos (show 0 < t₁.tail by omega) Packer.entrySize_pos
    omega
  obtain ⟨ptr, hptr, -⟩ := TableStore.Shows.getElem? hkeeps.shows
    (show 0 < (es ++ [prvEntry]).length by rw [← hkeeps.tail]; omega)
  refine ⟨{ t₁ with advancePoint := t₁.tail }, ?_, ?_, htail, ?_⟩
  · simp only [TableStore.advance, hinsert, Option.bind_eq_bind, Option.bind_some, htail, hadv]
  · exact ⟨hkeeps.tail, hkeeps.unit, hkeeps.room, hkeeps.block, fun hnull => nomatch
      hptr.symm.trans hnull⟩
  · have hin : t₁.tail % t₁.size * Entry.sizeOf CDEntry + 0 ≤
        (CDEntry.layout.encAll ptr).length := by
      rw [Layout.encAll_length, CDEntry.layout_size, Nat.mul_comm (Entry.sizeOf CDEntry)]
      exact Nat.mul_le_mul_right _
        (Nat.le_trans (Nat.mod_le _ _) (hkeeps.fits Packer.entrySize_pos hptr))
    have hload := load_of_le hin
    have hnot : ¬ (t₁.tail < t₁.tail ∨ t₁.size = 0) := by omega
    simp only [TableStore.currBytes, if_neg hnot, hptr, Nat.sub_self, Nat.zero_mul, hload,
      Option.bind_eq_bind, Option.bind_some]
    rfl

end Table

theorem chained_nil : Chained [] := by
  intro front T back h
  have hlen := congrArg List.length h
  rw [List.length_append, List.length_cons, List.length_nil] at hlen
  omega

structure Kept (s : Session) : Prop where
  table : ∃ es, s.packer.table.Keeps es ∧ s.packer.table.advancePoint ≤ es.length
  data : s.packer.data.Buffers s.packer.file fun i => s.bytes.getD i 0
  tail : s.packer.data.tail = s.bytes.length
  size : 0 < s.packer.data.size
  writtenLen : MagicStore.layout.size ≤ s.packer.data.writtenLen
  behind : ∀ T ∈ s.tables, s.packer.data.writtenLen ≤ T.1
  chain : Chained s.tables
  link : LeadsTo s.packer.prvEntry s.tables.getLast?

variable {s s' : Session}

theorem created_kept (h : Created s) : Kept s := by
  obtain ⟨ptr, hptr⟩ := Option.isSome_iff_exists.mp h.alloc
  have hbuf : s.packer.data.Buffers s.packer.file fun i => s.bytes.getD i 0 := by
    refine ⟨?_, ?_, ptr, hptr, ?_, ?_⟩
    · rw [h.head]
      exact Nat.zero_le _
    · rw [h.head, h.tail]
      exact Nat.zero_le _
    · intro i hi
      rw [h.head] at hi
      exact absurd hi (Nat.not_lt_zero i)
    · intro i _ hi
      rw [h.tail] at hi
      exact absurd hi (Nat.not_lt_zero i)
  refine ⟨⟨[], h.table, Nat.le_of_eq h.advancePoint⟩, hbuf, ?_, h.size, h.writtenLen, ?_, ?_, ?_⟩
  · rw [h.tail, h.bytes]
    rfl
  · rw [h.tables]
    exact List.forall_mem_nil _
  · rw [h.tables]
    exact chained_nil
  · rw [h.tables]
    exact h.prvEntry

/-- A fresh packer with a file of zeros and a ring that came with some bytes. -/
def fresh (left : Cells UInt8) : Session where
  packer :=
    { table := TableStore.create CDEntry 2
      data := { DataStore.chunkRing 0 0 with ptr := some left }
      file := ⟨0, fun _ => 0⟩
      threshold := chunksizeThresholdBase
      prvEntry := ⟨0, .ofSize 0, invalidNum, 0⟩
      tableId := 0
      curPos := 0 }
  bytes := []
  tables := []

def addByte : Op := .add (fun _ => 1) 8 1 7

/-- A ring that came with the bytes of the table behind the place of the byte. -/
def tableLeft : Cells UInt8 :=
  copyIn (fun _ => 0) 1
    (CDEntry.layout.encAll [⟨7, .ofSize 1, chunkAlignment, 8⟩, ⟨0, .ofSize 0, invalidNum, 0⟩])

end TableFile

end CDRuntime
