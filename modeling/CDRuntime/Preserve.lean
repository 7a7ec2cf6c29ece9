import CDRuntime.CDID
import CDRuntime.PackerFile
import CDRuntime.RemoteEntries

namespace CDRuntime.Preserve
open Cells Loop32 TableStore RemoteEntries

/-- A part of a serialized object, which packs it with `Add` and unpacks it with `Restore`, as
`CDVector` and `Domain` do with theirs. -/
structure Member where
  id : UInt64
  data : ℕ
  len : ℕ

/-- One call in the body of the CD, by the bits of its mask; `kOutput` is not among them. A mask
without `kCopy` and `kRef` is `kRegen` or no type. With `kSerdes` the data is an object, and
`totalSize` is what its `GetTotalSize` returns. -/
structure Call where
  data : ℕ
  len : ℕ
  copy : Bool
  ref : Bool
  coop : Bool
  serdes : Bool
  ignore : Bool
  name : String
  refName : String
  refOffset : ℕ
  members : List Member
  totalSize : ℕ

/-- The entry directory of a CD as a restoration reads it: `CDPacker::Restore`, and `GetData` of
its store. -/
structure Level where
  restore : Cells UInt8 → UInt64 → ℕ → ℕ → Option (Option CDEntry × Cells UInt8)
  getData : ℕ → ℕ → Option (List UInt8)

def Level.own (dir : Packer) : Level := ⟨dir.restore, dir.data.getDataVolatile⟩

/-- What the search for a tag finds in the enclosing CDs, which do not change while the CD runs. -/
abbrev Outer := UInt64 → Option (CDEntry × Level)

/-- `remote_entry_directory_map_`: a pointer is known by the allocation of the block that it points
into and the index in the block. -/
abbrev RemoteMap := UInt64 → Option (ℕ × ℕ)

/-- A CD on the medium `kLocalMemory`. -/
structure CD where
  dir : Packer
  remote : RemoteMap
  preserveCount : ℕ
  restoreCount : ℕ
  mode : ExecMode

/-- Why a run does not go on: an assertion, an error message, a loop without end or an access
outside its object; the error of a `Preserve` beyond the original ones; the error of a `Preserve`
in a suspended CD. -/
inductive Stop where
  | undefined
  | moreThanOriginal
  | suspended
  deriving DecidableEq, Repr

inductive Event where
  | preserved
  | restored (before after : Cells UInt8)

/-- `sizeof(Internal)`, the object into which `RestoreAll` reads every entry. -/
def sizeofInternal : ℕ := 200

def orUndefined {α : Type} : Option α → Except Stop α
  | some a => .ok a
  | none => .error .undefined

/-- `Add(src, entry)` with `CDEntry(id, 0, len, 0, data)`. -/
def addMember (mem : Cells UInt8) (dir : Packer) (m : Member) : Option Packer := do
  let size_ := Attr.ofAttr 0 m.len
  -- if size is 0, insert entry to table only
  let (offset, dir) ← (if size_.size ≠ 0 then dir.writeData (readOut mem m.data size_.size)
    else some (0, dir))
  let table ← dir.table.insert { id := m.id, size_, offset, src := m.data }
  some { dir with table }

def preserveObject (dir : Packer) (mem : Cells UInt8) (members : List Member) : Option Packer :=
  members.foldlM (addMember mem) dir

def appendTable (dir : Packer) : Option Packer := do
  let src ← dir.table.currBytes
  if src ≠ [] then do
    let (_, dir) ← dir.writeData src
    some dir
  else some dir

/-- `Deserialize`, which fails when the entry of a member is not found. -/
def deserialize (lv : Level) (mem : Cells UInt8) : List Member → Option (Cells UInt8)
  | [] => some mem
  | m :: ms => do
      let (entry, mem) ← lv.restore mem m.id m.data m.len
      match entry with
      | none => none
      | some _ => deserialize lv mem ms

def Call.remote (c : Call) : ℕ := if c.coop then Attr.kremote else 0

/-- `PreserveCopy` of an object or a single entry; `FlushMagic` does nothing in memory. -/
def preserveCopy (dir : Packer) (mem : Cells UInt8) (c : Call) (id : UInt64) : Option Packer := do
  if c.serdes then
    let packedOffset := dir.data.used
    let dir ← preserveObject dir mem c.members
    let tableOffset := dir.data.used
    let dir ← appendTable dir
    let packedTotalSize := dir.data.used - packedOffset
    let table ← dir.table.insert
      { id, size_ := .ofAttr (c.remote ||| Attr.knested) packedTotalSize, offset := packedOffset
        src := tableOffset }
    some { dir with table }
  else
    dir.addEntry mem c.data
      { id, size_ := .ofAttr (c.remote ||| Attr.karray) c.len, offset := 0, src := c.data }

def lastEntry (dir : Packer) : ℕ × ℕ := (dir.table.allocated, dir.table.tail - 1)

section Model

-- `cd_hash`, and what the enclosing CDs hold
variable (hash : String → UInt64) (outer : Outer)

def Call.id (c : Call) : UInt64 := hash c.name

def Call.refId (c : Call) : UInt64 := if c.refName = "" then c.id hash else hash c.refName

def Call.searchTag (c : Call) : UInt64 := if c.ref then c.refId hash else c.id hash

/-- The pointer of the map counts, wherever it leads to, else the newest entry of the table; a
reference is not found. -/
def internalGetEntry (cd : CD) (tag : UInt64) : Option (Option CDEntry) := do
  let entry ← match cd.remote tag with
    | some (block, i) => (entryIn cd.dir.table block i).map some
    | none => cd.dir.table.findReverse tag
  some (entry.filter fun e => !e.size_.check Attr.krefer)

/-- `SearchEntry`: in the own CD, then in the enclosing ones. -/
def searchEntry (cd : CD) (tag : UInt64) : Option (Option (CDEntry × Level)) := do
  match ← internalGetEntry cd tag with
  | some e => some (some (e, .own cd.dir))
  | none => some (outer tag)

/-- The entry of a reference has the tag it refers to in the place of the address. -/
def preserveRef (dir : Packer) (c : Call) : Option Packer := do
  let nested := if c.serdes then Attr.knested else 0
  let size := if c.serdes then c.totalSize else c.len
  let table ← dir.table.insert
    { id := c.id hash, size_ := .ofAttr (c.remote ||| Attr.krefer ||| nested) size
      offset := c.refOffset, src := (c.refId hash).toNat }
  some { dir with table }

def preserveEntry (cd : CD) (mem : Cells UInt8) (c : Call) : Option Packer :=
  if c.copy then preserveCopy cd.dir mem c (c.id hash)
  else if c.ref then
    if c.ignore then preserveRef hash cd.dir c
    else do
      match ← searchEntry outer cd (c.refId hash) with
      | some _ => preserveRef hash cd.dir c
      | none => preserveCopy cd.dir mem c (c.refId hash)
  else none

def internalPreserve (cd : CD) (mem : Cells UInt8) (c : Call) : Option CD := do
  if c.name = "" then none
  else
    let dir ← preserveEntry hash outer cd mem c
    let remote := if c.id hash ≠ INVALID_NUM ∧ c.coop then
      Function.update cd.remote (c.id hash) (some (lastEntry dir)) else cd.remote
    some { cd with dir, remote }

/-- `Restore` asserts that a single entry was preserved from the same address with the same
length. -/
def restore (cd : CD) (mem : Cells UInt8) (c : Call) : Option (Cells UInt8) := do
  match ← searchEntry outer cd (c.searchTag hash) with
  | none => none
  | some (src, lv) =>
      if c.serdes then deserialize lv mem c.members
      else if src.src = c.data ∧ src.size = c.len then
        (lv.getData c.len src.offset).map (copyIn mem c.data)
      else none

def preserve (cd : CD) (mem : Cells UInt8) (c : Call) : Except Stop (CD × Event) :=
  match cd.mode with
  | .execution => do
      let cd ← orUndefined (internalPreserve hash outer cd mem c)
      .ok ({ cd with preserveCount := (cd.preserveCount + 1) % 2 ^ 64 }, .preserved)
  | .reexecution =>
      if cd.restoreCount < cd.preserveCount then do
        let mem' ← orUndefined (restore hash outer cd mem c)
        let cd := { cd with restoreCount := (cd.restoreCount + 1) % 2 ^ 64 }
        -- the last restoration switches back to preserving
        let cd := if cd.restoreCount = cd.preserveCount then
          { cd with mode := .execution, restoreCount := 0 } else cd
        .ok (cd, .restored mem mem')
      else .error .moreThanOriginal
  | .suspension => .error .suspended

/-- One round of the second loop of `RestoreAll`: the entry is read into an `Internal` on the
stack. -/
def readRound (data : DataStore) (objEntries : TableStore CDEntry) (i : ℕ) (_ : Unit) :
    Option (ForInStep Unit) := do
  let ptr ← objEntries.ptr
  let e ← ptr[i % objEntries.size]?
  if e.size ≤ sizeofInternal then do
    let _ ← data.getDataVolatile e.size e.offset
    some (.yield ())
  else none

/-- `RestoreAll` reads every entry of an array and starts counting anew. -/
def restoreAll (cd : CD) : Option CD := do
  let (entryNum, objEntries) ← cd.dir.table.findWithAttrInto Attr.karray 0 true
    (.create CDEntry baseEntryCnt)
  let _ ← loop 0 entryNum (readRound cd.dir.data objEntries) ()
  some { cd with restoreCount := 0 }

/-- `RecoverObject::Recover` at the level of the CD. -/
def recover (cd : CD) : Except Stop CD := orUndefined (restoreAll { cd with mode := .reexecution })

/-- The calls of an execution with the memory that each of them sees. -/
def body (cd : CD) : List (Call × Cells UInt8) → Except Stop (CD × List Event)
  | [] => .ok (cd, [])
  | (c, mem) :: rest => do
      let (cd, e) ← preserve hash outer cd mem c
      let (cd, es) ← body cd rest
      .ok (cd, e :: es)

/-- Executions that fail after the calls they have completed, and the last one, which does
not. -/
def session (cd : CD) (last : List (Call × Cells UInt8)) :
    List (List (Call × Cells UInt8)) → Except Stop (CD × List (List Event))
  | [] => do
      let (cd, es) ← body hash outer cd last
      .ok (cd, [es])
  | attempt :: attempts => do
      let (cd, es) ← body hash outer cd attempt
      let cd ← recover cd
      let (cd, ess) ← session cd last attempts
      .ok (cd, es :: ess)

end Model

end CDRuntime.Preserve
