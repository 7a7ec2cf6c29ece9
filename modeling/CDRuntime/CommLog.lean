import CDRuntime.CDID
import CDRuntime.Splice

namespace CDRuntime
open Splice

inductive CommLogErrT where
  | ok | initFailed | allocFailed | childLogAllocFailed | reInitFailed
  | commLogModeFlip | childLogNotFound | missing | error
  deriving DecidableEq, Repr

inductive CommLogMode where
  | generateLog | replayLog | invalidLogMode
  deriving DecidableEq, Repr

structure LogTableElement where
  pos : ℕ
  length : ℕ
  completed : Bool
  flag : ℕ
  counter : ℕ
  reexecCounter : ℕ
  isrepeated : Bool
  taskID : ℕ
  deriving DecidableEq, Repr

def LogTableElement.fresh : LogTableElement := ⟨0, 0, false, 0, 0, 0, false, 0⟩

structure LogTable where
  basePtr : Option (List LogTableElement)
  curPos : ℕ
  tableSize : ℕ
  deriving DecidableEq, Repr

structure LogQueue where
  basePtr : Option (List UInt8)
  curPos : ℕ
  queueSize : ℕ
  deriving DecidableEq, Repr

structure ChildLogQueue where
  basePtr : Option (List UInt8)
  size : ℕ
  curPos : ℕ
  deriving DecidableEq, Repr

structure IncompleteLogEntry where
  addr : ℕ
  length : ℕ
  flag : ℕ
  complete : Bool
  isrecv : Bool
  taskID : ℕ
  intraCdMsg : Bool
  tag : Int
  comm : Int
  deriving DecidableEq, Repr

/-- The part of the owning domain that the log reads and writes. -/
structure OwnerCD where
  cdId : CDID
  incompleteLog : List IncompleteLogEntry
  deriving DecidableEq, Repr, Inhabited

/-- `none` is a run that stops, at a failed assertion (`ERROR_MESSAGE` ends in `assert(0)`) or at
an access outside an allocated block. A null pointer is `none` in the `basePtr` fields. -/
structure CommLog where
  myCd : OwnerCD
  queueSizeUnit : ℕ
  tableSizeUnit : ℕ
  childLogSizeUnit : ℕ
  commLogMode : CommLogMode
  logQueue : LogQueue
  logTable : LogTable
  logTableReexecPos : ℕ
  newLogGenerated : Bool
  childLog : ChildLogQueue
  deriving DecidableEq, Repr

namespace CommLog

/-- `new char[n]` -/
def newChars (n : ℕ) : List UInt8 := List.replicate n 0

/-- `new struct LogTableElement[n]` -/
def newElements (n : ℕ) : List LogTableElement := List.replicate n .fresh

def initAlloc (c : CommLog) : CommLogErrT × CommLog :=
  let q := match c.logQueue.basePtr with
    | none => { c.logQueue with
        basePtr := some (newChars c.queueSizeUnit), queueSize := c.queueSizeUnit }
    | some _ => c.logQueue
  let t := match c.logTable.basePtr with
    | none => { c.logTable with
        basePtr := some (newElements c.tableSizeUnit), tableSize := c.tableSizeUnit }
    | some _ => c.logTable
  (.ok, { c with logQueue := q, logTable := t })

/-- The constructor with its three units, followed by `InitInternal`. -/
def create (myCd : OwnerCD) (mode : CommLogMode)
    (queueSizeUnit tableSizeUnit childLogSizeUnit : ℕ) : CommLog :=
  let c : CommLog :=
    { myCd, queueSizeUnit, tableSizeUnit, childLogSizeUnit, commLogMode := mode
      logQueue := ⟨none, 0, 0⟩, logTable := ⟨none, 0, 0⟩, logTableReexecPos := 0
      newLogGenerated := false, childLog := ⟨none, 0, 0⟩ }
  if mode = .generateLog then (initAlloc c).2 else c

def reInit (c : CommLog) : CommLog :=
  { c with commLogMode := .replayLog, logTableReexecPos := 0 }

def reset (c : CommLog) : CommLog :=
  { c with
    logTable := { c.logTable with curPos := 0 }
    logQueue := { c.logQueue with curPos := 0 }
    childLog := { c.childLog with curPos := 0 }
    logTableReexecPos := 0
    newLogGenerated := false
    commLogMode := .generateLog }

end CommLog

def LogTable.read (t : LogTable) (i : ℕ) : Option LogTableElement :=
  t.basePtr.bind fun b => b[i]?

def LogTable.write (t : LogTable) (i : ℕ) (e : LogTableElement) : Option LogTable :=
  t.basePtr.bind fun b =>
    if i < b.length then some { t with basePtr := some (b.set i e) } else none

def LogQueue.write (q : LogQueue) (pos : ℕ) (xs : List UInt8) : Option LogQueue :=
  q.basePtr.bind fun b => (store b pos xs).map fun b' => { q with basePtr := some b' }

def LogQueue.read (q : LogQueue) (pos n : ℕ) : Option (List UInt8) :=
  q.basePtr.bind fun b => load b pos n

namespace CommLog

def increaseLogTableSize (t : LogTable) : Option (CommLogErrT × LogTable) := do
  let b ← t.basePtr
  let old ← load b 0 t.tableSize
  let new ← store (newElements (t.tableSize * 2)) 0 old
  some (.ok, { t with basePtr := some new, tableSize := t.tableSize * 2 })

def increaseLogQueueSize (q : LogQueue) (length : ℕ) : Option (CommLogErrT × LogQueue) := do
  let requiredLength := (q.curPos + length) * 2
  if requiredLength ≤ q.queueSize then
    none
  else
    let b ← q.basePtr
    let old ← load b 0 q.queueSize
    let new ← store (newChars requiredLength) 0 old
    some (.ok, { q with basePtr := some new, queueSize := requiredLength })

def writeLogTable (c : CommLog) (taskID dataLength : ℕ) (completed : Bool) (flag : ℕ)
    (isrepeated : Bool) : Option (CommLogErrT × CommLog) := do
  let t ← (if c.logTable.tableSize ≤ c.logTable.curPos then
      (increaseLogTableSize c.logTable).map Prod.snd
    else some c.logTable)
  let t' ← t.write t.curPos
    { pos := c.logQueue.curPos, length := dataLength, completed, flag, counter := 1
      reexecCounter := 0, isrepeated, taskID }
  some (.ok, { c with logTable := { t' with curPos := t'.curPos + 1 } })

def writeLogQueue (c : CommLog) (data : List UInt8) (completed : Bool) :
    Option (CommLogErrT × CommLog) := do
  let q ← (if c.logQueue.queueSize < c.logQueue.curPos + data.length then
      (increaseLogQueueSize c.logQueue data.length).map Prod.snd
    else some c.logQueue)
  let q' ← (if completed ∧ data.length ≠ 0 then q.write q.curPos data else some q)
  some (.ok, { c with logQueue := { q' with curPos := q'.curPos + data.length } })

/-- The trailing arguments of `LogData`, with the defaults of its declaration. -/
structure LogArgs where
  taskID : ℕ := 0
  completed : Bool := true
  flag : ℕ := 0
  isrecv : Bool := false
  isrepeated : Bool := false
  intraCdMsg : Bool := false
  tag : Int := -1
  comm : Int := -1
  deriving DecidableEq, Repr

/-- The last table cell is read whatever `curPos` is. -/
def foundRepeatedEntry (c : CommLog) (dataLength : ℕ) (completed : Bool) (flag : ℕ) :
    Option Bool := do
  if c.logTable.curPos = 0 then
    none
  else
    let e ← c.logTable.read (c.logTable.curPos - 1)
    some (e.isrepeated && e.length == dataLength && e.completed == completed && e.flag == flag)

/-- The end of `LogData`: an incomplete entry is noted in the owning domain. -/
def noteEntry (c : CommLog) (dataPtr length : ℕ) (a : LogArgs) : CommLog :=
  let log := c.myCd.incompleteLog
  let log' := if a.completed then log else log ++
    [{ addr := dataPtr, length, flag := a.flag, complete := false, isrecv := a.isrecv
       taskID := a.taskID, intraCdMsg := a.intraCdMsg, tag := a.tag, comm := a.comm }]
  { c with myCd := { c.myCd with incompleteLog := log' }, newLogGenerated := true }

/-- `LogData`: `data` are the `data_length` bytes at `data_ptr`. -/
def logData (c : CommLog) (dataPtr : ℕ) (data : List UInt8) (a : LogArgs) :
    Option (CommLogErrT × CommLog) := do
  let found ← (if a.isrepeated then foundRepeatedEntry c data.length a.completed a.flag
    else some false)
  if found then
    let i := c.logTable.curPos - 1
    let e ← c.logTable.read i
    let t ← c.logTable.write i { e with counter := e.counter + 1 }
    some (.ok, { c with logTable := t })
  else
    let (_, c₁) ← writeLogTable c a.taskID data.length a.completed a.flag a.isrepeated
    let c₂ ← (if data.length ≠ 0 then (writeLogQueue c₁ data a.completed).map Prod.snd
      else some c₁)
    some (.ok, noteEntry c₂ dataPtr data.length a)

/-- The loop of `ProbeAndLogData`: `n` table cells from `pos` on. -/
def findFlag (t : LogTable) (flag : ℕ) : ℕ → ℕ → Option (Option ℕ)
  | _, 0 => some none
  | pos, n + 1 => do
      let e ← t.read pos
      if e.flag = flag then some (some pos) else findFlag t flag (pos + 1) n

/-- `ProbeAndLogData`: `data` are the `length` bytes at `addr`. -/
def probeAndLogData (c : CommLog) (data : List UInt8) (flag : ℕ) : Option (Bool × CommLog) := do
  match ← findFlag c.logTable flag 0 c.logTable.curPos with
  | none => some (false, c)
  | some pos =>
      let e ← c.logTable.read pos
      if e.length ≠ data.length then
        none
      else
        let t ← c.logTable.write pos { e with completed := true }
        let q ← (if data.length ≠ 0 then c.logQueue.write e.pos data else some c.logQueue)
        some (true, { c with logTable := t, logQueue := q })

/-- The checks that `ReadData` and `ProbeData` make before an entry is served. The
two differ in the answer for an entry that is not completed. -/
def checkEntry (c : CommLog) (length : ℕ) (incomplete : CommLogErrT) :
    Option (CommLogErrT ⊕ LogTableElement) := do
  if c.logTableReexecPos = c.logTable.curPos then
    some (.inl .commLogModeFlip)
  else if c.logTable.curPos = 0 then
    none
  else
    let e ← c.logTable.read c.logTableReexecPos
    if length ≠ e.length then none
    else if e.completed = false then some (.inl incomplete)
    else some (.inr e)

def advance (c : CommLog) (e : LogTableElement) : Option CommLog := do
  if e.isrepeated then
    if e.reexecCounter + 1 = e.counter then
      let t ← c.logTable.write c.logTableReexecPos { e with reexecCounter := 0 }
      some { c with logTable := t, logTableReexecPos := c.logTableReexecPos + 1 }
    else
      let t ← c.logTable.write c.logTableReexecPos { e with reexecCounter := e.reexecCounter + 1 }
      some { c with logTable := t }
  else
    some { c with logTableReexecPos := c.logTableReexecPos + 1 }

/-- Result, the bytes written to the caller's buffer, and the log afterwards. -/
abbrev ReadResult := CommLogErrT × List UInt8 × CommLog

def flipMode (err : CommLogErrT) (c : CommLog) : CommLog :=
  if err = .commLogModeFlip then { c with commLogMode := .generateLog } else c

def readData (c : CommLog) (length : ℕ) : Option ReadResult := do
  match ← checkEntry c length .missing with
  | .inl err => some (err, [], flipMode err c)
  | .inr e =>
      let bytes ← (if length ≠ 0 then c.logQueue.read e.pos e.length else some [])
      let c' ← advance c e
      some (.ok, bytes, c')

def probeData (c : CommLog) (length : ℕ) : Option ReadResult := do
  match ← checkEntry c length .error with
  | .inl err => some (err, [], flipMode err c)
  | .inr e =>
      let c' ← advance c e
      some (.ok, [], c')

end CommLog

end CDRuntime
