import CDRuntime.CommLogBlocks
import CDRuntime.Layout

namespace CDRuntime
open Splice

def CDNameT.layout : Layout CDNameT :=
  (Layout.uint32.seq (Layout.uint32.seq (Layout.uint32.seq Layout.uint32))).iso
    (fun p => ⟨p.1, p.2.1, p.2.2.1, p.2.2.2⟩)
    (fun n => (n.level, n.phase, n.rankInLevel, n.size)) fun _ => rfl

/-- The virtual table pointer comes first. -/
def NodeID.layout : Layout NodeID :=
  (Layout.behind 8 (Layout.int32.seq (Layout.int32.seq (Layout.int32.seq (Layout.int32.seq
    (Layout.uint64.seq Layout.uint64)))))).iso
    (fun p => ⟨p.1, p.2.1, p.2.2.1, p.2.2.2.1, p.2.2.2.2.1, p.2.2.2.2.2⟩)
    (fun n => (n.taskInColor, n.head, n.size, n.colorId, n.color, n.taskGroup)) fun _ => rfl

def CDID.layout : Layout CDID :=
  ((CDNameT.layout.seq (NodeID.layout.seq (Layout.uint32.seq
    (Layout.uint32.seq Layout.uint32)))).padded 4).iso
    (fun p => ⟨p.1, p.2.1, p.2.2.1, p.2.2.2.1, p.2.2.2.2⟩)
    (fun i => (i.cdName, i.nodeId, i.domainId, i.objectId, i.sequentialId)) fun _ => rfl

theorem CDID.layout_fits (i : CDID) : CDID.layout.Fits i :=
  ⟨⟨Layout.uint32_fits _, Layout.uint32_fits _, Layout.uint32_fits _, Layout.uint32_fits _⟩,
    ⟨Layout.int32_fits _, Layout.int32_fits _, Layout.int32_fits _, Layout.int32_fits _,
      Layout.uint64_fits _, Layout.uint64_fits _⟩,
    Layout.uint32_fits _, Layout.uint32_fits _, Layout.uint32_fits _⟩

def LogTableElement.layout : Layout LogTableElement :=
  ((Layout.nat 8).seq ((Layout.nat 8).seq ((Layout.bool.padded 7).seq ((Layout.nat 8).seq
    ((Layout.nat 8).seq ((Layout.nat 8).seq ((Layout.bool.padded 3).seq (Layout.nat 4)))))))).iso
    (fun p => ⟨p.1, p.2.1, p.2.2.1, p.2.2.2.1, p.2.2.2.2.1, p.2.2.2.2.2.1, p.2.2.2.2.2.2.1,
      p.2.2.2.2.2.2.2⟩)
    (fun e => (e.pos, e.length, e.completed, e.flag, e.counter, e.reexecCounter, e.isrepeated,
      e.taskID)) fun _ => rfl

/-- `LogTable`, `LogQueue` and `ChildLogQueue` are a pointer and two counts. A copied pointer is
never used, so its bytes are left at zero. -/
def headerLayout : Layout (ℕ × ℕ) := Layout.behind 8 ((Layout.nat 8).seq (Layout.nat 8))

def sizeLayout : Layout ℕ := Layout.nat 8

/-- The sizes that `sizeof` gives on the 64-bit targets. -/
example : CDID.layout.size = 72 ∧ LogTableElement.layout.size = 56 ∧ headerLayout.size = 24 := by
  decide

/-- `memcpy` of `n` cells from the start of a block; nothing is read when `n` is zero. -/
def readCells {α : Type} (base : Option (List α)) (n : ℕ) : Option (List α) :=
  if n = 0 then some [] else base.bind fun b => load b 0 n

/-- `memcpy` to the current position, which moves behind the copied bytes. -/
def ChildLogQueue.put (q : ChildLogQueue) (xs : List UInt8) : Option ChildLogQueue :=
  q.basePtr.bind fun b => (store b q.curPos xs).map fun b' =>
    { q with basePtr := some b', curPos := q.curPos + xs.length }

def ChildLogQueue.putAll (q : ChildLogQueue) : List (List UInt8) → Option ChildLogQueue
  | [] => some q
  | xs :: xss => (q.put xs).bind fun q' => q'.putAll xss

namespace CommLog

def roundToUnit (unit n : ℕ) : Option ℕ := if unit = 0 then none else some ((n / unit + 1) * unit)

def checkChildLogAlloc (c : CommLog) (length : ℕ) : Option (CommLogErrT × CommLog) :=
  match c.childLog.basePtr with
  | none => do
      let requiredLength ← roundToUnit c.childLogSizeUnit length
      some (.ok, { c with childLog := ⟨some (newChars requiredLength), requiredLength, 0⟩ })
  | some b =>
      if c.childLog.size ≤ c.childLog.curPos + length then do
        let requiredLength ← roundToUnit c.childLogSizeUnit (c.childLog.curPos + length)
        let old ← load b 0 c.childLog.curPos
        let new ← store (newChars requiredLength) 0 old
        some (.ok, { c with childLog := ⟨some new, requiredLength, c.childLog.curPos⟩ })
      else some (.ok, c)

def packLength (c : CommLog) : ℕ :=
  sizeLayout.size + CDID.layout.size
    + headerLayout.size + LogTableElement.layout.size * c.logTable.curPos
    + headerLayout.size + c.logQueue.curPos
    + headerLayout.size + c.childLog.curPos

/-- `PackLogs` into the buffer of `dst`, section by section. -/
def packLogs (c dst : CommLog) (length : ℕ) : Option (CommLogErrT × CommLog) := do
  let table ← readCells c.logTable.basePtr c.logTable.curPos
  let queue ← readCells c.logQueue.basePtr c.logQueue.curPos
  let child ← readCells c.childLog.basePtr c.childLog.curPos
  let q ← dst.childLog.putAll
    [sizeLayout.enc length,
      CDID.layout.enc c.myCd.cdId,
      headerLayout.enc (c.logTable.curPos, c.logTable.tableSize),
      LogTableElement.layout.encAll table,
      headerLayout.enc (c.logQueue.curPos, c.logQueue.queueSize),
      queue,
      headerLayout.enc (c.childLog.size, c.childLog.curPos),
      child]
  some (.ok, { dst with childLog := q })

def packAndPushLogs (c parent : CommLog) : Option (CommLogErrT × CommLog) := do
  let length := packLength c
  let (_, parent') ← checkChildLogAlloc parent length
  packLogs c parent' length

/-- The loop of `FindChildLogs` from `index` on, for at most `fuel` records. -/
def scanChildLogs (b : List UInt8) (curPos : ℕ) (id : CDID) : ℕ → ℕ → Option (Option ℕ)
  | 0, _ => none
  | fuel + 1, index =>
      if index < curPos then do
        let length ← load b index sizeLayout.size
        let found ← load b (index + sizeLayout.size) CDID.layout.size
        if (CDID.layout.dec found).same id then some (some index)
        else scanChildLogs b curPos id fuel (index + sizeLayout.dec length)
      else some none

/-- The offset of the record in the buffer, when there is one. A scan that meets a record of
size zero does not end; every other scan ends within `curPos` records. -/
def findChildLogs (c : CommLog) (id : CDID) : Option (CommLogErrT × Option ℕ) := do
  match ← scanChildLogs (c.childLog.basePtr.getD []) c.childLog.curPos id
      (c.childLog.curPos + 1) 0 with
  | none => some (.childLogNotFound, none)
  | some index => some (.ok, some index)

/-- `UnpackLogs` from offset `start` of the block `src`. -/
def unpackLogs (c : CommLog) (src : List UInt8) (start : ℕ) : Option (CommLogErrT × CommLog) := do
  let length := sizeLayout.dec (← load src start sizeLayout.size)
  let index := sizeLayout.size
  let id := CDID.layout.dec (← load src (start + index) CDID.layout.size)
  if id.same c.myCd.cdId = false then
    none
  else
    let index := index + CDID.layout.size
    let (tablePos, tableSize) := headerLayout.dec (← load src (start + index) headerLayout.size)
    let index := index + headerLayout.size
    let cells ← load src (start + index) (LogTableElement.layout.size * tablePos)
    let table ← store (newElements tableSize) 0 (LogTableElement.layout.decAll tablePos cells)
    let index := index + LogTableElement.layout.size * tablePos
    let (queuePos, queueSize) := headerLayout.dec (← load src (start + index) headerLayout.size)
    let index := index + headerLayout.size
    let bytes ← load src (start + index) queuePos
    let queue ← store (newChars queueSize) 0 bytes
    let index := index + queuePos
    let (childSize, childPos) := headerLayout.dec (← load src (start + index) headerLayout.size)
    let index := index + headerLayout.size
    let bytes ← load src (start + index) childPos
    let child ← store (newChars childSize) 0 bytes
    let index := index + childPos
    if index ≠ length then none
    else some (.ok, { c with
      logTable := ⟨some table, tablePos, tableSize⟩
      logQueue := ⟨some queue, queuePos, queueSize⟩
      childLog := ⟨some child, childSize, childPos⟩ })

end CommLog

def ChildLogQueue.buffer (q : ChildLogQueue) : List UInt8 := q.basePtr.getD []

@[simp] theorem ChildLogQueue.buffer_mk (b : List UInt8) (n i : ℕ) :
    (ChildLogQueue.mk (some b) n i).buffer = b := rfl

/-- The buffer is allocated, `used` is its used part, and `room` more bytes fit in. -/
structure ChildLogQueue.Filled (q : ChildLogQueue) (used : List UInt8) (room : ℕ) : Prop where
  alloc : q.basePtr = some q.buffer
  size : q.buffer.length = q.size
  pos : q.curPos = used.length
  content : q.buffer.take used.length = used
  fits : used.length + room ≤ q.size

theorem ChildLogQueue.put_filled {q : ChildLogQueue} {used xs : List UInt8} {room : ℕ}
    (h : q.Filled used room) (hx : xs.length ≤ room) :
    ∃ q', q.put xs = some q' ∧ q'.Filled (used ++ xs) (room - xs.length) := by
  have hfits := h.fits
  have hfit : q.curPos + xs.length ≤ q.buffer.length := by
    rw [h.size, h.pos]
    omega
  refine ⟨⟨some (splice q.buffer q.curPos xs), q.size, q.curPos + xs.length⟩, ?_, ⟨rfl, ?_, ?_, ?_,
    ?_⟩⟩
  · rw [put, h.alloc, Option.bind_some, store_of_le hfit, Option.map_some]
  · change (splice q.buffer q.curPos xs).length = q.size
    rw [splice_length hfit, h.size]
  · rw [List.length_append, h.pos]
  · change (splice q.buffer q.curPos xs).take _ = _
    rw [List.length_append, ← h.pos, take_splice_end hfit, h.pos, h.content]
  · rw [List.length_append]
    dsimp only
    omega

theorem ChildLogQueue.putAll_filled (xss : List (List UInt8)) :
    ∀ (q : ChildLogQueue) (used : List UInt8) (room : ℕ), q.Filled used room →
      xss.flatten.length ≤ room →
      ∃ q', q.putAll xss = some q' ∧ q'.Filled (used ++ xss.flatten) (room - xss.flatten.length) := by
  induction xss with
  | nil =>
      intro q used room h _
      refine ⟨q, rfl, ?_⟩
      rw [List.flatten_nil, List.append_nil]
      exact h
  | cons xs xss ih =>
      intro q used room h hlen
      rw [List.flatten_cons, List.length_append] at hlen
      obtain ⟨q₁, hput, h₁⟩ := put_filled h (by omega : xs.length ≤ room)
      obtain ⟨q₂, hrest, h₂⟩ := ih q₁ (used ++ xs) (room - xs.length) h₁ (by omega)
      refine ⟨q₂, by rw [putAll, hput, Option.bind_some, hrest], ?_⟩
      rw [List.flatten_cons, List.length_append, ← List.append_assoc,
        show room - (xs.length + xss.flatten.length) = room - xs.length - xss.flatten.length by
          omega]
      exact h₂

theorem readCells_eq {α : Type} {base : Option (List α)} {n : ℕ}
    (h : n ≤ (base.getD []).length) : readCells base n = some ((base.getD []).take n) := by
  unfold readCells
  by_cases hn : n = 0
  · rw [if_pos hn, hn, List.take_zero]
  · rw [if_neg hn]
    cases base with
    | none =>
        rw [Option.getD_none, List.length_nil] at h
        omega
    | some b =>
        rw [Option.getD_some] at h ⊢
        rw [Option.bind_some, load_of_le (by omega), slice_zero]

namespace CommLog

/-- The log of a child whose structures hold values of their C types. -/
structure Packable (c : CommLog) : Prop where
  tableRead : c.logTable.curPos ≤ c.logTable.cells.length
  tableRoom : c.logTable.curPos ≤ c.logTable.tableSize
  tableFits : ∀ e ∈ c.logTable.entries, LogTableElement.layout.Fits e
  tableHeader : headerLayout.Fits (c.logTable.curPos, c.logTable.tableSize)
  queueRead : c.logQueue.curPos ≤ c.logQueue.bytes.length
  queueRoom : c.logQueue.curPos ≤ c.logQueue.queueSize
  queueHeader : headerLayout.Fits (c.logQueue.curPos, c.logQueue.queueSize)
  childRead : c.childLog.curPos ≤ c.childLog.buffer.length
  childRoom : c.childLog.curPos ≤ c.childLog.size
  childHeader : headerLayout.Fits (c.childLog.size, c.childLog.curPos)
  length : sizeLayout.Fits (packLength c)

def sections (c : CommLog) : List (List UInt8) :=
  [sizeLayout.enc (packLength c),
    CDID.layout.enc c.myCd.cdId,
    headerLayout.enc (c.logTable.curPos, c.logTable.tableSize),
    LogTableElement.layout.encAll c.logTable.entries,
    headerLayout.enc (c.logQueue.curPos, c.logQueue.queueSize),
    c.logQueue.bytes.take c.logQueue.curPos,
    headerLayout.enc (c.childLog.size, c.childLog.curPos),
    c.childLog.buffer.take c.childLog.curPos]

def packedRecord (c : CommLog) : List UInt8 := (sections c).flatten

theorem entries_length_of_packable {c : CommLog} (h : Packable c) :
    c.logTable.entries.length = c.logTable.curPos := by
  rw [LogTable.entries, List.length_take]
  exact Nat.min_eq_left h.tableRead

/-- The length computed ahead of the packing is the length of what is packed. -/
theorem packedRecord_length {c : CommLog} (h : Packable c) :
    (packedRecord c).length = packLength c := by
  have hq : (c.logQueue.bytes.take c.logQueue.curPos).length = c.logQueue.curPos := by
    rw [List.length_take]
    exact Nat.min_eq_left h.queueRead
  have hc : (c.childLog.buffer.take c.childLog.curPos).length = c.childLog.curPos := by
    rw [List.length_take]
    exact Nat.min_eq_left h.childRead
  simp only [packedRecord, sections, List.flatten_cons, List.flatten_nil, List.length_append,
    List.length_nil, Layout.enc_length, Layout.encAll_length, hq, hc, entries_length_of_packable h,
    packLength]
  omega

theorem packLogs_filled {c : CommLog} (h : Packable c) (dst : CommLog) {used : List UInt8}
    (hd : dst.childLog.Filled used (packLength c)) :
    ∃ q, packLogs c dst (packLength c) = some (.ok, { dst with childLog := q }) ∧
      q.Filled (used ++ packedRecord c) 0 := by
  have hlen := packedRecord_length h
  obtain ⟨q, hq, hfilled⟩ := ChildLogQueue.putAll_filled (sections c) dst.childLog used
    (packLength c) hd (Nat.le_of_eq hlen)
  rw [show (sections c).flatten = packedRecord c from rfl, hlen, Nat.sub_self] at hfilled
  refine ⟨q, ?_, hfilled⟩
  rw [packLogs, readCells_eq h.tableRead, readCells_eq h.queueRead, readCells_eq h.childRead]
  simp only [Option.bind_eq_bind, Option.bind_some]
  change (dst.childLog.putAll (sections c)).bind _ = _
  rw [hq, Option.bind_some]

/-- The parent holds the records of `cs`, in this order. Before the first push its buffer
may not be allocated. -/
def Pushed (p : CommLog) (cs : List CommLog) : Prop :=
  p.childLog.curPos = (cs.flatMap packedRecord).length ∧
    (p.childLog.Filled (cs.flatMap packedRecord) 0 ∨ (cs = [] ∧ p.childLog.basePtr = none))

theorem lt_roundToUnit {unit n : ℕ} (h : 0 < unit) :
    ∃ m, roundToUnit unit n = some m ∧ n < m := by
  refine ⟨(n / unit + 1) * unit, if_neg (by omega), ?_⟩
  have hdiv := Nat.div_add_mod n unit
  have hmod := Nat.mod_lt n h
  rw [Nat.add_mul, Nat.one_mul, Nat.mul_comm]
  omega

theorem checkChildLogAlloc_filled {p : CommLog} {cs : List CommLog} (h : Pushed p cs)
    (hunit : 0 < p.childLogSizeUnit) (length : ℕ) :
    ∃ q, checkChildLogAlloc p length = some (.ok, { p with childLog := q }) ∧
      q.Filled (cs.flatMap packedRecord) length := by
  obtain ⟨hpos, hf | ⟨rfl, hnull⟩⟩ := h
  · have hcur : p.childLog.curPos = (cs.flatMap packedRecord).length := hf.pos
    by_cases hfull : p.childLog.size ≤ p.childLog.curPos + length
    · obtain ⟨m, hm, hlt⟩ := lt_roundToUnit (n := p.childLog.curPos + length) hunit
      have hold : slice p.childLog.buffer 0 p.childLog.curPos = cs.flatMap packedRecord := by
        rw [slice_zero, hcur, hf.content]
      have hload : load p.childLog.buffer 0 p.childLog.curPos =
          some (slice p.childLog.buffer 0 p.childLog.curPos) := by
        have := hf.fits
        exact load_of_le (by rw [hf.size]; omega)
      have hnew : (newChars m).length = m := List.length_replicate
      have hfit : 0 + (cs.flatMap packedRecord).length ≤ (newChars m).length := by
        rw [hnew]
        omega
      refine ⟨⟨some (splice (newChars m) 0 (cs.flatMap packedRecord)), m, p.childLog.curPos⟩, ?_,
        ⟨rfl, ?_, hcur, ?_, ?_⟩⟩
      · rw [checkChildLogAlloc, hf.alloc]
        simp only [if_pos hfull, hm, Option.bind_eq_bind, Option.bind_some, hload, hold,
          store_of_le hfit]
      · change (splice (newChars m) 0 _).length = m
        rw [splice_length hfit, hnew]
      · change (splice (newChars m) 0 _).take _ = _
        rw [splice_zero, List.take_left]
      · dsimp only
        omega
    · refine ⟨p.childLog, ?_, ⟨hf.alloc, hf.size, hf.pos, hf.content, ?_⟩⟩
      · rw [checkChildLogAlloc, hf.alloc]
        simp only [if_neg hfull]
      · omega
  · obtain ⟨m, hm, hlt⟩ := lt_roundToUnit (n := length) hunit
    refine ⟨⟨some (newChars m), m, 0⟩, ?_, ⟨rfl, List.length_replicate, rfl, rfl, ?_⟩⟩
    · simp only [checkChildLogAlloc, hnull, hm, Option.bind_eq_bind, Option.bind_some]
    · simp only [List.flatMap_nil, List.length_nil]
      omega

/-- One push appends the record of the child. -/
theorem packAndPushLogs_spec {c p : CommLog} {cs : List CommLog} (hc : Packable c)
    (h : Pushed p cs) (hunit : 0 < p.childLogSizeUnit) :
    ∃ q, packAndPushLogs c p = some (.ok, { p with childLog := q }) ∧
      Pushed { p with childLog := q } (cs ++ [c]) ∧
      q.curPos = p.childLog.curPos + packLength c := by
  obtain ⟨q₁, hcheck, h₁⟩ := checkChildLogAlloc_filled h hunit (packLength c)
  obtain ⟨q, hpack, hfilled⟩ := packLogs_filled hc { p with childLog := q₁ } h₁
  have hsplit : (cs ++ [c]).flatMap packedRecord = cs.flatMap packedRecord ++ packedRecord c := by
    rw [List.flatMap_append, List.flatMap_singleton]
  refine ⟨q, ?_, ⟨?_, ?_⟩, ?_⟩
  · simp only [packAndPushLogs, hcheck, Option.bind_eq_bind, Option.bind_some, hpack]
  · rw [hsplit]
    exact hfilled.pos
  · rw [hsplit]
    exact Or.inl hfilled
  · rw [hfilled.pos, List.length_append, packedRecord_length hc, h.1]

def pushAll (p : CommLog) : List CommLog → Option CommLog
  | [] => some p
  | c :: cs => (packAndPushLogs c p).bind fun r => pushAll r.2 cs

theorem pushAll_spec (cs' : List CommLog) :
    ∀ (p : CommLog) (cs : List CommLog), Pushed p cs → 0 < p.childLogSizeUnit →
      (∀ c ∈ cs', Packable c) → ∃ p', pushAll p cs' = some p' ∧ Pushed p' (cs ++ cs') ∧
        p'.childLogSizeUnit = p.childLogSizeUnit := by
  induction cs' with
  | nil =>
      intro p cs h _ _
      exact ⟨p, rfl, by rw [List.append_nil]; exact h, rfl⟩
  | cons c cs' ih =>
      intro p cs h hunit hall
      obtain ⟨q, hpush, h₁, _⟩ := packAndPushLogs_spec (hall c List.mem_cons_self) h hunit
      obtain ⟨p', hrest, h', hunit'⟩ := ih { p with childLog := q } (cs ++ [c]) h₁ hunit
        fun x hx => hall x (List.mem_cons_of_mem _ hx)
      refine ⟨p', by rw [pushAll, hpush, Option.bind_some, hrest], ?_, hunit'⟩
      rw [List.append_assoc, List.singleton_append] at h'
      exact h'

theorem load_section {b pre sec post : List UInt8} {n : ℕ}
    (h : b.take n = pre ++ (sec ++ post)) : load b pre.length sec.length = some sec := by
  have hb : b = pre ++ (sec ++ (post ++ b.drop n)) := by
    conv_lhs => rw [← List.take_append_drop n b, h]
    simp only [List.append_assoc]
  have hlen : pre.length + sec.length ≤ b.length := by
    rw [hb]
    simp only [List.length_append]
    omega
  rw [load_of_le hlen]
  conv_lhs => rw [hb]
  rw [slice_append_right, List.take_left]

/-- One section among those of a record. -/
theorem load_section_at {b pre post sec : List UInt8} {n : ℕ} (xss yss : List (List UInt8))
    (h : b.take n = pre ++ ((xss ++ sec :: yss).flatten ++ post)) :
    load b (pre.length + xss.flatten.length) sec.length = some sec := by
  rw [← List.length_append]
  refine load_section (?_ : b.take n = _ ++ (sec ++ (yss.flatten ++ post)))
  rw [h, List.flatten_append, List.flatten_cons]
  simp only [List.append_assoc]

theorem packLength_pos (c : CommLog) : 0 < packLength c := by
  have : 0 < sizeLayout.size := by decide
  unfold packLength
  omega

theorem scan_step {b pre post : List UInt8} {c : CommLog} (hc : Packable c) {n : ℕ}
    (hn : pre.length + (packedRecord c).length ≤ n)
    (h : b.take n = pre ++ (packedRecord c ++ post)) (id : CDID) (fuel : ℕ) :
    scanChildLogs b n id (fuel + 1) pre.length =
      if c.myCd.cdId.same id then some (some pre.length)
      else scanChildLogs b n id fuel (pre ++ packedRecord c).length := by
  have hlt : pre.length < n := by
    have := packLength_pos c
    rw [packedRecord_length hc] at hn
    omega
  have hsize : load b pre.length sizeLayout.size = some (sizeLayout.enc (packLength c)) := by
    have := load_section_at [] _ h
    rwa [Layout.enc_length] at this
  have hid : load b (pre.length + sizeLayout.size) CDID.layout.size =
      some (CDID.layout.enc c.myCd.cdId) := by
    have := load_section_at [_] _ h
    simpa only [List.flatten_cons, List.flatten_nil, List.append_nil, Layout.enc_length] using this
  rw [scanChildLogs, if_pos hlt, hsize, Option.bind_eq_bind, Option.bind_some, hid,
    Option.bind_some, CDID.layout.dec_enc _ (CDID.layout_fits _),
    sizeLayout.dec_enc _ hc.length, List.length_append, packedRecord_length hc]

theorem scan_skip {b : List UInt8} {n : ℕ} {id : CDID} (cs : List CommLog) :
    ∀ (pre post : List UInt8) (fuel : ℕ), (∀ c ∈ cs, Packable c) →
      (∀ c ∈ cs, c.myCd.cdId.same id = false) →
      pre.length + (cs.flatMap packedRecord).length ≤ n →
      b.take n = pre ++ (cs.flatMap packedRecord ++ post) →
      scanChildLogs b n id (fuel + cs.length) pre.length =
        scanChildLogs b n id fuel (pre ++ cs.flatMap packedRecord).length := by
  induction cs with
  | nil =>
      intro pre post fuel _ _ _ _
      rw [List.flatMap_nil, List.append_nil]
      rfl
  | cons c cs ih =>
      intro pre post fuel hpack hne hn h
      rw [List.flatMap_cons, List.length_append] at hn
      rw [List.flatMap_cons, List.append_assoc] at h
      have hstep := scan_step (hpack c List.mem_cons_self) (by omega) h id (fuel + cs.length)
      rw [hne c List.mem_cons_self, if_neg Bool.false_ne_true] at hstep
      have hrest := ih (pre ++ packedRecord c) post fuel
        (fun x hx => hpack x (List.mem_cons_of_mem _ hx))
        (fun x hx => hne x (List.mem_cons_of_mem _ hx))
        (by rw [List.length_append]; omega) (by rw [h, List.append_assoc])
      rw [List.length_cons, ← Nat.add_assoc, hstep, hrest, List.flatMap_cons, List.append_assoc]

theorem pushed_take {p : CommLog} {cs : List CommLog} (h : Pushed p cs) :
    p.childLog.buffer.take p.childLog.curPos = cs.flatMap packedRecord := by
  obtain ⟨hpos, hf | ⟨rfl, hnull⟩⟩ := h
  · rw [hpos, hf.content]
  · rw [ChildLogQueue.buffer, hnull, Option.getD_none, List.take_nil, List.flatMap_nil]

theorem length_le_records {cs : List CommLog} (h : ∀ c ∈ cs, Packable c) :
    cs.length ≤ (cs.flatMap packedRecord).length := by
  induction cs with
  | nil => exact Nat.le_refl _
  | cons c cs ih =>
      have hc := packLength_pos c
      have hrest := ih fun x hx => h x (List.mem_cons_of_mem _ hx)
      rw [List.flatMap_cons, List.length_append, packedRecord_length (h c List.mem_cons_self),
        List.length_cons]
      omega

theorem findChildLogs_found {p : CommLog} {pre post : List CommLog} {c : CommLog} {id : CDID}
    (h : Pushed p (pre ++ c :: post)) (hpack : ∀ x ∈ pre ++ c :: post, Packable x)
    (hpre : ∀ x ∈ pre, x.myCd.cdId.same id = false) (hid : c.myCd.cdId.same id = true) :
    findChildLogs p id = some (.ok, some (pre.flatMap packedRecord).length) := by
  have htake := pushed_take h
  have hle := length_le_records hpack
  rw [← h.1] at hle
  have hcur := h.1
  rw [List.flatMap_append, List.flatMap_cons] at htake
  rw [List.flatMap_append, List.flatMap_cons, List.length_append, List.length_append] at hcur
  rw [List.length_append, List.length_cons] at hle
  -- the budget of the scan: one step for each record before this one, and one more
  have hfuel : p.childLog.curPos + 1 = p.childLog.curPos - pre.length + 1 + pre.length := by omega
  have hskip := scan_skip (n := p.childLog.curPos) pre [] (packedRecord c ++ post.flatMap packedRecord)
    (p.childLog.curPos - pre.length + 1) (fun x hx => hpack x (List.mem_append_left _ hx)) hpre
    (by rw [List.length_nil]; omega) htake
  have hstep := scan_step (hpack c (by simp)) (by omega) htake id (p.childLog.curPos - pre.length)
  rw [hid, if_pos rfl] at hstep
  rw [List.length_nil, List.nil_append, ← hfuel, hstep] at hskip
  rw [findChildLogs, ← ChildLogQueue.buffer, hskip]
  rfl

theorem scan_end (b : List UInt8) (n : ℕ) (id : CDID) (fuel : ℕ) :
    scanChildLogs b n id (fuel + 1) n = some none := by
  rw [scanChildLogs, if_neg (Nat.lt_irrefl _)]

theorem findChildLogs_absent {p : CommLog} {cs : List CommLog} {id : CDID} (h : Pushed p cs)
    (hpack : ∀ x ∈ cs, Packable x) (hne : ∀ x ∈ cs, x.myCd.cdId.same id = false) :
    findChildLogs p id = some (.childLogNotFound, none) := by
  have htake := pushed_take h
  have hle := length_le_records hpack
  have hcur := h.1
  have hfuel : p.childLog.curPos + 1 = p.childLog.curPos - cs.length + 1 + cs.length := by omega
  have hskip := scan_skip (n := p.childLog.curPos) cs [] [] (p.childLog.curPos - cs.length + 1)
    hpack hne (by rw [List.length_nil]; omega) (by rw [htake, List.nil_append, List.append_nil])
  rw [List.length_nil, List.nil_append, ← hfuel, ← hcur, scan_end] at hskip
  rw [findChildLogs, ← ChildLogQueue.buffer, hskip]
  rfl

/-- `d` holds the log of `c`: the entries, queue bytes and packed children in use. -/
structure SameLog (c d : CommLog) : Prop where
  tablePos : d.logTable.curPos = c.logTable.curPos
  entries : d.logTable.entries = c.logTable.entries
  queuePos : d.logQueue.curPos = c.logQueue.curPos
  queue : d.logQueue.bytes.take d.logQueue.curPos = c.logQueue.bytes.take c.logQueue.curPos
  childPos : d.childLog.curPos = c.childLog.curPos
  child : d.childLog.buffer.take d.childLog.curPos = c.childLog.buffer.take c.childLog.curPos
  records : ∀ gs, Pushed c gs → Pushed d gs

theorem load_sections {b pre post : List UInt8} {c : CommLog} {n : ℕ} (hc : Packable c)
    (h : b.take n = pre ++ (packedRecord c ++ post)) :
    let i₁ := sizeLayout.size
    let i₂ := i₁ + CDID.layout.size
    let i₃ := i₂ + headerLayout.size
    let i₄ := i₃ + LogTableElement.layout.size * c.logTable.curPos
    let i₅ := i₄ + headerLayout.size
    let i₆ := i₅ + c.logQueue.curPos
    let i₇ := i₆ + headerLayout.size
    load b pre.length sizeLayout.size = some (sizeLayout.enc (packLength c)) ∧
    load b (pre.length + i₁) CDID.layout.size = some (CDID.layout.enc c.myCd.cdId) ∧
    load b (pre.length + i₂) headerLayout.size =
      some (headerLayout.enc (c.logTable.curPos, c.logTable.tableSize)) ∧
    load b (pre.length + i₃) (LogTableElement.layout.size * c.logTable.curPos) =
      some (LogTableElement.layout.encAll c.logTable.entries) ∧
    load b (pre.length + i₄) headerLayout.size =
      some (headerLayout.enc (c.logQueue.curPos, c.logQueue.queueSize)) ∧
    load b (pre.length + i₅) c.logQueue.curPos =
      some (c.logQueue.bytes.take c.logQueue.curPos) ∧
    load b (pre.length + i₆) headerLayout.size =
      some (headerLayout.enc (c.childLog.size, c.childLog.curPos)) ∧
    load b (pre.length + i₇) c.childLog.curPos =
      some (c.childLog.buffer.take c.childLog.curPos) := by
  intro i₁ i₂ i₃ i₄ i₅ i₆ i₇
  have hq : (c.logQueue.bytes.take c.logQueue.curPos).length = c.logQueue.curPos := by
    rw [List.length_take]
    exact Nat.min_eq_left hc.queueRead
  have hch : (c.childLog.buffer.take c.childLog.curPos).length = c.childLog.curPos := by
    rw [List.length_take]
    exact Nat.min_eq_left hc.childRead
  have h₀ := load_section_at [] _ h
  have h₁ := load_section_at [_] _ h
  have h₂ := load_section_at [_, _] _ h
  have h₃ := load_section_at [_, _, _] _ h
  have h₄ := load_section_at [_, _, _, _] _ h
  have h₅ := load_section_at [_, _, _, _, _] _ h
  have h₆ := load_section_at [_, _, _, _, _, _] _ h
  have h₇ := load_section_at [_, _, _, _, _, _, _] _ h
  simp only [List.flatten_cons, List.flatten_nil, List.append_nil, List.length_append,
    List.length_nil, Nat.add_zero, Layout.enc_length, Layout.encAll_length,
    entries_length_of_packable hc, hq, hch, ← Nat.add_assoc] at h₀ h₁ h₂ h₃ h₄ h₅ h₆ h₇
  simp only [i₁, i₂, i₃, i₄, i₅, i₆, i₇, ← Nat.add_assoc]
  exact ⟨h₀, h₁, h₂, h₃, h₄, h₅, h₆, h₇⟩

theorem store_new {α : Type} {new xs : List α} (h : xs.length ≤ new.length) :
    store new 0 xs = some (xs ++ new.drop xs.length) := by
  rw [store_of_le (by omega), splice_zero]

theorem unpackLogs_spec {b pre post : List UInt8} {c d : CommLog} {n : ℕ} (hc : Packable c)
    (h : b.take n = pre ++ (packedRecord c ++ post))
    (hid : c.myCd.cdId.same d.myCd.cdId = true) :
    ∃ d', unpackLogs d b pre.length = some (.ok, d') ∧ SameLog c d' := by
  obtain ⟨h₀, h₁, h₂, h₃, h₄, h₅, h₆, h₇⟩ := load_sections hc h
  have helen := entries_length_of_packable hc
  have hqlen : (c.logQueue.bytes.take c.logQueue.curPos).length = c.logQueue.curPos := by
    rw [List.length_take]
    exact Nat.min_eq_left hc.queueRead
  have hclen : (c.childLog.buffer.take c.childLog.curPos).length = c.childLog.curPos := by
    rw [List.length_take]
    exact Nat.min_eq_left hc.childRead
  have hdec : LogTableElement.layout.decAll c.logTable.curPos
      (LogTableElement.layout.encAll c.logTable.entries) = c.logTable.entries := by
    have := LogTableElement.layout.decAll_encAll c.logTable.entries hc.tableFits
    rwa [helen] at this
  have htable : store (newElements c.logTable.tableSize) 0 c.logTable.entries =
      some (c.logTable.entries ++ (newElements c.logTable.tableSize).drop c.logTable.curPos) := by
    rw [store_new (by rw [helen, newElements, List.length_replicate]; exact hc.tableRoom), helen]
  have hqueue : store (newChars c.logQueue.queueSize) 0 (c.logQueue.bytes.take c.logQueue.curPos) =
      some (c.logQueue.bytes.take c.logQueue.curPos ++
        (newChars c.logQueue.queueSize).drop c.logQueue.curPos) := by
    rw [store_new (by rw [hqlen, newChars, List.length_replicate]; exact hc.queueRoom), hqlen]
  have hchild : store (newChars c.childLog.size) 0 (c.childLog.buffer.take c.childLog.curPos) =
      some (c.childLog.buffer.take c.childLog.curPos ++
        (newChars c.childLog.size).drop c.childLog.curPos) := by
    rw [store_new (by rw [hclen, newChars, List.length_replicate]; exact hc.childRoom), hclen]
  refine ⟨{ d with
    logTable := ⟨some (c.logTable.entries ++ (newElements c.logTable.tableSize).drop
      c.logTable.curPos), c.logTable.curPos, c.logTable.tableSize⟩
    logQueue := ⟨some (c.logQueue.bytes.take c.logQueue.curPos ++
      (newChars c.logQueue.queueSize).drop c.logQueue.curPos), c.logQueue.curPos,
      c.logQueue.queueSize⟩
    childLog := ⟨some (c.childLog.buffer.take c.childLog.curPos ++
      (newChars c.childLog.size).drop c.childLog.curPos), c.childLog.size, c.childLog.curPos⟩ },
    ?_, ?_⟩
  · have hid' : ¬ c.myCd.cdId.same d.myCd.cdId = false := by rw [hid]; exact Bool.noConfusion
    rw [unpackLogs]
    simp only [h₀, Option.bind_eq_bind, Option.bind_some, h₁,
      CDID.layout.dec_enc _ (CDID.layout_fits _), if_neg hid', h₂,
      headerLayout.dec_enc _ hc.tableHeader, h₃, hdec, htable, h₄,
      headerLayout.dec_enc _ hc.queueHeader, h₅, hqueue, h₆,
      headerLayout.dec_enc _ hc.childHeader, h₇, hchild, sizeLayout.dec_enc _ hc.length]
    rw [if_neg fun hne => hne rfl]
  · refine ⟨rfl, ?_, rfl, ?_, rfl, ?_, ?_⟩
    · simp only [LogTable.entries, LogTable.cells_mk]
      rw [← LogTable.entries, List.take_left' helen]
    · simp only [LogQueue.bytes_mk]
      rw [List.take_left' hqlen]
    · simp only [ChildLogQueue.buffer_mk]
      rw [List.take_left' hclen]
    · intro gs hgs
      have htake := pushed_take hgs
      have hroom := hc.childRoom
      have hpos := hgs.1
      refine ⟨hgs.1, Or.inl ⟨rfl, ?_, hgs.1, ?_, ?_⟩⟩
      · rw [ChildLogQueue.buffer_mk, List.length_append, hclen, List.length_drop, newChars,
          List.length_replicate]
        dsimp only
        omega
      · rw [ChildLogQueue.buffer_mk, ← hgs.1, List.take_left' hclen, htake]
      · dsimp only
        omega

/-- The children push their logs under distinct identifiers into a parent that holds no
record. Every push stays inside the buffer of the parent and moves its position by the size
written in front of the record; afterwards each child is found at its record and gets its
log back, and no other identifier is found. -/
theorem pack_round_trip {parent : CommLog} {children : List CommLog}
    (hunit : 0 < parent.childLogSizeUnit) (hempty : Pushed parent [])
    (hpack : ∀ c ∈ children, Packable c)
    (hdist : children.Pairwise fun a b => a.myCd.cdId.same b.myCd.cdId = false) :
    ∃ p, pushAll parent children = some p ∧
      (∀ pre c post, children = pre ++ c :: post → ∃ p₁ p₂,
        pushAll parent pre = some p₁ ∧ packAndPushLogs c p₁ = some (.ok, p₂) ∧
        p₂.childLog.curPos = p₁.childLog.curPos + packLength c ∧
        load p.childLog.buffer p₁.childLog.curPos sizeLayout.size =
          some (sizeLayout.enc (packLength c)) ∧
        findChildLogs p c.myCd.cdId = some (.ok, some p₁.childLog.curPos) ∧
        ∀ d : CommLog, d.myCd.cdId = c.myCd.cdId →
          ∃ d', unpackLogs d p.childLog.buffer p₁.childLog.curPos = some (.ok, d') ∧
            SameLog c d') ∧
      ∀ id, (∀ c ∈ children, c.myCd.cdId.same id = false) →
        findChildLogs p id = some (.childLogNotFound, none) := by
  obtain ⟨p, hp, hpushed, _⟩ := pushAll_spec children parent [] hempty hunit hpack
  rw [List.nil_append] at hpushed
  refine ⟨p, hp, ?_, fun id hid => findChildLogs_absent hpushed hpack hid⟩
  intro pre c post hsplit
  subst hsplit
  have hcmem : c ∈ pre ++ c :: post := by simp
  have hc := hpack c hcmem
  obtain ⟨p₁, hp₁, hpushed₁, hunit₁⟩ := pushAll_spec pre parent [] hempty hunit fun x hx =>
    hpack x (List.mem_append_left _ hx)
  rw [List.nil_append] at hpushed₁
  obtain ⟨q, hpush, _, hcur⟩ := packAndPushLogs_spec hc hpushed₁ (hunit₁ ▸ hunit)
  have htake := pushed_take hpushed
  rw [List.flatMap_append, List.flatMap_cons] at htake
  refine ⟨p₁, { p₁ with childLog := q }, hp₁, hpush, hcur, ?_, ?_, ?_⟩
  · rw [hpushed₁.1]
    exact (load_sections hc htake).1
  · rw [hpushed₁.1]
    refine findChildLogs_found hpushed hpack (fun x hx => ?_) (CDID.same_refl _)
    exact (List.pairwise_append.mp hdist).2.2 x hx c List.mem_cons_self
  · intro d hd
    rw [hpushed₁.1]
    exact unpackLogs_spec hc htake (by rw [hd]; exact CDID.same_refl _)

def smallChild (seq : UInt32) : CommLog :=
  { create ⟨{ (default : CDID) with sequentialId := seq }, []⟩ .generateLog 2 1 1 with
    logTable := ⟨some [⟨0, 2, true, 0, 1, 0, false, 0⟩], 1, 1⟩
    logQueue := ⟨some [7, 8], 2, 2⟩ }

theorem smallChild_packable (seq : UInt32) : Packable (smallChild seq) := by
  have h8 : ∀ n, n < 256 → (Layout.nat 8).Fits n := fun n hn => Layout.nat_fits_of_lt (by decide) hn
  refine ⟨Nat.le_refl 1, Nat.le_refl 1, ?_, ⟨h8 1 (by decide), h8 1 (by decide)⟩, Nat.le_refl 2,
    Nat.le_refl 2, ⟨h8 2 (by decide), h8 2 (by decide)⟩, Nat.le_refl 0, Nat.le_refl 0,
    ⟨h8 0 (by decide), h8 0 (by decide)⟩, h8 210 (by decide)⟩
  intro e he
  have he' : e = ⟨0, 2, true, 0, 1, 0, false, 0⟩ := List.mem_singleton.mp he
  subst he'
  exact ⟨h8 0 (by decide), h8 2 (by decide), Layout.bool_fits _, h8 0 (by decide),
    h8 1 (by decide), h8 0 (by decide), Layout.bool_fits _,
    Layout.nat_fits_of_lt (by decide) (by decide : 0 < 256)⟩

theorem pack_two_children :
    ∃ p i d, pushAll (create default .generateLog 1 1 1) [smallChild 1, smallChild 2] = some p ∧
      findChildLogs p (smallChild 2).myCd.cdId = some (.ok, some i) ∧
      unpackLogs (create (smallChild 2).myCd .replayLog 1 1 1) p.childLog.buffer i = some (.ok, d) ∧
      SameLog (smallChild 2) d := by
  have hempty : Pushed (create default .generateLog 1 1 1) [] := ⟨rfl, Or.inr ⟨rfl, rfl⟩⟩
  have hpack : ∀ c ∈ [smallChild 1, smallChild 2], Packable c := by
    intro c hc
    rcases List.mem_pair.mp hc with rfl | rfl
    · exact smallChild_packable 1
    · exact smallChild_packable 2
  obtain ⟨p, hp, hall, _⟩ := pack_round_trip Nat.one_pos hempty hpack (by decide)
  obtain ⟨p₁, _, _, _, _, _, hfind, hunpack⟩ := hall [smallChild 1] (smallChild 2) [] rfl
  obtain ⟨d, hd, hsame⟩ := hunpack (create (smallChild 2).myCd .replayLog 1 1 1) rfl
  exact ⟨p, p₁.childLog.curPos, d, hp, hfind, hd, hsame⟩

end CommLog

end CDRuntime
