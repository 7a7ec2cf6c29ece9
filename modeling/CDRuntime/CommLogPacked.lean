import CDRuntime.CommLogPack

namespace CDRuntime
open Splice

/-- `offsetof(LogTableElement, completed_)` -/
def LogTableElement.completedOffset : ℕ := 16

namespace CommLog

/-- The inner loop: `n` packed table cells from `pos` on. -/
def findPackedFlag (b : List UInt8) (flag length : ℕ) : ℕ → ℕ → Option (Option ℕ)
  | _, 0 => some none
  | pos, n + 1 => do
      let e := LogTableElement.layout.dec (← load b pos LogTableElement.layout.size)
      if e.flag = flag then
        if e.length ≠ length then none else some (some pos)
      else findPackedFlag b flag length (pos + LogTableElement.layout.size) n

/-- The loop over the records from `index` on, for at most `fuel` of them. The result is the
buffer with the entry completed, if there is one. -/
def scanPacked (b : List UInt8) (curPos : ℕ) (data : List UInt8) (flag : ℕ) :
    ℕ → ℕ → Option (Option (List UInt8))
  | 0, _ => none
  | fuel + 1, index =>
      if index < curPos then do
        let length := sizeLayout.dec (← load b index sizeLayout.size)
        let inner := index + sizeLayout.size + CDID.layout.size
        let tablePos := (headerLayout.dec (← load b inner headerLayout.size)).1
        let inner := inner + headerLayout.size
        match ← findPackedFlag b flag data.length inner tablePos with
        | some pos =>
            let e := LogTableElement.layout.dec (← load b pos LogTableElement.layout.size)
            let dest := inner + LogTableElement.layout.size * tablePos + headerLayout.size + e.pos
            let b ← store b dest data
            let b ← store b (pos + LogTableElement.completedOffset) [1]
            some (some b)
        | none => scanPacked b curPos data flag fuel (index + length)
      else some none

/-- `ProbeAndLogDataPacked`: `data` are the `length` bytes at `addr`. The packed logs that a record
holds in turn are not looked at. -/
def probeAndLogDataPacked (c : CommLog) (data : List UInt8) (flag : ℕ) :
    Option (Bool × CommLog) := do
  match ← scanPacked c.childLog.buffer c.childLog.curPos data flag (c.childLog.curPos + 1) 0 with
  | none => some (false, c)
  | some b => some (true, { c with childLog := { c.childLog with basePtr := some b } })

/-- The log with entry `e` at index `i` completed. -/
def completedLog (c : CommLog) (i : ℕ) (e : LogTableElement) (data : List UInt8) : CommLog :=
  { c with
    logTable := { c.logTable with
      basePtr := some (c.logTable.cells.set i { e with completed := true }) }
    logQueue := { c.logQueue with basePtr := some (splice c.logQueue.bytes e.pos data) } }

section Completed

variable {c : CommLog} {flag i : ℕ} {e : LogTableElement} {data : List UInt8}

theorem probeAndLogData_eq_completedLog (h : c.Valid) (hfirst : FirstWithFlag c.logTable flag i e)
    (hlen : e.length = data.length) :
    probeAndLogData c data flag = some (true, completedLog c i e data) := by
  have hi : i < c.logTable.curPos := by
    rw [← LogTable.entries_length h.table]
    exact (List.getElem?_eq_some_iff.mp hfirst.1).1
  have hin := h.within e (List.mem_of_getElem? hfirst.1)
  have hfit : e.pos + data.length ≤ c.logQueue.bytes.length := by
    have := h.queue.inUse
    rw [h.queue.size]
    omega
  have hq : (if data.length ≠ 0 then c.logQueue.write e.pos data else some c.logQueue) =
      some { c.logQueue with basePtr := some (splice c.logQueue.bytes e.pos data) } := by
    by_cases hd : data.length = 0
    · rw [if_neg (not_not_intro hd), List.length_eq_zero_iff.mp hd, splice_nil, ← h.queue.alloc]
    · rw [if_pos hd, LogQueue.write, h.queue.alloc, Option.bind_some, store_of_le hfit,
        Option.map_some]
  simp only [probeAndLogData, findFlag_eq_of_first h.table hfirst, Option.bind_eq_bind,
    Option.bind_some, LogTable.read_eq h.table hi, hfirst.1, if_neg (not_not_intro hlen),
    LogTable.write_eq h.table (Nat.lt_of_lt_of_le hi h.table.inUse), hq]
  rfl

theorem probeAndLogData_cases {c' : CommLog} {found : Bool} (h : c.Valid)
    (hprobe : probeAndLogData c data flag = some (found, c')) :
    (found = false ∧ c' = c ∧ ∀ e ∈ c.logTable.entries, e.flag ≠ flag) ∨
    (found = true ∧ ∃ i e, FirstWithFlag c.logTable flag i e ∧ e.length = data.length ∧
      c' = completedLog c i e data) := by
  rcases findFlag_cases h.table flag with ⟨i, e, -, hfirst⟩ | ⟨-, hfree⟩
  · by_cases hlen : e.length = data.length
    · rw [probeAndLogData_eq_completedLog h hfirst hlen, Option.some.injEq,
        Prod.mk.injEq] at hprobe
      exact Or.inr ⟨hprobe.1.symm, i, e, hfirst, hlen, hprobe.2.symm⟩
    · rw [probeAndLogData_mismatch h hfirst hlen] at hprobe
      cases hprobe
  · rw [probeAndLogData_absent h data hfree, Option.some.injEq, Prod.mk.injEq] at hprobe
    exact Or.inl ⟨hprobe.1.symm, hprobe.2.symm, hfree⟩

theorem completedLog_completes (h : c.Valid) (hfirst : FirstWithFlag c.logTable flag i e)
    (hlen : e.length = data.length) : Completes c (completedLog c i e data) i e data := by
  obtain ⟨c', hc', hcomp⟩ := probeAndLogData_completes h data hfirst hlen
  rw [probeAndLogData_eq_completedLog h hfirst hlen, Option.some.injEq, Prod.mk.injEq] at hc'
  rwa [hc'.2]

theorem completedLog_entries (c : CommLog) (i : ℕ) (e : LogTableElement) (data : List UInt8) :
    (completedLog c i e data).logTable.entries =
      c.logTable.entries.set i { e with completed := true } := by
  simp only [completedLog, LogTable.entries, LogTable.cells_mk, List.take_set]

theorem completedLog_packable (hp : Packable c) (hv : (completedLog c i e data).Valid)
    (he : e ∈ c.logTable.entries) : Packable (completedLog c i e data) where
  tableRead := by
    rw [hv.table.size]
    exact hp.tableRoom
  tableRoom := hp.tableRoom
  tableFits := by
    intro x hx
    rw [completedLog_entries] at hx
    rcases List.mem_or_eq_of_mem_set hx with hx | rfl
    · exact hp.tableFits x hx
    · obtain ⟨h₁, h₂, -, h₄, h₅, h₆, h₇, h₈⟩ := hp.tableFits e he
      exact ⟨h₁, h₂, Layout.bool_fits _, h₄, h₅, h₆, h₇, h₈⟩
  tableHeader := hp.tableHeader
  queueRead := by
    rw [hv.queue.size]
    exact hp.queueRoom
  queueRoom := hp.queueRoom
  queueHeader := hp.queueHeader
  childRead := hp.childRead
  childRoom := hp.childRoom
  childHeader := hp.childHeader
  length := hp.length

end Completed

theorem splice_enc_completed (e : LogTableElement) :
    splice (LogTableElement.layout.enc e) LogTableElement.completedOffset [1] =
      LogTableElement.layout.enc { e with completed := true } := by
  have hpos := (Layout.nat 8).enc_length e.pos
  have hlen := (Layout.nat 8).enc_length e.length
  have hb := Layout.bool.enc_length e.completed
  -- the two words in front of the flag, the flag, and the rest
  have hsplit : ∀ x : LogTableElement, ∃ tail, ∀ b,
      LogTableElement.layout.enc { x with completed := b } =
      ((Layout.nat 8).enc x.pos ++ (Layout.nat 8).enc x.length) ++ (Layout.bool.enc b ++ tail) := by
    intro x
    refine ⟨List.replicate 7 0 ++ ((Layout.nat 8).seq ((Layout.nat 8).seq ((Layout.nat 8).seq
      ((Layout.bool.padded 3).seq (Layout.nat 4))))).enc
        (x.flag, x.counter, x.reexecCounter, x.isrepeated, x.taskID), fun b => ?_⟩
    simp only [LogTableElement.layout, Layout.iso, Layout.seq, Layout.padded, List.append_assoc]
  obtain ⟨tail, htail⟩ := hsplit e
  have he := htail e.completed
  have hoff : LogTableElement.completedOffset =
      ((Layout.nat 8).enc e.pos ++ (Layout.nat 8).enc e.length).length + 0 := by
    rw [List.length_append, hpos, hlen]
    rfl
  rw [he, htail true, hoff, splice_append_mid (by rw [hb]; decide)]
  cases e.completed <;> rfl

theorem splice_encAll_completed {es : List LogTableElement} {i : ℕ} {e : LogTableElement}
    (h : es[i]? = some e) :
    splice (LogTableElement.layout.encAll es)
        (LogTableElement.layout.size * i + LogTableElement.completedOffset) [1] =
      LogTableElement.layout.encAll (es.set i { e with completed := true }) := by
  obtain ⟨hi, rfl⟩ := List.getElem?_eq_some_iff.mp h
  have hsplit : es = es.take i ++ es[i] :: es.drop (i + 1) := by
    rw [← List.drop_eq_getElem_cons hi, List.take_append_drop]
  have hlen : (LogTableElement.layout.encAll (es.take i)).length =
      LogTableElement.layout.size * i := by
    rw [Layout.encAll_length, List.length_take, Nat.min_eq_left (Nat.le_of_lt hi)]
  have hfit : LogTableElement.completedOffset + [(1 : UInt8)].length ≤
      (LogTableElement.layout.enc es[i]).length := by
    rw [Layout.enc_length]
    decide
  have henc : LogTableElement.layout.encAll es = LogTableElement.layout.encAll (es.take i) ++
      (LogTableElement.layout.enc es[i] ++ LogTableElement.layout.encAll (es.drop (i + 1))) := by
    rw [← Layout.encAll_split, ← hsplit]
  rw [henc, ← hlen, splice_append_mid hfit, splice_enc_completed,
    List.set_eq_take_append_cons_drop, if_pos hi, Layout.encAll_split]

def FlagFree (flag : ℕ) (c : CommLog) : Prop := ∀ e ∈ c.logTable.entries, e.flag ≠ flag

theorem findPackedFlag_skip {b : List UInt8} {n flag length : ℕ} (as : List LogTableElement) :
    ∀ (pre post : List UInt8) (k : ℕ), (∀ e ∈ as, LogTableElement.layout.Fits e) →
      (∀ e ∈ as, e.flag ≠ flag) →
      b.take n = pre ++ (LogTableElement.layout.encAll as ++ post) →
      findPackedFlag b flag length pre.length (as.length + k) =
        findPackedFlag b flag length (pre ++ LogTableElement.layout.encAll as).length k := by
  induction as with
  | nil =>
      intro pre post k _ _ _
      rw [Layout.encAll, List.flatMap_nil, List.append_nil, List.length_nil, Nat.zero_add]
  | cons e as ih =>
      intro pre post k hfits hne h
      rw [Layout.encAll, List.flatMap_cons, ← Layout.encAll, List.append_assoc] at h
      have hload := load_section h
      rw [Layout.enc_length] at hload
      have hrest := ih (pre ++ LogTableElement.layout.enc e) post k
        (fun x hx => hfits x (List.mem_cons_of_mem _ hx))
        (fun x hx => hne x (List.mem_cons_of_mem _ hx)) (by rw [h, List.append_assoc])
      rw [List.length_append, Layout.enc_length] at hrest
      rw [List.length_cons, Nat.add_right_comm, findPackedFlag, hload, Option.bind_eq_bind,
        Option.bind_some, LogTableElement.layout.dec_enc _ (hfits e List.mem_cons_self),
        if_neg (hne e List.mem_cons_self), hrest, List.append_assoc]
      rfl

section Record

variable {b pre post : List UInt8} {n flag : ℕ} {c : CommLog} {data : List UInt8}

def tableAt (index : ℕ) : ℕ := index + sizeLayout.size + CDID.layout.size + headerLayout.size

def queueAt (c : CommLog) (index : ℕ) : ℕ :=
  tableAt index + LogTableElement.layout.size * c.logTable.curPos + headerLayout.size

def recordFront (c : CommLog) : List UInt8 :=
  sizeLayout.enc (packLength c) ++ (CDID.layout.enc c.myCd.cdId ++
    headerLayout.enc (c.logTable.curPos, c.logTable.tableSize))

def recordBack (c : CommLog) : List UInt8 :=
  headerLayout.enc (c.childLog.size, c.childLog.curPos) ++
    c.childLog.buffer.take c.childLog.curPos

def queueHeader (c : CommLog) : List UInt8 :=
  headerLayout.enc (c.logQueue.curPos, c.logQueue.queueSize)

theorem packedRecord_split (c : CommLog) (pre post : List UInt8) :
    pre ++ (packedRecord c ++ post) = (pre ++ recordFront c) ++
      (LogTableElement.layout.encAll c.logTable.entries ++
        (queueHeader c ++ (c.logQueue.bytes.take c.logQueue.curPos ++ (recordBack c ++ post)))) := by
  simp only [packedRecord, sections, recordFront, recordBack, queueHeader, List.flatten_cons,
    List.flatten_nil, List.append_nil, List.append_assoc]

theorem recordFront_end (c : CommLog) (pre : List UInt8) :
    (pre ++ recordFront c).length = tableAt pre.length := by
  simp only [recordFront, List.length_append, Layout.enc_length, tableAt, Nat.add_assoc]

theorem load_front (hp : Packable c) (h : b.take n = pre ++ (packedRecord c ++ post)) :
    load b pre.length sizeLayout.size = some (sizeLayout.enc (packLength c)) ∧
    load b (pre.length + sizeLayout.size + CDID.layout.size) headerLayout.size =
      some (headerLayout.enc (c.logTable.curPos, c.logTable.tableSize)) := by
  obtain ⟨h₀, -, h₂, -⟩ := load_sections hp h
  rw [← Nat.add_assoc] at h₂
  exact ⟨h₀, h₂⟩

theorem findPackedFlag_absent (hp : Packable c) (hfree : FlagFree flag c)
    (h : b.take n = pre ++ (packedRecord c ++ post)) (length : ℕ) :
    findPackedFlag b flag length (tableAt pre.length) c.logTable.curPos = some none := by
  rw [packedRecord_split] at h
  have hskip := @findPackedFlag_skip _ _ _ length c.logTable.entries (pre ++ recordFront c) _ 0
    hp.tableFits hfree h
  rw [Nat.add_zero, entries_length_of_packable hp, recordFront_end] at hskip
  rw [hskip, findPackedFlag]

/-- The table around the first entry with the flag. -/
theorem FirstWithFlag.split {i : ℕ} {e : LogTableElement}
    (h : FirstWithFlag c.logTable flag i e) :
    ∃ as bs, c.logTable.entries = as ++ e :: bs ∧ as.length = i ∧ ∀ x ∈ as, x.flag ≠ flag := by
  obtain ⟨he, -, hmin⟩ := h
  obtain ⟨hi, rfl⟩ := List.getElem?_eq_some_iff.mp he
  refine ⟨c.logTable.entries.take i, c.logTable.entries.drop (i + 1), ?_, ?_, ?_⟩
  · rw [← List.drop_eq_getElem_cons hi, List.take_append_drop]
  · rw [List.length_take]
    exact Nat.min_eq_left (Nat.le_of_lt hi)
  · intro x hx
    obtain ⟨j, hj, rfl⟩ := List.mem_take_iff_getElem.mp hx
    have hji : j < i := by omega
    exact hmin j hji _ (List.getElem?_eq_getElem _)

theorem findPackedFlag_first (hp : Packable c) {i : ℕ} {e : LogTableElement}
    (hfirst : FirstWithFlag c.logTable flag i e)
    (h : b.take n = pre ++ (packedRecord c ++ post)) (length : ℕ) :
    load b (tableAt pre.length + LogTableElement.layout.size * i) LogTableElement.layout.size =
      some (LogTableElement.layout.enc e) ∧
    findPackedFlag b flag length (tableAt pre.length) c.logTable.curPos =
      if e.length ≠ length then none
      else some (some (tableAt pre.length + LogTableElement.layout.size * i)) := by
  obtain ⟨as, bs, hsplit, rfl, hne⟩ := hfirst.split
  have hfits := hp.tableFits
  have hcount := entries_length_of_packable hp
  rw [hsplit] at hfits hcount
  rw [packedRecord_split, hsplit, Layout.encAll_split, List.append_assoc (Layout.encAll _ _),
    List.append_assoc (Layout.enc _ _)] at h
  have hskip := @findPackedFlag_skip _ _ _ length as (pre ++ recordFront c) _ (bs.length + 1)
    (fun x hx => hfits x (List.mem_append_left _ hx)) hne h
  have hload := @load_section b (pre ++ recordFront c ++ LogTableElement.layout.encAll as) _ _ n
    (by rw [h, List.append_assoc (pre ++ recordFront c)])
  rw [Layout.enc_length, List.length_append, recordFront_end, Layout.encAll_length] at hload
  rw [recordFront_end, List.length_append, recordFront_end, Layout.encAll_length,
    show as.length + (bs.length + 1) = c.logTable.curPos by
      rw [← hcount, List.length_append, List.length_cons]] at hskip
  refine ⟨hload, ?_⟩
  rw [hskip, findPackedFlag, hload, Option.bind_eq_bind, Option.bind_some,
    LogTableElement.layout.dec_enc _ (hfits e (by simp)), if_pos hfirst.2.1]

theorem splice_packedRecord (hp : Packable c) (hv : c.Valid) {i : ℕ} {e : LogTableElement}
    (he : c.logTable.entries[i]? = some e) (hlen : e.length = data.length) (pre post : List UInt8) :
    splice (splice (pre ++ (packedRecord c ++ post)) (queueAt c pre.length + e.pos) data)
        (tableAt pre.length + LogTableElement.layout.size * i + LogTableElement.completedOffset)
        [1] =
      pre ++ (packedRecord (completedLog c i e data) ++ post) := by
  obtain ⟨hi, rfl⟩ := List.getElem?_eq_some_iff.mp he
  have hin := hv.within _ (List.mem_of_getElem? he)
  have hcount := entries_length_of_packable hp
  have hqlen : (c.logQueue.bytes.take c.logQueue.curPos).length = c.logQueue.curPos := by
    rw [List.length_take]
    exact Nat.min_eq_left hp.queueRead
  have hin' : c.logTable.entries[i].pos + data.length ≤ c.logQueue.curPos := by omega
  have hdest : queueAt c pre.length + c.logTable.entries[i].pos =
      (pre ++ recordFront c ++ (LogTableElement.layout.encAll c.logTable.entries ++
        queueHeader c)).length + c.logTable.entries[i].pos := by
    rw [List.length_append, recordFront_end, List.length_append, Layout.encAll_length, hcount,
      queueHeader, Layout.enc_length, ← Nat.add_assoc]
    rfl
  have hflag : tableAt pre.length + LogTableElement.layout.size * i +
      LogTableElement.completedOffset = (pre ++ recordFront c).length +
        (LogTableElement.layout.size * i + LogTableElement.completedOffset) := by
    rw [recordFront_end, Nat.add_assoc]
  have hroom : LogTableElement.layout.size * i + LogTableElement.completedOffset +
      [(1 : UInt8)].length ≤ (LogTableElement.layout.encAll c.logTable.entries).length := by
    have hrow := Nat.mul_le_mul_left LogTableElement.layout.size (Nat.succ_le_of_lt hi)
    have hoff : LogTableElement.completedOffset + 1 ≤ LogTableElement.layout.size := by decide
    rw [Nat.mul_succ] at hrow
    rw [Layout.encAll_length, List.length_singleton]
    omega
  -- the table of the completed log
  have htable := splice_encAll_completed he
  rw [← completedLog_entries c i _ data] at htable
  -- and its queue
  have hqueue : splice (c.logQueue.bytes.take c.logQueue.curPos) c.logTable.entries[i].pos data =
      (splice c.logQueue.bytes c.logTable.entries[i].pos data).take c.logQueue.curPos :=
    (take_splice hin' hp.queueRead).symm
  have houter : pre ++ (packedRecord c ++ post) =
      (pre ++ recordFront c ++ (LogTableElement.layout.encAll c.logTable.entries ++
        queueHeader c)) ++ (c.logQueue.bytes.take c.logQueue.curPos ++ (recordBack c ++ post)) := by
    rw [packedRecord_split]
    simp only [List.append_assoc]
  rw [houter, hdest, splice_append_mid (by rw [hqlen]; exact hin'), hqueue, hflag,
    List.append_assoc (pre ++ recordFront c), List.append_assoc (Layout.encAll _ _),
    splice_append_mid hroom, htable, packedRecord_split]
  rfl

theorem lt_of_record (hp : Packable c) (hn : pre.length + (packedRecord c).length ≤ n) :
    pre.length < n := by
  have := packLength_pos c
  rw [packedRecord_length hp] at hn
  omega

theorem scanPacked_absent (hp : Packable c) (hfree : FlagFree flag c)
    (hn : pre.length + (packedRecord c).length ≤ n)
    (h : b.take n = pre ++ (packedRecord c ++ post)) (fuel : ℕ) :
    scanPacked b n data flag (fuel + 1) pre.length =
      scanPacked b n data flag fuel (pre ++ packedRecord c).length := by
  obtain ⟨hsize, hheader⟩ := load_front hp h
  have hfind := findPackedFlag_absent hp hfree h data.length
  unfold tableAt at hfind
  rw [scanPacked, if_pos (lt_of_record hp hn)]
  simp only [hsize, hheader, Option.bind_eq_bind, Option.bind_some,
    headerLayout.dec_enc _ hp.tableHeader, hfind, sizeLayout.dec_enc _ hp.length]
  rw [List.length_append, packedRecord_length hp]

theorem scanPacked_first (hp : Packable c) (hv : c.Valid) {i : ℕ} {e : LogTableElement}
    (hfirst : FirstWithFlag c.logTable flag i e)
    (hn : pre.length + (packedRecord c).length ≤ n)
    (h : b.take n = pre ++ (packedRecord c ++ post)) (fuel : ℕ) :
    scanPacked b n data flag (fuel + 1) pre.length =
      if e.length ≠ data.length then none
      else some (some (pre ++ (packedRecord (completedLog c i e data) ++ (post ++ b.drop n)))) := by
  obtain ⟨hsize, hheader⟩ := load_front hp h
  obtain ⟨hentry, hfind⟩ := findPackedFlag_first hp hfirst h data.length
  have hfits := hp.tableFits e (List.mem_of_getElem? hfirst.1)
  rw [scanPacked, if_pos (lt_of_record hp hn)]
  simp only [hsize, hheader, Option.bind_eq_bind, Option.bind_some,
    headerLayout.dec_enc _ hp.tableHeader]
  rw [← tableAt, hfind]
  by_cases hlen : e.length = data.length
  · simp only [if_neg (not_not_intro hlen), Option.bind_some, hentry,
      LogTableElement.layout.dec_enc _ hfits]
    rw [← queueAt]
    have hb : b = pre ++ (packedRecord c ++ (post ++ b.drop n)) := by
      conv_lhs => rw [← List.take_append_drop n b, h]
      simp only [List.append_assoc]
    -- both stores stay inside the record
    have hqueue : queueAt c pre.length + c.logQueue.curPos ≤ b.length := by
      obtain ⟨-, -, -, -, -, hload, -⟩ := load_sections hp h
      have hle := le_of_load hload
      unfold queueAt tableAt
      omega
    have hcell := le_of_load hentry
    have hin := hv.within e (List.mem_of_getElem? hfirst.1)
    have hdest : queueAt c pre.length + e.pos + data.length ≤ b.length := by omega
    have hoff : LogTableElement.completedOffset + 1 ≤ LogTableElement.layout.size := by decide
    rw [store_of_le hdest, Option.bind_some,
      store_of_le (by rw [splice_length hdest, List.length_singleton]; omega), Option.bind_some]
    conv_lhs => rw [hb]
    rw [splice_packedRecord hp hv hfirst.1 hlen]
  · simp only [if_pos hlen, Option.bind_none]

end Record

/-- `p` holds the packed logs `cs`, in this order. -/
structure HoldsLogs (p : CommLog) (cs : List CommLog) : Prop where
  pushed : Pushed p cs
  packable : ∀ c ∈ cs, Packable c
  valid : ∀ c ∈ cs, c.Valid

def recordAt (pre : List CommLog) : ℕ := (pre.flatMap packedRecord).length

theorem scanPacked_skip {b : List UInt8} {n flag : ℕ} (data : List UInt8) (cs : List CommLog) :
    ∀ (pre post : List UInt8) (fuel : ℕ), (∀ c ∈ cs, Packable c) → (∀ c ∈ cs, FlagFree flag c) →
      pre.length + (cs.flatMap packedRecord).length ≤ n →
      b.take n = pre ++ (cs.flatMap packedRecord ++ post) →
      scanPacked b n data flag (fuel + cs.length) pre.length =
        scanPacked b n data flag fuel (pre ++ cs.flatMap packedRecord).length := by
  induction cs with
  | nil =>
      intro pre post fuel _ _ _ _
      rw [List.flatMap_nil, List.append_nil]
      rfl
  | cons c cs ih =>
      intro pre post fuel hpack hfree hn h
      rw [List.flatMap_cons, List.length_append] at hn
      rw [List.flatMap_cons, List.append_assoc] at h
      have hstep := @scanPacked_absent _ _ _ _ _ _ data (hpack c List.mem_cons_self)
        (hfree c List.mem_cons_self) (by omega) h (fuel + cs.length)
      have hrest := ih (pre ++ packedRecord c) post fuel
        (fun x hx => hpack x (List.mem_cons_of_mem _ hx))
        (fun x hx => hfree x (List.mem_cons_of_mem _ hx))
        (by rw [List.length_append]; omega) (by rw [h, List.append_assoc])
      rw [List.length_cons, ← Nat.add_assoc, hstep, hrest, List.flatMap_cons, List.append_assoc]

theorem first_record (flag : ℕ) (cs : List CommLog) (hv : ∀ c ∈ cs, c.Valid) :
    (∀ c ∈ cs, FlagFree flag c) ∨ ∃ pre c post i e, cs = pre ++ c :: post ∧
      (∀ x ∈ pre, FlagFree flag x) ∧ FirstWithFlag c.logTable flag i e := by
  induction cs with
  | nil => exact Or.inl (by simp)
  | cons c cs ih =>
      rcases findFlag_cases (hv c List.mem_cons_self).table flag with
        ⟨i, e, -, hfirst⟩ | ⟨-, hfree⟩
      · exact Or.inr ⟨[], c, cs, i, e, rfl, by simp, hfirst⟩
      · rcases ih fun x hx => hv x (List.mem_cons_of_mem _ hx) with
          hall | ⟨pre, d, post, i, e, rfl, hpre, hfirst⟩
        · refine Or.inl fun x hx => ?_
          rcases List.mem_cons.mp hx with rfl | hx
          · exact hfree
          · exact hall x hx
        · refine Or.inr ⟨c :: pre, d, post, i, e, rfl, fun x hx => ?_, hfirst⟩
          rcases List.mem_cons.mp hx with rfl | hx
          · exact hfree
          · exact hpre x hx

section Probe

variable {p : CommLog} {cs : List CommLog} {flag : ℕ}

theorem probeAndLogDataPacked_absent (h : HoldsLogs p cs) (hfree : ∀ c ∈ cs, FlagFree flag c)
    (data : List UInt8) : probeAndLogDataPacked p data flag = some (false, p) := by
  have htake := pushed_take h.pushed
  have hle := length_le_records h.packable
  have hcur := h.pushed.1
  have hfuel : p.childLog.curPos + 1 = p.childLog.curPos - cs.length + 1 + cs.length := by omega
  have hskip := scanPacked_skip (n := p.childLog.curPos) data cs [] []
    (p.childLog.curPos - cs.length + 1) h.packable hfree (by rw [List.length_nil]; omega)
    (by rw [htake, List.nil_append, List.append_nil])
  have hend : scanPacked p.childLog.buffer p.childLog.curPos data flag
      (p.childLog.curPos - cs.length + 1) p.childLog.curPos = some none := by
    rw [scanPacked, if_neg (Nat.lt_irrefl _)]
  rw [List.length_nil, List.nil_append, ← hfuel, ← hcur, hend] at hskip
  rw [probeAndLogDataPacked, hskip]
  rfl

theorem packedRecord_completedLog_length {c : CommLog} {i : ℕ} {e : LogTableElement}
    {data : List UInt8} (hp : Packable c) (hp' : Packable (completedLog c i e data)) :
    (packedRecord (completedLog c i e data)).length = (packedRecord c).length := by
  rw [packedRecord_length hp, packedRecord_length hp']
  rfl

theorem mem_replace {pre post : List CommLog} {c c' x : CommLog} (h : x ∈ pre ++ c' :: post) :
    x ∈ pre ++ c :: post ∨ x = c' := by
  rw [List.mem_append, List.mem_cons] at h ⊢
  tauto

theorem pushed_replace {pre post : List CommLog} {c c' : CommLog}
    (h : Pushed p (pre ++ c :: post)) (hlen : (packedRecord c').length = (packedRecord c).length) :
    Pushed { p with childLog := { p.childLog with
      basePtr := some (pre.flatMap packedRecord ++ (packedRecord c' ++
        (post.flatMap packedRecord ++ p.childLog.buffer.drop p.childLog.curPos))) } }
      (pre ++ c' :: post) := by
  have hf : p.childLog.Filled ((pre ++ c :: post).flatMap packedRecord) 0 := by
    rcases h.2 with hf | ⟨hnil, -⟩
    · exact hf
    · simp at hnil
  have hflat : ∀ x, (pre ++ x :: post).flatMap packedRecord =
      pre.flatMap packedRecord ++ (packedRecord x ++ post.flatMap packedRecord) := by
    intro x
    rw [List.flatMap_append, List.flatMap_cons]
  have hsame : ((pre ++ c' :: post).flatMap packedRecord).length =
      ((pre ++ c :: post).flatMap packedRecord).length := by
    rw [hflat, hflat]
    simp only [List.length_append, hlen]
  have hbuf : pre.flatMap packedRecord ++ (packedRecord c' ++
      (post.flatMap packedRecord ++ p.childLog.buffer.drop p.childLog.curPos)) =
      (pre ++ c' :: post).flatMap packedRecord ++ p.childLog.buffer.drop p.childLog.curPos := by
    rw [hflat]
    simp only [List.append_assoc]
  rw [hbuf]
  have hfits := hf.fits
  have hpos := hf.pos
  have hsize := hf.size
  refine ⟨hpos.trans hsame.symm, Or.inl ⟨rfl, ?_, hpos.trans hsame.symm, ?_, ?_⟩⟩
  · rw [ChildLogQueue.buffer_mk, List.length_append, hsame, List.length_drop]
    dsimp only
    omega
  · rw [ChildLogQueue.buffer_mk, List.take_left]
  · rw [hsame]
    exact hfits

theorem probeAndLogDataPacked_eq {pre post : List CommLog} {c : CommLog} {i : ℕ}
    {e : LogTableElement} {data : List UInt8} (h : HoldsLogs p (pre ++ c :: post))
    (hpre : ∀ x ∈ pre, FlagFree flag x) (hfirst : FirstWithFlag c.logTable flag i e) :
    probeAndLogDataPacked p data flag = if e.length ≠ data.length then none
      else some (true, { p with childLog := { p.childLog with
        basePtr := some (pre.flatMap packedRecord ++ (packedRecord (completedLog c i e data) ++
          (post.flatMap packedRecord ++ p.childLog.buffer.drop p.childLog.curPos))) } }) := by
  have hc : c ∈ pre ++ c :: post := by simp
  have hp := h.packable c hc
  have hv := h.valid c hc
  have htake := pushed_take h.pushed
  have hle := length_le_records h.packable
  have hcur := h.pushed.1
  rw [List.flatMap_append, List.flatMap_cons] at htake
  rw [List.flatMap_append, List.flatMap_cons, List.length_append, List.length_append] at hcur
  rw [← h.pushed.1, List.length_append, List.length_cons] at hle
  have hfuel : p.childLog.curPos + 1 = p.childLog.curPos - pre.length + 1 + pre.length := by omega
  have hskip := scanPacked_skip (n := p.childLog.curPos) data pre []
    (packedRecord c ++ post.flatMap packedRecord) (p.childLog.curPos - pre.length + 1)
    (fun x hx => h.packable x (List.mem_append_left _ hx)) hpre (by rw [List.length_nil]; omega)
    htake
  have hstep := @scanPacked_first _ _ _ _ _ _ data hp hv _ _ hfirst (by omega) htake
    (p.childLog.curPos - pre.length)
  rw [List.length_nil, List.nil_append, ← hfuel, hstep] at hskip
  rw [probeAndLogDataPacked, hskip]
  by_cases hlen : e.length = data.length
  · rw [if_neg (not_not_intro hlen), if_neg (not_not_intro hlen)]
    rfl
  · rw [if_pos hlen, if_pos hlen]
    rfl

theorem probeAndLogDataPacked_first {pre post : List CommLog} {c : CommLog} {i : ℕ}
    {e : LogTableElement} {data : List UInt8} (h : HoldsLogs p (pre ++ c :: post))
    (hpre : ∀ x ∈ pre, FlagFree flag x) (hfirst : FirstWithFlag c.logTable flag i e) :
    (e.length ≠ data.length → probeAndLogDataPacked p data flag = none) ∧
    (e.length = data.length → ∃ q, probeAndLogDataPacked p data flag =
        some (true, { p with childLog := q }) ∧
      HoldsLogs { p with childLog := q } (pre ++ completedLog c i e data :: post)) := by
  have hc : c ∈ pre ++ c :: post := by simp
  have hp := h.packable c hc
  have hprobe := @probeAndLogDataPacked_eq _ _ _ _ _ _ _ data h hpre hfirst
  constructor
  · intro hlen
    rw [hprobe, if_pos hlen]
  · intro hlen
    have hv' := (completedLog_completes (h.valid c hc) hfirst hlen).valid
    have hp' := completedLog_packable hp hv' (List.mem_of_getElem? hfirst.1)
    have hreclen := packedRecord_completedLog_length hp hp'
    refine ⟨_, ?_, ⟨pushed_replace h.pushed hreclen, ?_, ?_⟩⟩
    · rw [hprobe, if_neg (not_not_intro hlen)]
    · intro x hx
      rcases mem_replace hx with hx | rfl
      · exact h.packable x hx
      · exact hp'
    · intro x hx
      rcases mem_replace hx with hx | rfl
      · exact h.valid x hx
      · exact hv'

theorem probeAndLogDataPacked_cases {p' : CommLog} {data : List UInt8} {found : Bool}
    (h : HoldsLogs p cs) (hprobe : probeAndLogDataPacked p data flag = some (found, p')) :
    (found = false ∧ p' = p ∧ ∀ c ∈ cs, FlagFree flag c) ∨
    (found = true ∧ ∃ n c i e q, cs[n]? = some c ∧ (∀ x ∈ cs.take n, FlagFree flag x) ∧
      FirstWithFlag c.logTable flag i e ∧ e.length = data.length ∧
      p' = { p with childLog := q } ∧ HoldsLogs p' (cs.set n (completedLog c i e data))) := by
  rcases first_record flag cs h.valid with
    hfree | ⟨pre, c, post, i, e, rfl, hpre, hfirst⟩
  · rw [probeAndLogDataPacked_absent h hfree, Option.some.injEq, Prod.mk.injEq] at hprobe
    exact Or.inl ⟨hprobe.1.symm, hprobe.2.symm, hfree⟩
  · obtain ⟨hbad, hgood⟩ := @probeAndLogDataPacked_first p flag pre post c i e data h hpre hfirst
    by_cases hlen : e.length = data.length
    · obtain ⟨q, hq, hholds⟩ := hgood hlen
      rw [hq, Option.some.injEq, Prod.mk.injEq] at hprobe
      obtain ⟨rfl, rfl⟩ := hprobe
      refine Or.inr ⟨rfl, pre.length, c, i, e, q, ?_, ?_, hfirst, hlen, rfl, ?_⟩
      · rw [List.getElem?_append_right (Nat.le_refl _), Nat.sub_self]
        rfl
      · rwa [List.take_left]
      · rw [List.set_append_right _ _ (Nat.le_refl _), Nat.sub_self]
        exact hholds
    · rw [hbad hlen] at hprobe
      cases hprobe

end Probe

end CommLog

end CDRuntime
