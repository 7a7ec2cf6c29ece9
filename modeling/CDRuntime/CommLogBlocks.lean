import CDRuntime.CommLog

namespace CDRuntime
open Splice

/-- The cells of the table block; a null table has none. -/
def LogTable.cells (t : LogTable) : List LogTableElement := t.basePtr.getD []

def LogTable.entries (t : LogTable) : List LogTableElement := t.cells.take t.curPos

/-- The bytes of the queue block; a null queue has none. -/
def LogQueue.bytes (q : LogQueue) : List UInt8 := q.basePtr.getD []

@[simp] theorem LogTable.cells_mk (b : List LogTableElement) (i n : ℕ) :
    (LogTable.mk (some b) i n).cells = b := rfl

@[simp] theorem LogQueue.bytes_mk (b : List UInt8) (i n : ℕ) :
    (LogQueue.mk (some b) i n).bytes = b := rfl

/-- An allocated table of the recorded size that can grow by doubling. -/
structure LogTable.Valid (t : LogTable) : Prop where
  alloc : t.basePtr = some t.cells
  size : t.cells.length = t.tableSize
  pos : 0 < t.tableSize
  inUse : t.curPos ≤ t.tableSize

structure LogQueue.Valid (q : LogQueue) : Prop where
  alloc : q.basePtr = some q.bytes
  size : q.bytes.length = q.queueSize
  inUse : q.curPos ≤ q.queueSize

/-- The entries own consecutive, disjoint ranges of the queue. -/
structure CommLog.Valid (c : CommLog) : Prop where
  table : c.logTable.Valid
  queue : c.logQueue.Valid
  within : ∀ e ∈ c.logTable.entries, e.pos + e.length ≤ c.logQueue.curPos
  ordered : c.logTable.entries.Pairwise fun e e' => e.pos + e.length ≤ e'.pos

namespace LogTable

variable {t : LogTable}

theorem entries_length (h : t.Valid) : t.entries.length = t.curPos := by
  rw [entries, List.length_take, h.size]
  exact Nat.min_eq_left h.inUse

theorem read_eq (h : t.Valid) {i : ℕ} (hi : i < t.curPos) : t.read i = t.entries[i]? := by
  rw [read, h.alloc, Option.bind_some, entries, List.getElem?_take_of_lt hi]

theorem write_eq (h : t.Valid) {i : ℕ} (hi : i < t.tableSize) (e : LogTableElement) :
    t.write i e = some { t with basePtr := some (t.cells.set i e) } := by
  rw [write, h.alloc, Option.bind_some, if_pos (by rw [h.size]; exact hi)]

/-- Overwriting an entry in use. -/
theorem write_spec (h : t.Valid) {i : ℕ} (hi : i < t.curPos) (e : LogTableElement) :
    ∃ t', t.write i e = some t' ∧ t'.Valid ∧ t'.curPos = t.curPos ∧
      t'.entries = t.entries.set i e := by
  refine ⟨_, write_eq h (Nat.lt_of_lt_of_le hi h.inUse) e, ⟨rfl, ?_, h.pos, h.inUse⟩, rfl, ?_⟩
  · simpa only [cells_mk, List.length_set] using h.size
  · simp only [entries, cells_mk, List.take_set]

end LogTable

namespace LogQueue

variable {q : LogQueue}

theorem read_eq (h : q.Valid) {pos n : ℕ} (hp : pos + n ≤ q.queueSize) :
    q.read pos n = some (slice q.bytes pos n) := by
  rw [read, h.alloc, Option.bind_some, load_of_le (by rw [h.size]; exact hp)]

/-- Copying over a range of the queue. -/
theorem write_spec (h : q.Valid) {pos : ℕ} {xs : List UInt8}
    (hp : pos + xs.length ≤ q.queueSize) :
    ∃ q', q.write pos xs = some q' ∧ q'.Valid ∧ q'.curPos = q.curPos ∧
      q'.queueSize = q.queueSize ∧ q'.bytes = splice q.bytes pos xs := by
  have hp' : pos + xs.length ≤ q.bytes.length := by rw [h.size]; exact hp
  refine ⟨{ q with basePtr := some (splice q.bytes pos xs) }, ?_, ⟨rfl, ?_, h.inUse⟩, rfl, rfl,
    rfl⟩
  · rw [write, h.alloc, Option.bind_some, store_of_le hp', Option.map_some]
  · simpa only [bytes_mk, splice_length hp'] using h.size

end LogQueue

namespace CommLog

theorem reInit_valid {c : CommLog} (h : c.Valid) : (reInit c).Valid :=
  ⟨h.table, h.queue, h.within, h.ordered⟩

theorem increaseLogTableSize_spec {t : LogTable} (h : t.Valid) :
    ∃ t', increaseLogTableSize t = some (.ok, t') ∧ t'.Valid ∧ t'.curPos = t.curPos ∧
      t'.tableSize = t.tableSize * 2 ∧ t'.entries = t.entries := by
  have hold : (slice t.cells 0 t.tableSize) = t.cells := by
    rw [slice_zero, List.take_of_length_le (Nat.le_of_eq h.size)]
  have hfit : 0 + t.cells.length ≤ (newElements (t.tableSize * 2)).length := by
    rw [newElements, List.length_replicate, h.size]
    omega
  have hcells : splice (newElements (t.tableSize * 2)) 0 t.cells =
      t.cells ++ (newElements (t.tableSize * 2)).drop t.cells.length := splice_zero
  have hpos := h.pos
  have huse := h.inUse
  refine ⟨⟨some (splice (newElements (t.tableSize * 2)) 0 t.cells), t.curPos, t.tableSize * 2⟩,
    ?_, ⟨rfl, ?_, ?_, ?_⟩, rfl, rfl, ?_⟩
  · have hload : load t.cells 0 t.tableSize = some (slice t.cells 0 t.tableSize) :=
      load_of_le (by rw [h.size]; omega)
    simp only [increaseLogTableSize, h.alloc, Option.bind_eq_bind, Option.bind_some, hload, hold,
      store_of_le hfit]
  · rw [LogTable.cells_mk, splice_length hfit, newElements, List.length_replicate]
  · dsimp only
    omega
  · dsimp only
    omega
  · simp only [LogTable.entries, LogTable.cells_mk]
    rw [hcells, List.take_append_of_le_length (by rw [h.size]; exact huse)]

theorem increaseLogQueueSize_spec {q : LogQueue} (h : q.Valid) {n : ℕ}
    (hn : q.queueSize < q.curPos + n) :
    ∃ q', increaseLogQueueSize q n = some (.ok, q') ∧ q'.Valid ∧ q'.curPos = q.curPos ∧
      q'.queueSize = (q.curPos + n) * 2 ∧
      ∀ p m, p + m ≤ q.queueSize → slice q'.bytes p m = slice q.bytes p m := by
  have hold : (slice q.bytes 0 q.queueSize) = q.bytes := by
    rw [slice_zero, List.take_of_length_le (Nat.le_of_eq h.size)]
  have hfit : 0 + q.bytes.length ≤ (newChars ((q.curPos + n) * 2)).length := by
    rw [newChars, List.length_replicate, h.size]
    omega
  refine ⟨⟨some (splice (newChars ((q.curPos + n) * 2)) 0 q.bytes), q.curPos, (q.curPos + n) * 2⟩,
    ?_, ⟨rfl, ?_, ?_⟩, rfl, rfl, ?_⟩
  · have hlt : ¬ (q.curPos + n) * 2 ≤ q.queueSize := by omega
    have hload : load q.bytes 0 q.queueSize = some (slice q.bytes 0 q.queueSize) :=
      load_of_le (by rw [h.size]; omega)
    simp only [increaseLogQueueSize, if_neg hlt, h.alloc, Option.bind_eq_bind, Option.bind_some,
      hload, hold, store_of_le hfit]
  · rw [LogQueue.bytes_mk, splice_length hfit, newChars, List.length_replicate]
  · dsimp only
    omega
  · intro p m hp
    rw [LogQueue.bytes_mk, splice_zero, slice_append_left (by rw [h.size]; exact hp)]

def newEntry (pos len : ℕ) (a : LogArgs) : LogTableElement :=
  { pos, length := len, completed := a.completed, flag := a.flag, counter := 1
    reexecCounter := 0, isrepeated := a.isrepeated, taskID := a.taskID }

theorem writeLogTable_spec {c : CommLog} (h : c.logTable.Valid) (len : ℕ) (a : LogArgs) :
    ∃ t, writeLogTable c a.taskID len a.completed a.flag a.isrepeated =
        some (.ok, { c with logTable := t }) ∧ t.Valid ∧
      t.entries = c.logTable.entries ++ [newEntry c.logQueue.curPos len a] := by
  obtain ⟨t, ht, hv, hcur, hroom, hent⟩ : ∃ t : LogTable,
      (if c.logTable.tableSize ≤ c.logTable.curPos then
        (increaseLogTableSize c.logTable).map Prod.snd else some c.logTable) = some t ∧
      t.Valid ∧ t.curPos = c.logTable.curPos ∧ t.curPos < t.tableSize ∧
      t.entries = c.logTable.entries := by
    by_cases hfull : c.logTable.tableSize ≤ c.logTable.curPos
    · obtain ⟨t, ht, hv, hcur, hsize, hent⟩ := increaseLogTableSize_spec h
      have hpos := h.pos
      have huse := h.inUse
      exact ⟨t, by rw [if_pos hfull, ht, Option.map_some], hv, hcur, by omega, hent⟩
    · exact ⟨c.logTable, if_neg hfull, h, rfl, Nat.lt_of_not_ge hfull, rfl⟩
  have hlen : (t.cells.set t.curPos (newEntry c.logQueue.curPos len a)).length = t.tableSize := by
    rw [List.length_set, hv.size]
  refine ⟨⟨some (t.cells.set t.curPos (newEntry c.logQueue.curPos len a)), t.curPos + 1,
    t.tableSize⟩, ?_, ⟨rfl, hlen, hv.pos, hroom⟩, ?_⟩
  · have hw := LogTable.write_eq hv hroom (newEntry c.logQueue.curPos len a)
    rw [newEntry] at hw
    simp only [writeLogTable, ht, Option.bind_eq_bind, Option.bind_some, hw, newEntry]
  · rw [← hent]
    simp only [LogTable.entries, LogTable.cells_mk]
    rw [List.take_succ_eq_append_getElem (by rw [hlen]; exact hroom), List.getElem_set_self,
      List.take_set_of_le (Nat.le_refl _)]

theorem writeLogQueue_spec {c : CommLog} (h : c.logQueue.Valid) (data : List UInt8)
    (completed : Bool) :
    ∃ q, writeLogQueue c data completed = some (.ok, { c with logQueue := q }) ∧ q.Valid ∧
      q.curPos = c.logQueue.curPos + data.length ∧
      (∀ p m, p + m ≤ c.logQueue.curPos → slice q.bytes p m = slice c.logQueue.bytes p m) ∧
      (completed = true → slice q.bytes c.logQueue.curPos data.length = data) := by
  obtain ⟨q, hq, hv, hcur, hroom, hkept⟩ : ∃ q : LogQueue,
      (if c.logQueue.queueSize < c.logQueue.curPos + data.length then
        (increaseLogQueueSize c.logQueue data.length).map Prod.snd else some c.logQueue) =
        some q ∧
      q.Valid ∧ q.curPos = c.logQueue.curPos ∧ q.curPos + data.length ≤ q.queueSize ∧
      ∀ p m, p + m ≤ c.logQueue.curPos → slice q.bytes p m = slice c.logQueue.bytes p m := by
    have huse := h.inUse
    by_cases hfull : c.logQueue.queueSize < c.logQueue.curPos + data.length
    · obtain ⟨q, hq, hv, hcur, hsize, hkept⟩ := increaseLogQueueSize_spec h hfull
      exact ⟨q, by rw [if_pos hfull, hq, Option.map_some], hv, hcur, by omega,
        fun p m hp => hkept p m (by omega)⟩
    · exact ⟨c.logQueue, if_neg hfull, h, rfl, Nat.le_of_not_lt hfull, fun _ _ _ => rfl⟩
  by_cases hcopy : completed = true ∧ data.length ≠ 0
  · obtain ⟨q', hw, hv', hcur', hsize', hbytes⟩ := LogQueue.write_spec hv hroom
    have hfit : q.curPos + data.length ≤ q.bytes.length := by rw [hv.size]; exact hroom
    refine ⟨{ q' with curPos := q'.curPos + data.length }, ?_, ⟨hv'.alloc, hv'.size, ?_⟩, ?_,
      ?_, ?_⟩
    · simp only [writeLogQueue, hq, Option.bind_eq_bind, Option.bind_some, if_pos hcopy, hw]
    · dsimp only
      omega
    · dsimp only
      omega
    · intro p m hp
      change slice q'.bytes p m = _
      rw [hbytes, slice_splice_before hfit (by omega), hkept p m hp]
    · intro _
      change slice q'.bytes _ _ = _
      rw [hbytes, ← hcur, slice_splice_same hfit]
  · refine ⟨{ q with curPos := q.curPos + data.length }, ?_, ⟨hv.alloc, hv.size, hroom⟩, ?_,
      hkept, ?_⟩
    · simp only [writeLogQueue, hq, Option.bind_eq_bind, Option.bind_some, if_neg hcopy]
    · dsimp only
      omega
    · intro hc
      have hnil : data = [] := by
        by_contra hne
        exact hcopy ⟨hc, by simpa using hne⟩
      subst hnil
      simp [slice]

/-- `c'` is `c` with one new entry at the end of its log. -/
structure Appends (c c' : CommLog) (data : List UInt8) (a : LogArgs) : Prop where
  valid : c'.Valid
  entries : c'.logTable.entries =
    c.logTable.entries ++ [newEntry c.logQueue.curPos data.length a]
  queuePos : c'.logQueue.curPos = c.logQueue.curPos + data.length
  kept : ∀ p m, p + m ≤ c.logQueue.curPos →
    slice c'.logQueue.bytes p m = slice c.logQueue.bytes p m
  payload : a.completed = true → slice c'.logQueue.bytes c.logQueue.curPos data.length = data

/-- `LogData` off the repeated-entry path appends one entry, after any growth it needs. -/
theorem logData_appends {c : CommLog} (h : c.Valid) (ptr : ℕ) (data : List UInt8) {a : LogArgs}
    (hnew : a.isrepeated = false ∨
      foundRepeatedEntry c data.length a.completed a.flag = some false) :
    ∃ c', logData c ptr data a = some (.ok, c') ∧ Appends c c' data a := by
  have hfound : (if a.isrepeated then foundRepeatedEntry c data.length a.completed a.flag
      else some false) = some false := by
    rcases hnew with hnew | hnew
    · rw [hnew]
      rfl
    · rw [hnew, ite_self]
  obtain ⟨t, ht, htv, hent⟩ := writeLogTable_spec h.table data.length a
  obtain ⟨c₂, hc₂, htv₂, hqv₂, hcur, hkept, hpay, hent₂⟩ : ∃ c₂ : CommLog,
      (if data.length ≠ 0 then
        (writeLogQueue { c with logTable := t } data a.completed).map Prod.snd
        else some { c with logTable := t }) = some c₂ ∧ c₂.logTable.Valid ∧
      c₂.logQueue.Valid ∧ c₂.logQueue.curPos = c.logQueue.curPos + data.length ∧
      (∀ p m, p + m ≤ c.logQueue.curPos →
        slice c₂.logQueue.bytes p m = slice c.logQueue.bytes p m) ∧
      (a.completed = true → slice c₂.logQueue.bytes c.logQueue.curPos data.length = data) ∧
      c₂.logTable = t := by
    by_cases hz : data.length = 0
    · have hnil : data = [] := List.length_eq_zero_iff.mp hz
      subst hnil
      exact ⟨{ c with logTable := t }, rfl, htv, h.queue, rfl, fun _ _ _ => rfl,
        fun _ => by simp [slice], rfl⟩
    · obtain ⟨q, hq, hqv, hcur, hkept, hpay⟩ :=
        writeLogQueue_spec (c := { c with logTable := t }) h.queue data a.completed
      exact ⟨{ c with logTable := t, logQueue := q }, by rw [if_pos hz, hq, Option.map_some],
        htv, hqv, hcur, hkept, hpay, rfl⟩
  have hent' : (noteEntry c₂ ptr data.length a).logTable.entries =
      c.logTable.entries ++ [newEntry c.logQueue.curPos data.length a] := by
    rw [← hent, ← hent₂]
    rfl
  refine ⟨noteEntry c₂ ptr data.length a, ?_, ⟨htv₂, hqv₂, ?_, ?_⟩, hent', hcur, hkept, hpay⟩
  · simp only [logData, hfound, Option.bind_eq_bind, Option.bind_some, ht, Bool.false_eq_true,
      if_false, hc₂]
  · intro e he
    rw [hent', List.mem_append, List.mem_singleton] at he
    change e.pos + e.length ≤ c₂.logQueue.curPos
    rcases he with he | rfl
    · have := h.within e he
      omega
    · rw [hcur]
      exact Nat.le_refl _
  · rw [hent', List.pairwise_append]
    refine ⟨h.ordered, List.pairwise_singleton _ _, ?_⟩
    intro e he e' he'
    rw [List.mem_singleton] at he'
    rw [he']
    exact h.within e he

theorem logData_repeats {c : CommLog} (h : c.Valid) (ptr : ℕ) (data : List UInt8) {a : LogArgs}
    (hrep : a.isrepeated = true)
    (hfound : foundRepeatedEntry c data.length a.completed a.flag = some true) :
    ∃ c' e, logData c ptr data a = some (.ok, c') ∧
      c.logTable.entries[c.logTable.curPos - 1]? = some e ∧ c'.logTable.Valid ∧
      c'.logQueue = c.logQueue ∧ c'.logTable.entries =
        c.logTable.entries.set (c.logTable.curPos - 1) { e with counter := e.counter + 1 } := by
  have hpos : c.logTable.curPos ≠ 0 := by
    intro hz
    rw [foundRepeatedEntry, if_pos hz] at hfound
    exact absurd hfound (by simp)
  have hlt : c.logTable.curPos - 1 < c.logTable.curPos := by omega
  have hlt' : c.logTable.curPos - 1 < c.logTable.entries.length := by
    rw [LogTable.entries_length h.table]
    exact hlt
  obtain ⟨e, he⟩ : ∃ e, c.logTable.entries[c.logTable.curPos - 1]? = some e :=
    ⟨_, List.getElem?_eq_getElem hlt'⟩
  obtain ⟨t, hw, htv, _, hent⟩ :=
    LogTable.write_spec h.table hlt { e with counter := e.counter + 1 }
  refine ⟨{ c with logTable := t }, e, ?_, he, htv, rfl, hent⟩
  simp only [logData, if_pos hrep, hfound, Option.bind_eq_bind, Option.bind_some, if_true,
    LogTable.read_eq h.table hlt, he, hw]

theorem repeated_of_found {c : CommLog} (h : c.Valid) {n flag : ℕ} {completed : Bool}
    {e : LogTableElement} (he : c.logTable.entries[c.logTable.curPos - 1]? = some e)
    (hfound : foundRepeatedEntry c n completed flag = some true) :
    e.isrepeated = true ∧ e.length = n ∧ e.completed = completed ∧ e.flag = flag := by
  rw [foundRepeatedEntry] at hfound
  split_ifs at hfound with hz
  have hlt : c.logTable.curPos - 1 < c.logTable.curPos := by omega
  rw [LogTable.read_eq h.table hlt, he, Option.bind_eq_bind, Option.bind_some,
    Option.some.injEq] at hfound
  simpa [and_assoc] using hfound

theorem Appends.not_set {c c' : CommLog} {data : List UInt8} {a : LogArgs}
    (h : Appends c c' data a) (j : ℕ) (e : LogTableElement) :
    c'.logTable.entries ≠ c.logTable.entries.set j e := by
  intro hset
  have hgrown := congrArg List.length (hset.symm.trans h.entries)
  rw [List.length_set, List.length_append, List.length_singleton] at hgrown
  omega

theorem findFlag_cases_from {t : LogTable} (h : t.Valid) (flag : ℕ) :
    ∀ n pos, pos + n = t.curPos →
      (∃ i e, findFlag t flag pos n = some (some i) ∧ t.entries[i]? = some e ∧ e.flag = flag ∧
        ∀ j e', pos ≤ j → j < i → t.entries[j]? = some e' → e'.flag ≠ flag) ∨
      (findFlag t flag pos n = some none ∧
        ∀ j e', pos ≤ j → t.entries[j]? = some e' → e'.flag ≠ flag) := by
  intro n
  induction n with
  | zero =>
      intro pos hpos
      refine Or.inr ⟨rfl, fun j e' hj he' => ?_⟩
      have hlt := (List.getElem?_eq_some_iff.mp he').1
      rw [LogTable.entries_length h] at hlt
      omega
  | succ n ih =>
      intro pos hpos
      have hlt : pos < t.entries.length := by
        rw [LogTable.entries_length h]
        omega
      have hread : t.read pos = some t.entries[pos] := by
        rw [LogTable.read_eq h (by omega), List.getElem?_eq_getElem hlt]
      have hstep : findFlag t flag pos (n + 1) = if t.entries[pos].flag = flag
          then some (some pos) else findFlag t flag (pos + 1) n := by
        rw [findFlag, hread]
        rfl
      by_cases hflag : t.entries[pos].flag = flag
      · refine Or.inl ⟨pos, t.entries[pos], by rw [hstep, if_pos hflag],
          List.getElem?_eq_getElem hlt, hflag, fun j e' hj hji _ => ?_⟩
        omega
      · rw [hstep, if_neg hflag]
        -- a cell from `pos` on is either the cell just compared or a later one
        have hlater : ∀ j e', pos ≤ j → t.entries[j]? = some e' →
            (pos + 1 ≤ j → e'.flag ≠ flag) → e'.flag ≠ flag := by
          intro j e' hj he' hrest
          rcases Nat.eq_or_lt_of_le hj with rfl | hj
          · rw [List.getElem?_eq_getElem hlt, Option.some.injEq] at he'
            exact he' ▸ hflag
          · exact hrest hj
        rcases ih (pos + 1) (by omega) with ⟨i, e, hi, he, hef, hmin⟩ | ⟨hnone, hmin⟩
        · refine Or.inl ⟨i, e, hi, he, hef, fun j e' hj hji he' => ?_⟩
          exact hlater j e' hj he' fun hj' => hmin j e' hj' hji he'
        · exact Or.inr ⟨hnone, fun j e' hj he' =>
            hlater j e' hj he' fun hj' => hmin j e' hj' he'⟩

/-- Entry `i` is the first one of the log that carries `flag`. -/
def FirstWithFlag (t : LogTable) (flag i : ℕ) (e : LogTableElement) : Prop :=
  t.entries[i]? = some e ∧ e.flag = flag ∧
    ∀ j < i, ∀ e', t.entries[j]? = some e' → e'.flag ≠ flag

theorem findFlag_cases {t : LogTable} (h : t.Valid) (flag : ℕ) :
    (∃ i e, findFlag t flag 0 t.curPos = some (some i) ∧ FirstWithFlag t flag i e) ∨
    (findFlag t flag 0 t.curPos = some none ∧ ∀ e ∈ t.entries, e.flag ≠ flag) := by
  rcases findFlag_cases_from h flag t.curPos 0 (Nat.zero_add _) with
    ⟨i, e, hi, he, hef, hmin⟩ | ⟨hnone, hmin⟩
  · exact Or.inl ⟨i, e, hi, he, hef, fun j hj e' he' => hmin j e' (Nat.zero_le _) hj he'⟩
  · refine Or.inr ⟨hnone, fun e he => ?_⟩
    obtain ⟨j, hj⟩ := List.mem_iff_getElem?.mp he
    exact hmin j e (Nat.zero_le _) hj

/-- `c'` is `c` with entry `i` completed and its range of the queue filled with `data`. -/
structure Completes (c c' : CommLog) (i : ℕ) (e : LogTableElement) (data : List UInt8) : Prop where
  valid : c'.Valid
  entries : c'.logTable.entries = c.logTable.entries.set i { e with completed := true }
  payload : slice c'.logQueue.bytes e.pos e.length = data
  kept : ∀ j e', j ≠ i → c.logTable.entries[j]? = some e' →
    slice c'.logQueue.bytes e'.pos e'.length = slice c.logQueue.bytes e'.pos e'.length

theorem ordered_pos {c : CommLog} (h : c.Valid) {i j : ℕ} {e e' : LogTableElement}
    (hij : i < j) (hi : c.logTable.entries[i]? = some e) (hj : c.logTable.entries[j]? = some e') :
    e.pos + e.length ≤ e'.pos := by
  obtain ⟨hi', rfl⟩ := List.getElem?_eq_some_iff.mp hi
  obtain ⟨hj', rfl⟩ := List.getElem?_eq_some_iff.mp hj
  exact List.pairwise_iff_getElem.mp h.ordered i j hi' hj' hij

/-- Rewriting an entry without moving its range of the queue keeps the log valid. -/
theorem valid_of_set {c c' : CommLog} (h : c.Valid) {i : ℕ} {e : LogTableElement}
    (e' : LogTableElement) (he : c.logTable.entries[i]? = some e)
    (hpos : e'.pos = e.pos) (hlen : e'.length = e.length) (ht : c'.logTable.Valid)
    (hq : c'.logQueue.Valid)
    (hcur : c'.logQueue.curPos = c.logQueue.curPos)
    (hent : c'.logTable.entries = c.logTable.entries.set i e') : c'.Valid := by
  have hmap : (c'.logTable.entries.map fun x => (x.pos, x.length)) =
      c.logTable.entries.map fun x => (x.pos, x.length) := by
    rw [hent, List.map_set, hpos, hlen]
    apply List.ext_getElem?
    intro k
    rw [List.getElem?_set, List.getElem?_map]
    split
    · next hk =>
      subst hk
      rw [he, Option.map_some, if_pos (by
        rw [List.length_map]
        exact (List.getElem?_eq_some_iff.mp he).1)]
    · rfl
  refine ⟨ht, hq, ?_, ?_⟩
  · intro x hx
    have hm : (x.pos, x.length) ∈ c.logTable.entries.map fun x => (x.pos, x.length) := by
      rw [← hmap]
      exact List.mem_map_of_mem hx
    obtain ⟨y, hy, hxy⟩ := List.mem_map.mp hm
    have := h.within y hy
    simp only [Prod.mk.injEq] at hxy
    omega
  · have hpw : (c.logTable.entries.map fun x => (x.pos, x.length)).Pairwise
        fun x y => x.1 + x.2 ≤ y.1 := List.pairwise_map.mpr h.ordered
    rw [← hmap] at hpw
    exact List.pairwise_map.mp hpw

theorem probeAndLogData_absent {c : CommLog} (h : c.Valid) {flag : ℕ} (data : List UInt8)
    (habs : ∀ e ∈ c.logTable.entries, e.flag ≠ flag) :
    probeAndLogData c data flag = some (false, c) := by
  rcases findFlag_cases h.table flag with ⟨i, e, _, he, hef, _⟩ | ⟨hnone, _⟩
  · exact absurd hef (habs e (List.mem_of_getElem? he))
  · simp only [probeAndLogData, hnone, Option.bind_eq_bind, Option.bind_some]

theorem findFlag_eq_of_first {t : LogTable} (h : t.Valid) {flag i : ℕ} {e : LogTableElement}
    (hfirst : FirstWithFlag t flag i e) : findFlag t flag 0 t.curPos = some (some i) := by
  obtain ⟨he, hef, hmin⟩ := hfirst
  rcases findFlag_cases h flag with ⟨k, e', hk, he', hef', hmin'⟩ | ⟨_, habs⟩
  · rcases Nat.lt_trichotomy i k with hik | rfl | hik
    · exact absurd hef (hmin' i hik e he)
    · exact hk
    · exact absurd hef' (hmin k hik e' he')
  · exact absurd hef (habs e (List.mem_of_getElem? he))

theorem probeAndLogData_mismatch {c : CommLog} (h : c.Valid) {flag i : ℕ} {e : LogTableElement}
    {data : List UInt8} (hfirst : FirstWithFlag c.logTable flag i e)
    (hlen : e.length ≠ data.length) : probeAndLogData c data flag = none := by
  have hi : i < c.logTable.curPos := by
    rw [← LogTable.entries_length h.table]
    exact (List.getElem?_eq_some_iff.mp hfirst.1).1
  simp only [probeAndLogData, findFlag_eq_of_first h.table hfirst, Option.bind_eq_bind,
    Option.bind_some, LogTable.read_eq h.table hi, hfirst.1, ne_eq, hlen, not_false_eq_true,
    if_true]

theorem probeAndLogData_completes {c : CommLog} (h : c.Valid) {flag i : ℕ} {e : LogTableElement}
    (data : List UInt8) (hfirst : FirstWithFlag c.logTable flag i e)
    (hlen : e.length = data.length) :
    ∃ c', probeAndLogData c data flag = some (true, c') ∧ Completes c c' i e data := by
  have he := hfirst.1
  have hi : i < c.logTable.curPos := by
    rw [← LogTable.entries_length h.table]
    exact (List.getElem?_eq_some_iff.mp he).1
  have hfit : e.pos + data.length ≤ c.logQueue.queueSize := by
    have := h.within e (List.mem_of_getElem? he)
    have := h.queue.inUse
    omega
  have hfit' : e.pos + data.length ≤ c.logQueue.bytes.length := by rw [h.queue.size]; exact hfit
  obtain ⟨t, hw, htv, _, hent⟩ := LogTable.write_spec h.table hi { e with completed := true }
  obtain ⟨q, hq, hqv, hcur, hbytes⟩ : ∃ q : LogQueue,
      (if data.length ≠ 0 then c.logQueue.write e.pos data else some c.logQueue) = some q ∧
      q.Valid ∧ q.curPos = c.logQueue.curPos ∧ q.bytes = splice c.logQueue.bytes e.pos data := by
    by_cases hz : data.length = 0
    · have hnil : data = [] := List.length_eq_zero_iff.mp hz
      subst hnil
      exact ⟨c.logQueue, rfl, h.queue, rfl, (splice_nil _ _).symm⟩
    · obtain ⟨q, hq, hqv, hcur, _, hbytes⟩ := LogQueue.write_spec h.queue hfit
      exact ⟨q, by rw [if_pos hz, hq], hqv, hcur, hbytes⟩
  refine ⟨{ c with logTable := t, logQueue := q }, ?_, ?_, hent, ?_, ?_⟩
  · have hlen' : ¬ e.length ≠ data.length := fun hne => hne hlen
    simp only [probeAndLogData, findFlag_eq_of_first h.table hfirst, Option.bind_eq_bind,
      Option.bind_some, LogTable.read_eq h.table hi, he, if_neg hlen', hw, hq]
  · exact valid_of_set h { e with completed := true } he rfl rfl htv hqv hcur hent
  · change slice q.bytes e.pos e.length = data
    rw [hbytes, hlen, slice_splice_same hfit']
  · intro j e' hji he'
    change slice q.bytes e'.pos e'.length = _
    rw [hbytes]
    rcases Nat.lt_or_gt_of_ne hji with hji | hji
    · exact slice_splice_before hfit' (ordered_pos h hji he' he)
    · exact slice_splice_after hfit' (hlen ▸ ordered_pos h hji he he')

/-- An entry after one service, and whether the replay moves on to the next entry. -/
def served (e : LogTableElement) : LogTableElement × Bool :=
  if e.isrepeated then
    if e.reexecCounter + 1 = e.counter then ({ e with reexecCounter := 0 }, true)
    else ({ e with reexecCounter := e.reexecCounter + 1 }, false)
  else (e, true)

theorem served_last {e : LogTableElement} (hrep : e.isrepeated = true)
    (hlast : e.reexecCounter + 1 = e.counter) : served e = ({ e with reexecCounter := 0 }, true) := by
  rw [served, if_pos hrep, if_pos hlast]

theorem served_more {e : LogTableElement} (hrep : e.isrepeated = true)
    (hmore : e.reexecCounter + 1 ≠ e.counter) :
    served e = ({ e with reexecCounter := e.reexecCounter + 1 }, false) := by
  rw [served, if_pos hrep, if_neg hmore]

theorem served_single {e : LogTableElement} (hrep : ¬ e.isrepeated = true) :
    served e = (e, true) := by
  rw [served, if_neg hrep]

theorem served_pos (e : LogTableElement) : (served e).1.pos = e.pos := by
  unfold served
  split_ifs <;> rfl

theorem served_length (e : LogTableElement) : (served e).1.length = e.length := by
  unfold served
  split_ifs <;> rfl

theorem advance_spec {c : CommLog} (h : c.Valid) {e : LogTableElement}
    (he : c.logTable.entries[c.logTableReexecPos]? = some e) :
    ∃ t, advance c e = some { c with
        logTable := t
        logTableReexecPos := c.logTableReexecPos + if (served e).2 then 1 else 0 } ∧
      t.Valid ∧ t.curPos = c.logTable.curPos ∧
      t.entries = c.logTable.entries.set c.logTableReexecPos (served e).1 := by
  have hi : c.logTableReexecPos < c.logTable.curPos := by
    rw [← LogTable.entries_length h.table]
    exact (List.getElem?_eq_some_iff.mp he).1
  by_cases hrep : e.isrepeated = true
  · by_cases hlast : e.reexecCounter + 1 = e.counter
    · have hs := served_last hrep hlast
      obtain ⟨t, hw, htv, hcur, hent⟩ := LogTable.write_spec h.table hi (served e).1
      refine ⟨t, ?_, htv, hcur, hent⟩
      rw [hs] at hw ⊢
      rw [advance, if_pos hrep, if_pos hlast, hw]
      rfl
    · have hs := served_more hrep hlast
      obtain ⟨t, hw, htv, hcur, hent⟩ := LogTable.write_spec h.table hi (served e).1
      refine ⟨t, ?_, htv, hcur, hent⟩
      rw [hs] at hw ⊢
      rw [advance, if_pos hrep, if_neg hlast, hw]
      rfl
  · have hs := served_single hrep
    refine ⟨c.logTable, ?_, h.table, rfl, ?_⟩
    · rw [advance, if_neg hrep, hs]
      rfl
    · rw [hs]
      obtain ⟨hlt, hget⟩ := List.getElem?_eq_some_iff.mp he
      rw [← hget, List.set_getElem_self]

/-- The calls of a replay: `ReadData` and `ProbeData`, each with its length. -/
inductive ReplayCall where
  | read (length : ℕ)
  | probe (length : ℕ)
  deriving DecidableEq, Repr

def ReplayCall.length : ReplayCall → ℕ
  | .read n | .probe n => n

/-- The answer to a call that meets an entry which is not completed. -/
def ReplayCall.incomplete : ReplayCall → CommLogErrT
  | .read _ => .missing
  | .probe _ => .error

def ReplayCall.delivers (x : ReplayCall) (payload : List UInt8) : List UInt8 :=
  match x with
  | .read _ => payload
  | .probe _ => []

def call (c : CommLog) : ReplayCall → Option ReadResult
  | .read n => readData c n
  | .probe n => probeData c n

theorem call_at_end {c : CommLog} (hend : c.logTableReexecPos = c.logTable.curPos)
    (x : ReplayCall) :
    call c x = some (.commLogModeFlip, [], { c with commLogMode := .generateLog }) := by
  cases x with
  | read n => simp [call, readData, checkEntry, hend, flipMode]
  | probe n => simp [call, probeData, checkEntry, hend, flipMode]

theorem checkEntry_eq {c : CommLog} (h : c.Valid) {e : LogTableElement}
    (he : c.logTable.entries[c.logTableReexecPos]? = some e) (n : ℕ) (err : CommLogErrT) :
    checkEntry c n err = if n ≠ e.length then none
      else if e.completed = false then some (.inl err) else some (.inr e) := by
  have hi : c.logTableReexecPos < c.logTable.curPos := by
    rw [← LogTable.entries_length h.table]
    exact (List.getElem?_eq_some_iff.mp he).1
  rw [checkEntry, if_neg (by omega), if_neg (by omega), LogTable.read_eq h.table hi, he]
  rfl

theorem call_mismatch {c : CommLog} (h : c.Valid) {e : LogTableElement}
    (he : c.logTable.entries[c.logTableReexecPos]? = some e) {x : ReplayCall}
    (hlen : x.length ≠ e.length) : call c x = none := by
  cases x with
  | read n =>
      rw [ReplayCall.length] at hlen
      rw [call, readData, checkEntry_eq h he, if_pos hlen]
      rfl
  | probe n =>
      rw [ReplayCall.length] at hlen
      rw [call, probeData, checkEntry_eq h he, if_pos hlen]
      rfl

theorem call_incomplete {c : CommLog} (h : c.Valid) {e : LogTableElement}
    (he : c.logTable.entries[c.logTableReexecPos]? = some e) {x : ReplayCall}
    (hlen : x.length = e.length) (hcomp : e.completed = false) :
    call c x = some (x.incomplete, [], c) := by
  have hlen' : ¬ x.length ≠ e.length := fun hne => hne hlen
  cases x with
  | read n =>
      rw [ReplayCall.length] at hlen'
      rw [call, readData, checkEntry_eq h he, if_neg hlen', if_pos hcomp]
      rfl
  | probe n =>
      rw [ReplayCall.length] at hlen'
      rw [call, probeData, checkEntry_eq h he, if_neg hlen', if_pos hcomp]
      rfl

theorem call_serves {c : CommLog} (h : c.Valid) {e : LogTableElement}
    (he : c.logTable.entries[c.logTableReexecPos]? = some e) {x : ReplayCall}
    (hlen : x.length = e.length) (hcomp : e.completed = true) :
    ∃ t, call c x = some (.ok, x.delivers (slice c.logQueue.bytes e.pos e.length),
        { c with
          logTable := t
          logTableReexecPos := c.logTableReexecPos + if (served e).2 then 1 else 0 }) ∧
      t.Valid ∧ t.curPos = c.logTable.curPos ∧
      t.entries = c.logTable.entries.set c.logTableReexecPos (served e).1 := by
  obtain ⟨t, hadv, htv, hcur, hent⟩ := advance_spec h he
  have hlen' : ¬ x.length ≠ e.length := fun hne => hne hlen
  have hcomp' : ¬ e.completed = false := by rw [hcomp]; exact Bool.noConfusion
  have hread : c.logQueue.read e.pos e.length =
      some (slice c.logQueue.bytes e.pos e.length) := by
    have := h.within e (List.mem_of_getElem? he)
    have := h.queue.inUse
    exact LogQueue.read_eq h.queue (by omega)
  refine ⟨t, ?_, htv, hcur, hent⟩
  cases x with
  | read n =>
      rw [ReplayCall.length] at hlen hlen'
      rw [call, readData, checkEntry_eq h he, if_neg hlen', if_neg hcomp']
      simp only [Option.bind_eq_bind, Option.bind_some, hread, hadv, ReplayCall.delivers]
      by_cases hz : n = 0
      · have hez : e.length = 0 := hlen.symm.trans hz
        simp only [hz, ne_eq, not_true_eq_false, if_false, Option.bind_some, hez, slice,
          List.take_zero]
      · simp only [ne_eq, hz, not_false_eq_true, if_true, Option.bind_some]
  | probe n =>
      rw [ReplayCall.length] at hlen'
      rw [call, probeData, checkEntry_eq h he, if_neg hlen', if_neg hcomp']
      simp only [Option.bind_eq_bind, Option.bind_some, hadv, ReplayCall.delivers]

end CommLog

end CDRuntime
