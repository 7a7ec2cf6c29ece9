import CDRuntime.CommLogContents
import CDRuntime.MpiWrappers

namespace CDRuntime.CommLog

theorem writeLogTable_mode {c c' : CommLog} {taskID n flag : ℕ} {completed isrepeated : Bool}
    {err : CommLogErrT} (h : c.writeLogTable taskID n completed flag isrepeated = some (err, c')) :
    c'.commLogMode = c.commLogMode := by
  obtain ⟨t, -, h⟩ := Option.bind_eq_some_iff.mp h
  obtain ⟨t', -, h⟩ := Option.bind_eq_some_iff.mp h
  obtain ⟨-, rfl⟩ := Prod.mk.inj (Option.some.inj h)
  rfl

theorem writeLogQueue_mode {c c' : CommLog} {data : List UInt8} {completed : Bool}
    {err : CommLogErrT} (h : c.writeLogQueue data completed = some (err, c')) :
    c'.commLogMode = c.commLogMode := by
  obtain ⟨q, -, h⟩ := Option.bind_eq_some_iff.mp h
  obtain ⟨q', -, h⟩ := Option.bind_eq_some_iff.mp h
  obtain ⟨-, rfl⟩ := Prod.mk.inj (Option.some.inj h)
  rfl

theorem logData_mode {c c' : CommLog} {ptr : ℕ} {data : List UInt8} {a : LogArgs}
    {err : CommLogErrT} (h : c.logData ptr data a = some (err, c')) :
    c'.commLogMode = c.commLogMode := by
  obtain ⟨found, -, h⟩ := Option.bind_eq_some_iff.mp h
  cases found with
  | true =>
      obtain ⟨e, -, h⟩ := Option.bind_eq_some_iff.mp h
      obtain ⟨t, -, h⟩ := Option.bind_eq_some_iff.mp h
      obtain ⟨-, rfl⟩ := Prod.mk.inj (Option.some.inj h)
      rfl
  | false =>
      obtain ⟨⟨err₁, c₁⟩, htable, h⟩ := Option.bind_eq_some_iff.mp h
      obtain ⟨c₂, hqueue, h⟩ := Option.bind_eq_some_iff.mp h
      obtain ⟨-, rfl⟩ := Prod.mk.inj (Option.some.inj h)
      have hc₂ : c₂.commLogMode = c₁.commLogMode := by
        split_ifs at hqueue with hne
        · obtain ⟨⟨err₂, c₃⟩, hwrite, rfl⟩ := Option.map_eq_some_iff.mp hqueue
          exact writeLogQueue_mode hwrite
        · rw [Option.some.inj hqueue]
      exact hc₂.trans (writeLogTable_mode htable)

end CDRuntime.CommLog

namespace CDRuntime.Mpi
open Splice CommLog Pending

/-- What one call of `LogData` has logged. The payload of an operation in flight is `none`. -/
structure Slot where
  flag : ℕ
  addr : ℕ
  length : ℕ
  payload : Option (List UInt8)

def Slot.record (s : Slot) : Record := ⟨s.flag, s.length, s.payload⟩

def LogCall.slot (mem : Memory) (l : LogCall) : Slot :=
  ⟨l.args.flag, l.addr, l.length,
    if l.args.completed then some (bytesAt mem l.addr l.length) else none⟩

/-- The end of a request. -/
def Slot.event (request : ℕ) : Slot := ⟨0, request, 0, some []⟩

/-- The slot after the requests have been completed: the bytes are those that are at the address
then. -/
def Slot.settle (mem : Memory) (requests : List ℕ) (s : Slot) : Slot :=
  if s.payload = none ∧ s.flag ∈ requests then
    { s with payload := some (bytesAt mem s.addr s.length) }
  else s

def noteSlot (r : IncompleteLogEntry) : Slot := ⟨r.flag, r.addr, r.length, none⟩

theorem Slot.settle_of_done {mem : Memory} {requests : List ℕ} {s : Slot}
    (h : s.payload ≠ none) : s.settle mem requests = s := by
  rw [settle, if_neg fun hs => h hs.1]

@[simp] theorem Slot.settle_event (mem : Memory) (requests : List ℕ) (request : ℕ) :
    (event request).settle mem requests = event request :=
  settle_of_done (by simp [event])

@[simp] theorem Slot.settle_nil (mem : Memory) : Slot.settle mem [] = id := by
  funext s
  rw [settle, if_neg fun hs => absurd hs.2 List.not_mem_nil]
  rfl

theorem Slot.settle_settle (mem : Memory) (rs rs' : List ℕ) (s : Slot) :
    (s.settle mem rs).settle mem rs' = s.settle mem (rs ++ rs') := by
  unfold settle
  by_cases hnone : s.payload = none
  · by_cases hrs : s.flag ∈ rs
    · simp [hnone, hrs]
    · simp [hnone, hrs]
  · simp [hnone]

theorem bytesAt_length (mem : Memory) (addr n : ℕ) : (bytesAt mem addr n).length = n := by
  simp [bytesAt]

structure Logged (c : CommLog) (tape : List Slot) : Prop extends Counted c where
  mode : c.commLogMode = .generateLog
  contents : CommLog.contents c = tape.map Slot.record
  fresh : Unshadowed c.logTable.entries

/-- The notes of the domain are the slots of the tape that wait. -/
structure Recorded (c : CommLog) (tape : List Slot) : Prop extends Logged c tape where
  notes : c.myCd.incompleteLog.map noteSlot = tape.filter fun s => s.payload.isNone
  distinct : (c.myCd.incompleteLog.map IncompleteLogEntry.flag).Nodup
  interCd : ∀ r ∈ c.myCd.incompleteLog, r.intraCdMsg = false

/-- A call of `LogData` that adds to the log what it is called with: the length is one of an object,
an entry that waits has a flag that the log does not have yet, and a repeated entry comes behind
another entry and is not merged with one of other bytes. -/
structure Loggable (c : CommLog) (mem : Memory) (l : LogCall) : Prop where
  room : l.length < 2 ^ 63
  fresh : l.args.completed = false → ∀ e ∈ c.logTable.entries, e.flag ≠ l.args.flag
  same : l.args.isrepeated = true → ∃ e, c.logTable.entries.getLast? = some e ∧
    (e.isrepeated = true → slice c.logQueue.bytes e.pos e.length = bytesAt mem l.addr l.length)

instance (c : CommLog) (mem : Memory) (l : LogCall) : Decidable (Loggable c mem l) :=
  decidable_of_iff
    (l.length < 2 ^ 63 ∧
      (l.args.completed = false → ∀ e ∈ c.logTable.entries, e.flag ≠ l.args.flag) ∧
      (l.args.isrepeated = true → ∃ e ∈ c.logTable.entries.getLast?,
        e.isrepeated = true →
          slice c.logQueue.bytes e.pos e.length = bytesAt mem l.addr l.length))
    ⟨fun ⟨hroom, hfresh, hsame⟩ => ⟨hroom, hfresh, hsame⟩,
      fun ⟨hroom, hfresh, hsame⟩ => ⟨hroom, hfresh, hsame⟩⟩

section Log

variable {c c' : CommLog} {tape : List Slot} {mem : Memory} {l : LogCall}

theorem record_mem (h : Recorded c tape) {s : Slot} (hs : s ∈ tape) :
    ∃ e ∈ c.logTable.entries, recordOf c.logQueue.bytes e = s.record := by
  have hmem : s.record ∈ CommLog.contents c := by
    rw [h.contents]
    exact List.mem_map_of_mem hs
  obtain ⟨e, he, hrec⟩ := List.mem_flatMap.mp hmem
  exact ⟨e, he, (List.mem_replicate.mp hrec).2.symm⟩

theorem entry_of_note (h : Recorded c tape) {r : IncompleteLogEntry}
    (hr : r ∈ c.myCd.incompleteLog) :
    ∃ e ∈ c.logTable.entries, e.flag = r.flag ∧ e.length = r.length ∧ e.completed = false := by
  have hslot : noteSlot r ∈ tape.filter fun s => s.payload.isNone := by
    rw [← h.notes]
    exact List.mem_map_of_mem hr
  obtain ⟨e, he, hrec⟩ := record_mem h (List.mem_filter.mp hslot).1
  rw [recordOf, Slot.record, noteSlot, Record.mk.injEq] at hrec
  obtain ⟨hflag, hlen, hpay⟩ := hrec
  refine ⟨e, he, hflag, hlen, ?_⟩
  by_contra hcomp
  rw [if_pos (by simpa using hcomp)] at hpay
  cases hpay

theorem Logged.append (h : Logged c tape)
    (happ : Appends c c' (bytesAt mem l.addr l.length) l.args)
    (hmode : c'.commLogMode = c.commLogMode)
    (hfresh : l.args.completed = false → ∀ e ∈ c.logTable.entries, e.flag ≠ l.args.flag) :
    Logged c' (tape ++ [l.slot mem]) := by
  refine ⟨appends_counted h.toCounted happ, hmode.trans h.mode, ?_,
    unshadowed_appends h.fresh happ hfresh⟩
  rw [contents_appends h.toValid happ, h.contents, List.map_append, newRecord, bytesAt_length]
  rfl

theorem Recorded.append (h : Recorded c tape)
    (hnew : l.args.isrepeated = false ∨
      foundRepeatedEntry c l.length l.args.completed l.args.flag = some false)
    (hfresh : l.args.completed = false → ∀ e ∈ c.logTable.entries, e.flag ≠ l.args.flag)
    (hinter : l.args.intraCdMsg = false) :
    ∃ c', logData c l.addr (bytesAt mem l.addr l.length) l.args = some (.ok, c') ∧
      Recorded c' (tape ++ [l.slot mem]) := by
  have hlen := bytesAt_length mem l.addr l.length
  obtain ⟨c', hc', happ⟩ := logData_appends h.toValid l.addr (bytesAt mem l.addr l.length)
    (a := l.args) (by rwa [hlen])
  obtain ⟨-, -, hcase⟩ := logData_cases h.toValid hc'
  have hnotes : c'.myCd.incompleteLog = c.myCd.incompleteLog ++
      if l.args.completed then [] else [newNote l.addr l.length l.args] := by
    rcases hcase with ⟨-, -, j, e, -, -, hset⟩ | ⟨-, -, hnotes⟩
    · exact absurd hset (happ.not_set _ _)
    · rwa [hlen] at hnotes
  refine ⟨c', hc', h.toLogged.append happ (logData_mode hc') hfresh, ?_, ?_, ?_⟩
  · rw [hnotes, List.map_append, h.notes, List.filter_append]
    congr 1
    cases hcomp : l.args.completed with
    | true => simp [LogCall.slot, hcomp]
    | false => simp [LogCall.slot, hcomp, newNote, noteSlot]
  · rw [hnotes, List.map_append, List.nodup_append]
    refine ⟨h.distinct, ?_, ?_⟩
    · split_ifs
      · exact List.nodup_nil
      · exact List.nodup_singleton _
    · intro f hf f' hf'
      split_ifs at hf' with hcomp
      · exact absurd hf' List.not_mem_nil
      · obtain rfl : f' = l.args.flag := List.mem_singleton.mp hf'
        obtain ⟨r, hr, rfl⟩ := List.mem_map.mp hf
        obtain ⟨e, he, hflag, -⟩ := entry_of_note h hr
        rw [← hflag]
        exact hfresh (by simpa using hcomp) e he
  · intro r hr
    rw [hnotes, List.mem_append] at hr
    rcases hr with hr | hr
    · exact h.interCd r hr
    · split_ifs at hr with hcomp
      · exact absurd hr List.not_mem_nil
      · rw [List.mem_singleton.mp hr]
        exact hinter

/-- A repeated entry is counted up: the slot holds the bytes of the first one. -/
theorem Recorded.again (h : Recorded c tape) (hrep : l.args.isrepeated = true)
    (hcomp : l.args.completed = true)
    (hfound : foundRepeatedEntry c l.length l.args.completed l.args.flag = some true)
    (hsame : ∀ e, c.logTable.entries.getLast? = some e → e.isrepeated = true →
      slice c.logQueue.bytes e.pos e.length = bytesAt mem l.addr l.length) :
    ∃ c', logData c l.addr (bytesAt mem l.addr l.length) l.args = some (.ok, c') ∧
      Recorded c' (tape ++ [l.slot mem]) := by
  have hlen := bytesAt_length mem l.addr l.length
  obtain ⟨c', e, hc', he, htv, hqueue, hent⟩ := logData_repeats h.toValid l.addr
    (bytesAt mem l.addr l.length) hrep (by rwa [hlen])
  have hmem := List.mem_of_getElem? he
  -- the entry is the one that `FoundRepeatedEntry` has compared
  obtain ⟨herep, helen, hecomp, heflag⟩ := repeated_of_found h.toValid he hfound
  have hlast : c.logTable.entries.getLast? = some e := by
    rw [List.getLast?_eq_getElem?, LogTable.entries_length h.table]
    exact he
  have hv : c'.Valid := valid_of_set h.toValid { e with counter := e.counter + 1 } he rfl rfl htv
    (hqueue ▸ h.queue) (by rw [hqueue]) hent
  obtain ⟨-, -, hcase⟩ := logData_cases h.toValid hc'
  have hmy : c'.myCd = c.myCd := by
    rcases hcase with ⟨hmy, -⟩ | ⟨happ, -⟩
    · exact hmy
    · exact absurd hent (happ.not_set _ _)
  refine ⟨c', hc', ⟨counted_of_set h.toCounted hv hent (h.rewound e hmem) (Nat.succ_pos _),
    (logData_mode hc').trans h.mode, ?_, ?_⟩, ?_, ?_, ?_⟩
  · have hslot : recordOf c.logQueue.bytes e = (l.slot mem).record := by
      rw [recordOf, Slot.record, LogCall.slot, hsame e hlast herep, hecomp, helen, heflag]
    rw [contents_repeats herep hlast hqueue (by rw [hent, LogTable.entries_length h.table]),
      h.contents, List.map_append, hslot]
    rfl
  · rw [hent]
    exact unshadowed_set h.fresh he rfl id
  · rw [hmy, h.notes, List.filter_append]
    simp [LogCall.slot, hcomp]
  · rw [hmy]
    exact h.distinct
  · rw [hmy]
    exact h.interCd

theorem Recorded.log (h : Recorded c tape) (hl : Loggable c mem l)
    (hinter : l.args.intraCdMsg = false)
    (hrep : l.args.isrepeated = true → l.args.completed = true) :
    ∃ c', logData c l.addr (bytesAt mem l.addr l.length) l.args = some (.ok, c') ∧
      Recorded c' (tape ++ [l.slot mem]) := by
  by_cases hr : l.args.isrepeated = true
  · obtain ⟨e, hlast, hsame⟩ := hl.same hr
    have hne : c.logTable.curPos ≠ 0 := by
      intro hz
      rw [LogTable.entries, hz, List.take_zero] at hlast
      cases hlast
    have hread : c.logTable.read (c.logTable.curPos - 1) = some e := by
      rw [LogTable.read_eq h.table (by omega), ← LogTable.entries_length h.table,
        ← List.getLast?_eq_getElem?]
      exact hlast
    obtain ⟨found, hfound⟩ : ∃ found,
        foundRepeatedEntry c l.length l.args.completed l.args.flag = some found := by
      rw [foundRepeatedEntry, if_neg hne, hread]
      exact ⟨_, rfl⟩
    cases found with
    | true =>
        refine h.again hr (hrep hr) hfound fun e' he' => ?_
        obtain rfl : e' = e := Option.some.inj (he'.symm.trans hlast)
        exact hsame
    | false => exact h.append (Or.inr hfound) hl.fresh hinter
  · exact h.append (Or.inl (by simpa using hr)) hl.fresh hinter

end Log

section Complete

variable {c : CommLog} {tape : List Slot} {mem : Memory} {request : ℕ}

theorem eraseP_eq_filter {rs : List IncompleteLogEntry}
    (h : (rs.map IncompleteLogEntry.flag).Nodup) :
    (rs.eraseP fun r => r.flag == request) = rs.filter fun r => r.flag != request := by
  induction rs with
  | nil => rfl
  | cons r rs ih =>
      rw [List.map_cons, List.nodup_cons] at h
      by_cases hr : r.flag = request
      · have hrest : rs.filter (fun r => r.flag != request) = rs := by
          rw [List.filter_eq_self]
          intro x hx
          have hne : x.flag ≠ request := fun hx' =>
            h.1 (List.mem_map.mpr ⟨x, hx, hx'.trans hr.symm⟩)
          simpa using hne
        rw [List.eraseP_cons_of_pos (by simpa using hr),
          List.filter_cons_of_neg (by simpa using hr), hrest]
      · rw [List.eraseP_cons_of_neg (by simpa using hr),
          List.filter_cons_of_pos (by simpa using hr), ih h.2]

theorem slot_of_note (h : Recorded c tape) {r : IncompleteLogEntry}
    (hr : r ∈ c.myCd.incompleteLog) {s : Slot} (hs : s ∈ tape) (hnone : s.payload = none)
    (hflag : s.flag = r.flag) : s = noteSlot r := by
  have hmem : s ∈ tape.filter fun s => s.payload.isNone :=
    List.mem_filter.mpr ⟨hs, by rw [hnone]; rfl⟩
  rw [← h.notes] at hmem
  obtain ⟨r', hr', rfl⟩ := List.mem_map.mp hmem
  rw [List.inj_on_of_nodup_map h.distinct hr' hr hflag]

theorem settle_record (h : Recorded c tape) {r : IncompleteLogEntry}
    (hr : r ∈ c.myCd.incompleteLog) {s : Slot} (hs : s ∈ tape) :
    (s.settle mem [r.flag]).record =
      s.record.complete r.flag (bytesAt mem r.addr r.length) := by
  rw [Slot.settle, Record.complete]
  by_cases hout : s.payload = none ∧ s.flag = r.flag
  · obtain rfl := slot_of_note h hr hs hout.1 hout.2
    rw [if_pos ⟨rfl, List.mem_singleton_self _⟩, if_pos ⟨rfl, rfl⟩]
    rfl
  · rw [if_neg fun hc => hout ⟨hc.1, List.mem_singleton.mp hc.2⟩,
      if_neg fun hc => hout ⟨hc.2, hc.1⟩]

theorem waiting_settle (mem : Memory) (request : ℕ) (tape : List Slot) :
    (tape.map (Slot.settle mem [request])).filter (fun s => s.payload.isNone) =
      (tape.filter fun s => s.payload.isNone).filter fun s => s.flag != request := by
  induction tape with
  | nil => rfl
  | cons s tape ih =>
      rw [List.map_cons]
      cases hpay : s.payload with
      | some bytes =>
          rw [Slot.settle_of_done (by rw [hpay]; simp), List.filter_cons_of_neg (by simp [hpay]),
            List.filter_cons_of_neg (by simp [hpay]), ih]
      | none =>
          rw [List.filter_cons_of_pos (l := tape) (by simp [hpay])]
          by_cases hflag : s.flag = request
          · rw [Slot.settle, if_pos ⟨hpay, by simpa using hflag⟩,
              List.filter_cons_of_neg (by simp), List.filter_cons_of_neg (by simpa using hflag),
              ih]
          · rw [Slot.settle, if_neg (by simp [hflag]), List.filter_cons_of_pos (by simp [hpay]),
              List.filter_cons_of_pos (by simpa using hflag), ih]

/-- The entry of a noted request is the one that the search by flag finds. -/
theorem Recorded.completes (h : Recorded c tape) (mem : Memory) {r : IncompleteLogEntry}
    (hr : r ∈ c.myCd.incompleteLog) :
    ∃ c', CommLog.probeAndLogData c (bytesAt mem r.addr r.length) r.flag = some (true, c') ∧
      Logged c' (tape.map (Slot.settle mem [r.flag])) ∧ c'.myCd = c.myCd := by
  obtain ⟨e, he, heflag, helen, hcomp⟩ := entry_of_note h hr
  obtain ⟨i, hi⟩ := List.mem_iff_getElem?.mp he
  have hfirst := first_of_unshadowed h.fresh hi hcomp
  rw [heflag] at hfirst
  have hlen : e.length = (bytesAt mem r.addr r.length).length := by rw [helen, bytesAt_length]
  have hc := completedLog_completes h.toValid hfirst hlen
  refine ⟨completedLog c i e (bytesAt mem r.addr r.length),
    probeAndLogData_eq_completedLog h.toValid hfirst hlen,
    ⟨counted_of_set h.toCounted hc.valid hc.entries (h.rewound e he) (h.counted e he), h.mode,
      ?_, ?_⟩, rfl⟩
  · rw [contents_completes h.fresh hi hcomp hc, heflag, h.contents, List.map_map, List.map_map]
    exact List.map_congr_left fun s hs => (settle_record h hr hs).symm
  · rw [hc.entries]
    exact unshadowed_set h.fresh hi rfl fun hc => absurd hc (by simp)

theorem Logged.setNotes (h : Logged c tape) (rs : List IncompleteLogEntry) :
    Logged { c with myCd := { c.myCd with incompleteLog := rs } } tape :=
  ⟨⟨⟨h.table, h.queue, h.within, h.ordered⟩, h.rewound, h.counted⟩, h.mode, h.contents, h.fresh⟩

/-- `ProbeAndLogData` on a request of the domain completes its slot and logs the event. -/
theorem Recorded.complete (h : Recorded c tape) (mem : Memory) (parents : List Domain)
    (hnote : ∃ r ∈ c.myCd.incompleteLog, r.flag = request) :
    ∃ c', Pending.probeAndLogData mem request (.relaxed c :: parents) =
        some (.relaxed c' :: parents) ∧
      Recorded c' (tape.map (Slot.settle mem [request]) ++ [Slot.event request]) ∧
      c'.myCd.incompleteLog = c.myCd.incompleteLog.filter fun r => r.flag != request := by
  obtain ⟨r₀, hr₀, hr₀flag⟩ := hnote
  obtain ⟨r, hfind⟩ : ∃ r, (c.myCd.incompleteLog.find? fun r => r.flag == request) = some r :=
    Option.isSome_iff_exists.mp
      (List.find?_isSome.mpr ⟨r₀, hr₀, by simpa using hr₀flag⟩)
  have hr := List.mem_of_find?_eq_some hfind
  obtain rfl : r.flag = request := by simpa using List.find?_some hfind
  obtain ⟨c₁, hprobe, h₁, hmy₁⟩ := h.completes mem hr
  obtain ⟨c₂, hc₂, happ⟩ := logData_appends h₁.toValid r.flag [] (a := { taskID := r.taskID })
    (Or.inl rfl)
  have hslot : Slot.event r.flag = LogCall.slot mem ⟨r.flag, 0, { taskID := r.taskID }⟩ := rfl
  have h₂ : Logged c₂ (tape.map (Slot.settle mem [r.flag]) ++ [Slot.event r.flag]) := by
    rw [hslot]
    exact h₁.append happ (logData_mode hc₂) fun hc => absurd hc (by simp)
  have hmy₂ : c₂.myCd.incompleteLog = c.myCd.incompleteLog := by
    rw [notes_logData h₁.toValid rfl hc₂, hmy₁]
  have herase : (c₂.myCd.incompleteLog.eraseP fun x => x.flag == r.flag) =
      c.myCd.incompleteLog.filter fun x => x.flag != r.flag := by
    rw [hmy₂]
    exact eraseP_eq_filter h.distinct
  refine ⟨_, ?_, ⟨h₂.setNotes (c.myCd.incompleteLog.filter fun x => x.flag != r.flag),
    ?_, ?_, ?_⟩, rfl⟩
  · have hrec : findRecord r.flag (.relaxed c :: parents) = some r := by
      rw [findRecord, List.flatMap_cons, List.find?_append, Domain.incompleteLog, hfind]
      rfl
    have hany : (c₂.myCd.incompleteLog.any fun x => x.flag == r.flag) = true := by
      rw [hmy₂]
      exact List.any_eq_true.mpr ⟨r, hr, by simp⟩
    simp only [Pending.probeAndLogData, hrec, h.interCd r hr, completeEntry, hprobe,
      Option.bind_eq_bind, Option.bind_some, if_true, Bool.false_eq_true, if_false, hc₂,
      eraseRecord, hany, Domain.incompleteLog, herase]
    rfl
  · change (c.myCd.incompleteLog.filter fun x => x.flag != r.flag).map noteSlot = _
    rw [List.filter_append, waiting_settle, ← h.notes, List.filter_map]
    simp [Slot.event, Function.comp_def, noteSlot]
  · exact h.distinct.sublist ((List.filter_sublist).map _)
  · intro x hx
    exact h.interCd x (List.mem_filter.mp hx).1

end Complete

def Fits (n : ℤ) : Prop := -2 ^ 31 ≤ n ∧ n < 2 ^ 31

instance (n : ℤ) : Decidable (Fits n) := inferInstanceAs (Decidable (_ ∧ _))

theorem int_eq {n : ℤ} (h : Fits n) : int n = n := Int32.toInt_ofInt_of_le h.1 h.2

theorem uint64_eq {n : ℤ} (hle : 0 ≤ n) (hlt : n < 2 ^ 64) : uint64 n = n.toNat := by
  rw [uint64, Int.emod_eq_of_lt hle hlt]

/-- The elements of an `MPI_Allgather` are as large as a handle, or there are none. -/
def Call.HandleSized (h : Handles) : Call → Prop
  | allgather _ recvcnt t comm =>
      Fits (comm.size * recvcnt) ∧ Fits (comm.size * recvcnt * t.size) ∧
        (comm.size * recvcnt = 0 ∨ t.size = h.datatype)
  | _ => True

instance (h : Handles) : ∀ c : Call, Decidable (c.HandleSized h)
  | .allgather _ recvcnt t comm => inferInstanceAs (Decidable
      (Fits (comm.size * recvcnt) ∧ Fits (comm.size * recvcnt * t.size) ∧
        (comm.size * recvcnt = 0 ∨ t.size = h.datatype)))
  | .send .. | .ssend .. | .rsend .. | .bsend .. | .recv .. | .sendrecv .. | .sendrecvReplace ..
  | .isend .. | .irecv .. | .test .. | .testall .. | .testany .. | .testsome .. | .wait ..
  | .waitall .. | .waitany .. | .waitsome .. | .barrier .. | .bcast .. | .gather .. | .gatherv ..
  | .allgatherv .. | .reduce .. | .allreduce .. | .alltoall .. | .alltoallv .. | .scatter ..
  | .scatterv .. | .reduceScatter .. | .scan .. => isTrue trivial

/-- The bytes that are asked for are those that have been logged. -/
def Wrapper.SameLength : Wrapper → Prop
  | data _ logged asked _ _ => asked = logged
  | _ => True

section Lengths

variable {h : Handles} {size recvcnt typeSize : ℤ}

theorem handlesOfAll_eq (hn : Fits (size * recvcnt)) (hk : Fits (size * recvcnt * typeSize))
    (hsized : size * recvcnt = 0 ∨ typeSize = h.datatype) :
    handlesOfAll size recvcnt h = bytesOfAll size recvcnt typeSize := by
  rw [handlesOfAll, bytesOfAll, int_eq hn, int_eq hk]
  rcases hsized with hzero | hsame
  · rw [hzero, Int.zero_mul, Int.zero_mul]
  · rw [hsame]

theorem handlesOfAll_eq_iff (hh : h.datatype < 2 ^ 32) (hn : Fits (size * recvcnt))
    (hk : Fits (size * recvcnt * typeSize)) :
    handlesOfAll size recvcnt h = bytesOfAll size recvcnt typeSize ↔
      size * recvcnt = 0 ∨ typeSize = h.datatype := by
  refine ⟨fun heq => ?_, handlesOfAll_eq hn hk⟩
  rw [handlesOfAll, bytesOfAll, int_eq hn, int_eq hk, uint64, uint64] at heq
  -- the product with the size of a handle does not leave 64 bits
  have hlow := Int.mul_le_mul_of_nonneg_right hn.1 (Int.natCast_nonneg h.datatype)
  have hhigh := Int.mul_le_mul_of_nonneg_right (Int.le_of_lt hn.2)
    (Int.natCast_nonneg h.datatype)
  obtain ⟨hkle, hklt⟩ := hk
  have hmul : size * recvcnt * (h.datatype : ℤ) = size * recvcnt * typeSize := by omega
  by_cases hzero : size * recvcnt = 0
  · exact Or.inl hzero
  · exact Or.inr (Int.eq_of_mul_eq_mul_left hzero hmul).symm

theorem sameLength_of_handleSized {c : Call} (hsized : c.HandleSized h) :
    (c.wrapper h).SameLength := by
  cases c with
  | allgather recvbuf recvcnt t comm => exact handlesOfAll_eq hsized.1 hsized.2.1 hsized.2.2
  | gather | gatherv | reduce =>
      rw [Call.wrapper]
      split_ifs
      · rfl
      · trivial
  | recv | bcast | allgatherv | allreduce | alltoall | alltoallv | scatter | scatterv
  | reduceScatter | scan => rfl
  | _ => trivial

/-- The type of `k` bytes without a gap. -/
def Datatype.contiguous (k : ℕ) : Datatype := ⟨(List.range k).map fun (d : ℕ) => (d : ℤ), k⟩

theorem contiguous_inside {k buf : ℕ} {n : ℤ} (hfit : n * k < 2 ^ 31) :
    ∀ a ∈ (Datatype.contiguous k).cells buf 0 n,
      buf ≤ a ∧ a < buf + bytesOf n (Datatype.contiguous k).size := by
  intro a ha
  obtain ⟨i, hi, ha⟩ := List.mem_flatMap.mp ha
  obtain ⟨z, hz, rfl⟩ := List.mem_map.mp ha
  obtain ⟨d, hd, rfl⟩ := List.mem_map.mp hz
  rw [List.mem_range] at hi hd
  have hsize : (Datatype.contiguous k).size = k := by
    simp [Datatype.size, Datatype.contiguous]
  have hnext : ((i : ℤ) + 1) * k ≤ n * k :=
    Int.mul_le_mul_of_nonneg_right (by omega) (Int.natCast_nonneg k)
  have hstart : 0 ≤ (i : ℤ) * k := Int.mul_nonneg (Int.natCast_nonneg i) (Int.natCast_nonneg k)
  rw [Int.add_mul, Int.one_mul] at hnext
  rw [hsize, bytesOf, int_eq ⟨by omega, hfit⟩, uint64_eq (by omega) (by omega)]
  change buf ≤ ((buf : ℤ) + (0 + i) * k + d).toNat ∧
    ((buf : ℤ) + (0 + i) * k + d).toNat < buf + (n * k).toNat
  rw [Int.zero_add]
  omega

end Lengths

def Wrapper.slots (w : Wrapper) (mem : Memory) : List Slot :=
  (w.logs mem).map (LogCall.slot mem) ++ (w.completes mem).map Slot.event

/-- What a call receives and completes can be had from the log again. -/
def Wrapper.Reproducible (mem : Memory) : Wrapper → Prop
  | event .. | isend .. | test .. | waitany .. => True
  | data buf logged _ _ cells => ∀ a ∈ cells, buf ≤ a ∧ a < buf + logged
  | exchange _ _ recvbuf n _ cells => ∀ a ∈ cells, recvbuf ≤ a ∧ a < recvbuf + n
  | irecv buf n _ _ _ _ cells => ∀ a ∈ cells, buf ≤ a ∧ a < buf + n
  | testany flag _ _ => intAt mem flag = 1
  | testsome outcount _ _ => intAt mem outcount ≤ 0
  | wait _ => False
  | waitall count _ => 0 < count
  | waitsome outcount _ _ => 0 ≤ intAt mem outcount

instance (mem : Memory) : ∀ w : Wrapper, Decidable (w.Reproducible mem)
  | .event .. | .isend .. | .test .. | .waitany .. => isTrue trivial
  | .wait _ => isFalse id
  | .data buf logged _ _ cells =>
      inferInstanceAs (Decidable (∀ a ∈ cells, buf ≤ a ∧ a < buf + logged))
  | .exchange _ _ recvbuf n _ cells =>
      inferInstanceAs (Decidable (∀ a ∈ cells, recvbuf ≤ a ∧ a < recvbuf + n))
  | .irecv buf n _ _ _ _ cells =>
      inferInstanceAs (Decidable (∀ a ∈ cells, buf ≤ a ∧ a < buf + n))
  | .testany flag _ _ => inferInstanceAs (Decidable (intAt mem flag = 1))
  | .testsome outcount _ _ => inferInstanceAs (Decidable (intAt mem outcount ≤ 0))
  | .waitall count _ => inferInstanceAs (Decidable (0 < count))
  | .waitsome outcount _ _ => inferInstanceAs (Decidable (0 ≤ intAt mem outcount))

/-- A call that is recorded as the replay needs it. -/
structure Admissible (h : Handles) (t : Task) (s : Step) : Prop where
  sized : s.call.HandleSized h
  reproducible : (s.call.wrapper h).Reproducible s.after
  loggable : ∀ l ∈ (s.call.wrapper h).logs s.after, Loggable t.log s.after l
  noted : ∀ request ∈ (s.call.wrapper h).completes s.after,
    ∃ r ∈ t.log.myCd.incompleteLog, r.flag = request
  once : ((s.call.wrapper h).completes s.after).Nodup

instance (h : Handles) (t : Task) (s : Step) : Decidable (Admissible h t s) :=
  decidable_of_iff (s.call.HandleSized h ∧ (s.call.wrapper h).Reproducible s.after ∧
      (∀ l ∈ (s.call.wrapper h).logs s.after, Loggable t.log s.after l) ∧
      (∀ request ∈ (s.call.wrapper h).completes s.after,
        ∃ r ∈ t.log.myCd.incompleteLog, r.flag = request) ∧
      ((s.call.wrapper h).completes s.after).Nodup)
    ⟨fun ⟨hsized, hrepr, hl, hnoted, honce⟩ => ⟨hsized, hrepr, hl, hnoted, honce⟩,
      fun ⟨hsized, hrepr, hl, hnoted, honce⟩ => ⟨hsized, hrepr, hl, hnoted, honce⟩⟩

section Call

variable {w : Wrapper} {mem : Memory} {t : Task} {tape : List Slot}

theorem logs_interCd (w : Wrapper) (mem : Memory) :
    ∀ l ∈ w.logs mem, l.args.intraCdMsg = false := by
  cases w with
  | testany flag index requests =>
      rw [Wrapper.logs]
      split_ifs <;> simp
  | _ => simp [Wrapper.logs, checkIntraCDMsg]

theorem logs_repeated (w : Wrapper) (mem : Memory) :
    ∀ l ∈ w.logs mem, l.args.isrepeated = true → l.args.completed = true := by
  cases w with
  | testany flag index requests =>
      rw [Wrapper.logs]
      split_ifs <;> simp
  | _ => simp [Wrapper.logs]

theorem logs_tail (w : Wrapper) (mem : Memory) :
    ∀ l ∈ (w.logs mem).tail, l.args.completed = true ∧ l.args.isrepeated = false := by
  cases w with
  | testany flag index requests =>
      rw [Wrapper.logs]
      split_ifs <;> simp
  | _ => simp [Wrapper.logs]

theorem logs_completed (hne : w.completes mem ≠ []) :
    ∀ l ∈ w.logs mem, l.args.completed = true := by
  cases w with
  | testany flag index requests =>
      rw [Wrapper.logs]
      split_ifs <;> simp
  | isend | irecv => exact absurd rfl hne
  | _ => simp [Wrapper.logs]

theorem slots_of_logs_completed (hne : w.completes mem ≠ []) :
    ∀ s ∈ (w.logs mem).map (LogCall.slot mem), s.payload ≠ none := by
  intro s hs
  obtain ⟨l, hl, rfl⟩ := List.mem_map.mp hs
  rw [LogCall.slot, if_pos (logs_completed hne l hl)]
  simp

theorem settle_logs (w : Wrapper) (mem : Memory) :
    ((w.logs mem).map (LogCall.slot mem)).map (Slot.settle mem (w.completes mem)) =
      (w.logs mem).map (LogCall.slot mem) := by
  conv_rhs => rw [← List.map_id ((w.logs mem).map (LogCall.slot mem))]
  refine List.map_congr_left fun s hs => ?_
  by_cases hne : w.completes mem = []
  · rw [hne, Slot.settle_nil]
  · rw [Slot.settle_of_done (slots_of_logs_completed hne s hs), id]

theorem logData_recorded {l : LogCall} (h : Recorded t.log tape) (hl : Loggable t.log t.mem l)
    (hinter : l.args.intraCdMsg = false)
    (hrep : l.args.isrepeated = true → l.args.completed = true) :
    ∃ c, t.logData l = some { t with log := c } ∧ Recorded c (tape ++ [l.slot t.mem]) := by
  obtain ⟨c, hc, hrec⟩ := h.log hl hinter hrep
  exact ⟨c, by rw [Task.logData, if_pos hl.room, hc, Option.map_some], hrec⟩

theorem logAll_plain (ls : List LogCall) : ∀ (t : Task) (tape : List Slot), Recorded t.log tape →
    (∀ l ∈ ls, l.length < 2 ^ 63) → (∀ l ∈ ls, l.args.intraCdMsg = false) →
    (∀ l ∈ ls, l.args.completed = true ∧ l.args.isrepeated = false) →
    ∃ c, ls.foldlM Task.logData t = some { t with log := c } ∧
      Recorded c (tape ++ ls.map (LogCall.slot t.mem)) := by
  induction ls with
  | nil =>
      intro t tape h _ _ _
      exact ⟨t.log, rfl, by rwa [List.map_nil, List.append_nil]⟩
  | cons l ls ih =>
      intro t tape h hroom hinter hplain
      obtain ⟨hcomp, hrep⟩ := hplain l List.mem_cons_self
      obtain ⟨c, hc, hrec⟩ := logData_recorded h
        ⟨hroom l List.mem_cons_self, fun hc => absurd hc (by simp [hcomp]),
          fun hr => absurd hr (by simp [hrep])⟩
        (hinter l List.mem_cons_self) fun _ => hcomp
      obtain ⟨c', hc', hrec'⟩ := ih { t with log := c } _ hrec
        (fun x hx => hroom x (List.mem_cons_of_mem _ hx))
        (fun x hx => hinter x (List.mem_cons_of_mem _ hx))
        fun x hx => hplain x (List.mem_cons_of_mem _ hx)
      refine ⟨c', ?_, ?_⟩
      · rw [List.foldlM_cons, hc, Option.bind_eq_bind, Option.bind_some, hc']
      · rwa [List.map_cons, List.append_cons]

theorem logAll_recorded (h : Recorded t.log tape)
    (hl : ∀ l ∈ w.logs t.mem, Loggable t.log t.mem l) :
    ∃ c, (w.logs t.mem).foldlM Task.logData t = some { t with log := c } ∧
      Recorded c (tape ++ (w.logs t.mem).map (LogCall.slot t.mem)) := by
  have hinter := logs_interCd w t.mem
  have hrep := logs_repeated w t.mem
  have htail := logs_tail w t.mem
  cases hls : w.logs t.mem with
  | nil => exact ⟨t.log, rfl, by rwa [List.map_nil, List.append_nil]⟩
  | cons l ls =>
      rw [hls] at hl hinter hrep htail
      obtain ⟨c, hc, hrec⟩ := logData_recorded h (hl l List.mem_cons_self)
        (hinter l List.mem_cons_self) (hrep l List.mem_cons_self)
      obtain ⟨c', hc', hrec'⟩ := logAll_plain ls { t with log := c } _ hrec
        (fun x hx => (hl x (List.mem_cons_of_mem _ hx)).room)
        (fun x hx => hinter x (List.mem_cons_of_mem _ hx)) htail
      refine ⟨c', ?_, ?_⟩
      · rw [List.foldlM_cons, hc, Option.bind_eq_bind, Option.bind_some, hc']
      · rwa [List.map_cons, List.append_cons]

theorem completeAll_recorded (requests : List ℕ) : ∀ (t : Task) (tape : List Slot),
    Recorded t.log tape → requests.Nodup →
    (∀ request ∈ requests, ∃ r ∈ t.log.myCd.incompleteLog, r.flag = request) →
    ∃ c, requests.foldlM Task.probeAndLogData t = some { t with log := c } ∧
      Recorded c (tape.map (Slot.settle t.mem requests) ++ requests.map Slot.event) := by
  induction requests with
  | nil =>
      intro t tape h _ _
      exact ⟨t.log, rfl, by simpa using h⟩
  | cons request requests ih =>
      intro t tape h honce hnoted
      obtain ⟨hnew, honce⟩ := List.nodup_cons.mp honce
      obtain ⟨c, hc, hrec, hnotes⟩ := h.complete t.mem t.parents
        (hnoted request List.mem_cons_self)
      have hstep : t.probeAndLogData request = some { t with log := c } := by
        rw [Task.probeAndLogData, hc]
      obtain ⟨c', hc', hrec'⟩ := ih { t with log := c } _ hrec honce fun x hx => by
        obtain ⟨r, hr, rfl⟩ := hnoted x (List.mem_cons_of_mem _ hx)
        refine ⟨r, ?_, rfl⟩
        change r ∈ c.myCd.incompleteLog
        rw [hnotes, List.mem_filter]
        exact ⟨hr, bne_iff_ne.mpr fun hsame => hnew (hsame ▸ hx)⟩
      refine ⟨c', ?_, ?_⟩
      · rw [List.foldlM_cons, hstep, Option.bind_eq_bind, Option.bind_some, hc']
      · have htape : (tape.map (Slot.settle t.mem [request]) ++ [Slot.event request]).map
            (Slot.settle t.mem requests) ++ requests.map Slot.event =
            tape.map (Slot.settle t.mem (request :: requests)) ++
              (request :: requests).map Slot.event := by
          simp [Function.comp_def, Slot.settle_settle]
        rw [← htape]
        exact hrec'

theorem Recorded.noted_append {c c' : CommLog} (h : Recorded c tape) {slots : List Slot}
    (h' : Recorded c' (tape ++ slots)) {request : ℕ}
    (hnoted : ∃ r ∈ c.myCd.incompleteLog, r.flag = request) :
    ∃ r ∈ c'.myCd.incompleteLog, r.flag = request := by
  obtain ⟨r, hr, rfl⟩ := hnoted
  have hslot : noteSlot r ∈ c'.myCd.incompleteLog.map noteSlot := by
    rw [h'.notes, List.filter_append, ← h.notes]
    exact List.mem_append_left _ (List.mem_map_of_mem hr)
  obtain ⟨r', hr', heq⟩ := List.mem_map.mp hslot
  exact ⟨r', hr', congrArg Slot.flag heq⟩

theorem recordCall_recorded (h : Recorded t.log tape)
    (hl : ∀ l ∈ w.logs t.mem, Loggable t.log t.mem l)
    (hnoted : ∀ request ∈ w.completes t.mem,
      ∃ r ∈ t.log.myCd.incompleteLog, r.flag = request)
    (honce : (w.completes t.mem).Nodup) :
    ∃ c, w.recordCall t = some { t with log := c } ∧
      Recorded c (tape.map (Slot.settle t.mem (w.completes t.mem)) ++ w.slots t.mem) := by
  obtain ⟨c, hc, hrec⟩ := logAll_recorded h hl
  obtain ⟨c', hc', hrec'⟩ := completeAll_recorded (w.completes t.mem) { t with log := c } _ hrec
    honce fun request hreq => h.noted_append hrec (hnoted request hreq)
  refine ⟨c', ?_, ?_⟩
  · rw [Wrapper.recordCall, hc, Option.bind_eq_bind, Option.bind_some, hc']
  · rw [List.map_append, settle_logs, List.append_assoc] at hrec'
    exact hrec'

end Call

section Run

variable {h : Handles} {t : Task} {s : Step} {tape : List Slot}

def settleAll (h : Handles) : List Step → Slot → Slot
  | [], x => x
  | s :: rest, x => settleAll h rest (x.settle s.after ((s.call.wrapper h).completes s.after))

def tapeOf (h : Handles) : List Step → List Slot
  | [] => []
  | s :: rest => ((s.call.wrapper h).slots s.after).map (settleAll h rest) ++ tapeOf h rest

theorem step_recorded (hrec : Recorded t.log tape) (hadm : Admissible h t s) :
    ∃ c, step h t s = some { t with log := c, mem := s.after } ∧
      Recorded c (tape.map (Slot.settle s.after ((s.call.wrapper h).completes s.after)) ++
        (s.call.wrapper h).slots s.after) := by
  obtain ⟨-, hrepr, hl, hnoted, honce⟩ := hadm
  obtain ⟨c, hc, hrec'⟩ := recordCall_recorded (t := { t with mem := s.after }) hrec hl hnoted honce
  refine ⟨c, ?_, hrec'⟩
  rw [step, hrec.mode]
  change (s.call.wrapper h).record { t with mem := s.after } = _
  unfold Wrapper.record
  split
  · next hw =>
    rw [hw] at hrepr
    exact hrepr.elim
  · next count requests hw =>
    rw [hw] at hrepr
    rw [if_pos (show 0 < count from hrepr)]
    exact hc
  · exact hc

theorem probeAndLogData_stops {request : ℕ}
    (hnone : findRecord request (.relaxed t.log :: t.parents) = none) :
    t.probeAndLogData request = none := by
  rw [Task.probeAndLogData, Pending.probeAndLogData, hnone]
  rfl

theorem wait_stops (hrec : Recorded t.log tape) {request : ℕ}
    (houter : ∀ d ∈ t.parents, ∀ r ∈ d.incompleteLog, r.flag ≠ request) :
    (Wrapper.wait request).record t = none := by
  have hnone : findRecord request
      (.relaxed (t.deleteIncompleteLog request).log :: t.parents) = none := by
    rw [findRecord, List.find?_eq_none]
    intro r hr
    rw [List.flatMap_cons, List.mem_append] at hr
    rcases hr with hr | hr
    · change r ∈ t.log.myCd.incompleteLog.eraseP (fun r => r.flag == request) at hr
      rw [eraseP_eq_filter hrec.distinct, List.mem_filter] at hr
      simpa using hr.2
    · obtain ⟨d, hd, hr⟩ := List.mem_flatMap.mp hr
      simpa using houter d hd r hr
  have hstop : (t.deleteIncompleteLog request).probeAndLogData request = none :=
    probeAndLogData_stops hnone
  change ((t.deleteIncompleteLog request).probeAndLogData request).bind _ = none
  rw [hstop]
  rfl

theorem run_recorded (steps : List Step) : ∀ (t : Task) (tape : List Slot), Recorded t.log tape →
    Runs.Attempted (step h) (Admissible h) t steps →
    ∃ t', Runs.run (step h) t steps = some t' ∧
      Recorded t'.log (tape.map (settleAll h steps) ++ tapeOf h steps) ∧
      ∀ s ∈ steps, s.call.HandleSized h ∧ (s.call.wrapper h).Reproducible s.after := by
  induction steps with
  | nil =>
      intro t tape hrec _
      refine ⟨t, rfl, ?_, fun s hs => absurd hs List.not_mem_nil⟩
      simpa [settleAll, tapeOf] using hrec
  | cons s rest ih =>
      intro t tape hrec hadm
      obtain ⟨c, hc, hrec'⟩ := step_recorded hrec hadm.1
      obtain ⟨t', ht', hfinal, hrepr⟩ := ih _ _ hrec' (hadm.2 _ hc)
      refine ⟨t', by rw [Runs.run, hc, Option.bind_some, ht'], ?_,
        List.forall_mem_cons.mpr ⟨⟨hadm.1.sized, hadm.1.reproducible⟩, hrepr⟩⟩
      rw [List.map_append, List.map_map, List.append_assoc] at hfinal
      exact hfinal

end Run

end CDRuntime.Mpi
