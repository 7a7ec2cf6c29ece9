import CDRuntime.ChildLogs
import CDRuntime.CommLogPacked

namespace CDRuntime.Pending
open Splice CommLog Runs ChildLogs

/-- A domain on the path to the root. Only a relaxed one has a log. -/
inductive Domain where
  | relaxed (log : CommLog)
  | strict (owner : OwnerCD)

namespace Domain

def incompleteLog : Domain → List IncompleteLogEntry
  | relaxed log => log.myCd.incompleteLog
  | strict owner => owner.incompleteLog

def setIncompleteLog (rs : List IncompleteLogEntry) : Domain → Domain
  | relaxed log => relaxed { log with myCd := { log.myCd with incompleteLog := rs } }
  | strict owner => strict { owner with incompleteLog := rs }

end Domain

/-- The `n` bytes at `addr`. -/
def bytesAt (mem : ℕ → UInt8) (addr n : ℕ) : List UInt8 :=
  (List.range n).map fun i => mem (addr + i)

/-- The first note with the flag, from the active domain upwards. -/
def findRecord (flag : ℕ) (path : List Domain) : Option IncompleteLogEntry :=
  (path.flatMap Domain.incompleteLog).find? fun r => r.flag == flag

/-- `incomplete_log_.erase(it)`, where `it` is the note that `findRecord` has found. -/
def eraseRecord (flag : ℕ) : List Domain → List Domain
  | [] => []
  | d :: ds =>
      if d.incompleteLog.any fun r => r.flag == flag then
        d.setIncompleteLog (d.incompleteLog.eraseP fun r => r.flag == flag) :: ds
      else d :: eraseRecord flag ds

/-- The loop over the parents, which ends at the first one that is not relaxed. -/
def probeParents (data : List UInt8) (flag : ℕ) : List Domain → Option (List Domain)
  | [] => some []
  | .strict owner :: ds => some (.strict owner :: ds)
  | .relaxed log :: ds => do
      let (found, log) ← probeAndLogDataPacked log data flag
      if found then some (.relaxed log :: ds)
      else (probeParents data flag ds).map (Domain.relaxed log :: ·)

def completeEntry (data : List UInt8) (flag : ℕ) (log : CommLog) (parents : List Domain) :
    Option (CommLog × List Domain) := do
  let (found, log) ← CommLog.probeAndLogData log data flag
  if found then some (log, parents) else (probeParents data flag parents).map (Prod.mk log)

/-- `CD::ProbeAndLogData`, called from the first domain of the path. -/
def probeAndLogData (mem : ℕ → UInt8) (flag : ℕ) (path : List Domain) : Option (List Domain) :=
  match path with
  | [] => none
  | .strict _ :: _ => some (eraseRecord flag path)
  | .relaxed log :: parents => do
      let r ← findRecord flag path
      let (log, parents) ← (if r.intraCdMsg then some (log, parents)
        else completeEntry (bytesAt mem r.addr r.length) flag log parents)
      let (_, log) ← logData log flag [] { taskID := r.taskID }
      some (eraseRecord flag (.relaxed log :: parents))

/-- What `CompleteLogs` of `own` does to its parent in `kExecution`. -/
def completeLogs : Domain → Domain → Option Domain
  | .relaxed own, .relaxed parent => do
      let parent ← pushLogs own parent
      some (.relaxed { parent with myCd := { parent.myCd with
        incompleteLog := parent.myCd.incompleteLog ++ own.myCd.incompleteLog } })
  | .relaxed own, .strict owner =>
      some (.strict { owner with incompleteLog := owner.incompleteLog ++ own.myCd.incompleteLog })
  | .strict _, parent => some parent

inductive Op where
  | log (ptr : ℕ) (data : List UInt8) (args : LogArgs)
  /-- `Begin` of a child of the active domain. -/
  | enter (d : Domain)
  /-- `Complete` of the active domain. -/
  | complete
  | probe (mem : ℕ → UInt8) (flag : ℕ)

/-- The domains from the active one to the root, and where one request is: the level of the
domain that has its note, and the records around its entry in the log of that domain, the
outermost first, by their ids and offsets. -/
structure State where
  path : List Domain
  level : ℕ
  place : List (CDID × ℕ)

def logStep (ptr : ℕ) (data : List UInt8) (args : LogArgs) : List Domain → Option (List Domain)
  | .relaxed log :: ds => (logData log ptr data args).map fun r => .relaxed r.2 :: ds
  | _ => none

def completeStep : List Domain → Option (List Domain)
  | own :: parent :: ds => (completeLogs own parent).map (· :: ds)
  | _ => none

def recordPlace : List Domain → List (CDID × ℕ)
  | .relaxed own :: .relaxed parent :: _ => [(own.myCd.cdId, parent.childLog.curPos)]
  | _ => []

def step (st : State) : Op → Option State
  | .log ptr data args => (logStep ptr data args st.path).map fun path => { st with path }
  | .enter d => some { st with path := d :: st.path }
  | .complete => (completeStep st.path).map fun path =>
      if st.path.length = st.level + 1 then
        { path, level := st.level - 1, place := recordPlace st.path ++ st.place }
      else { st with path }
  | .probe mem flag => (probeAndLogData mem flag st.path).map fun path => { st with path }

/-- `P` holds of the packed log at `place` in `q`. -/
def AtPlace (P : CommLog → Prop) : List (CDID × ℕ) → CommLog → Prop
  | [], q => P q
  | x :: place, q => ∃ cs n c, HoldsLogs q cs ∧ cs[n]? = some c ∧
      x = (c.myCd.cdId, recordAt (cs.take n)) ∧ AtPlace P place c

def HasEntry (i : ℕ) (e : LogTableElement) (c : CommLog) : Prop := c.logTable.entries[i]? = some e

/-- The entry is in the log, with `data` in its range of the queue. -/
def HasPayload (i : ℕ) (e : LogTableElement) (data : List UInt8) (c : CommLog) : Prop :=
  c.logTable.entries[i]? = some e ∧ e.pos + e.length ≤ c.logQueue.curPos ∧
    slice c.logQueue.bytes e.pos e.length = data

/-- The log at `place`, unpacked as re-created children do it, one below the other. -/
def unpackDown : List (CDID × ℕ) → CommLog → Option CommLog
  | [], q => some q
  | (id, start) :: place, q => do
      let child := create ⟨id, []⟩ .replayLog q.queueSizeUnit q.tableSizeUnit q.childLogSizeUnit
      let (_, child) ← unpackLogs child q.childLog.buffer start
      unpackDown place child

/-- `q'` is `q` with the entry at `place` completed, and no other one changed. -/
def CompletesAt (i : ℕ) (e : LogTableElement) (data : List UInt8) :
    List (CDID × ℕ) → CommLog → CommLog → Prop
  | [], q, q' => Completes q q' i e data ∧ q'.childLog = q.childLog ∧ q'.myCd = q.myCd
  | x :: place, q, q' => ∃ cs n c c', HoldsLogs q cs ∧ cs[n]? = some c ∧
      x = (c.myCd.cdId, recordAt (cs.take n)) ∧ HoldsLogs q' (cs.set n c') ∧
      q'.logTable = q.logTable ∧ q'.logQueue = q.logQueue ∧ q'.myCd = q.myCd ∧
      CompletesAt i e data place c c'

/-- The request is settled in `path'`: its entry is completed with `data` and no other entry is
changed, the active domain has logged the end of the wait, the note is gone, and unpacking
gives the completed entry. -/
def Settled (flag : ℕ) (st : State) (i : ℕ) (e : LogTableElement) (r : IncompleteLogEntry)
    (data : List UInt8) (path' : List Domain) : Prop :=
  ∃ k p p₁ mid q a b, st.path[k]? = some (.relaxed p) ∧ k + st.level + 1 = st.path.length ∧
    CompletesAt i e data st.place p p₁ ∧
    logStep flag [] { taskID := r.taskID } (st.path.set k (.relaxed p₁)) = some mid ∧
    mid[k]? = some (.relaxed q) ∧ q.myCd.incompleteLog = a ++ r :: b ∧
    path' = mid.set k ((Domain.relaxed q).setIncompleteLog (a ++ b)) ∧
    ∃ q' d, path'[k]? = some (.relaxed q') ∧ unpackDown st.place q' = some d ∧
      HasPayload i { e with completed := true } data d

/-- No table that is packed directly into the domain has the flag. -/
def PackedFree (flag : ℕ) : Domain → Prop
  | .relaxed q => ∃ cs, HoldsLogs q cs ∧ ∀ c ∈ cs, FlagFree flag c
  | .strict _ => False

def PackedFirst (flag i : ℕ) (e : LogTableElement) (place : List (CDID × ℕ)) (q : CommLog) : Prop :=
  ∃ cs n c, place = [(c.myCd.cdId, recordAt (cs.take n))] ∧ HoldsLogs q cs ∧ cs[n]? = some c ∧
    (∀ x ∈ cs.take n, FlagFree flag x) ∧ FirstWithFlag c.logTable flag i e

/-- The entry is in the own table of the active domain, or packed once into a domain above it, and
is the first one with the flag that the search comes to. -/
def Reached (flag : ℕ) (st : State) (i : ℕ) (e : LogTableElement) : Prop :=
  ∃ k p, st.path[k]? = some (.relaxed p) ∧ k + st.level + 1 = st.path.length ∧
    ((k = 0 ∧ st.place = [] ∧ FirstWithFlag p.logTable flag i e) ∨
      ∃ q, st.path[0]? = some (.relaxed q) ∧ 0 < k ∧ FlagFree flag q ∧
        (∀ d ∈ (st.path.take k).drop 1, PackedFree flag d) ∧ PackedFirst flag i e st.place p)

structure SoundLog (c : CommLog) : Prop where
  valid : c.Valid
  unit : 0 < c.childLogSizeUnit
  holds : ∃ cs, HoldsLogs c cs

def Domain.Sound : Domain → Prop
  | .relaxed log => SoundLog log
  | .strict _ => True

def InRangeEntry (e : LogTableElement) : Prop :=
  e.pos < 2 ^ 64 ∧ e.length < 2 ^ 64 ∧ e.flag < 2 ^ 64 ∧ e.counter < 2 ^ 64 ∧
    e.reexecCounter < 2 ^ 64 ∧ e.taskID < 2 ^ 32

instance (e : LogTableElement) : Decidable (InRangeEntry e) :=
  inferInstanceAs (Decidable (_ ∧ _))

/-- The numbers of a log are values of their C types, and so is the size of its record. -/
def InRange (c : CommLog) : Prop :=
  c.logTable.tableSize < 2 ^ 64 ∧ c.logQueue.queueSize < 2 ^ 64 ∧ c.childLog.size < 2 ^ 64 ∧
    packLength c < 2 ^ 64 ∧ ∀ e ∈ c.logTable.entries, InRangeEntry e

instance (c : CommLog) : Decidable (InRange c) := inferInstanceAs (Decidable (_ ∧ _))

/-- A log that is packed is in range, and notes go to a relaxed domain only. -/
def CompletesProperly : List Domain → Prop
  | .relaxed own :: .relaxed _ :: _ => InRange own
  | .relaxed own :: .strict _ :: _ => own.myCd.incompleteLog = []
  | _ => True

instance : ∀ path, Decidable (CompletesProperly path)
  | .relaxed own :: .relaxed _ :: _ => inferInstanceAs (Decidable (InRange own))
  | .relaxed own :: .strict _ :: _ => inferInstanceAs (Decidable (own.myCd.incompleteLog = []))
  | [] => .isTrue trivial
  | [.relaxed _] => .isTrue trivial
  | .strict _ :: _ => .isTrue trivial

/-- What the rest of the program does while request `flag` is outstanding. A request is not
started again before it is complete, a domain enters without notes, what is packed is in the
range of its C types, and requests are handed on between relaxed domains. -/
def Proper (flag : ℕ) (st : State) : Op → Prop
  | .log _ _ args => args.completed = false →
      ∀ d ∈ st.path, ∀ r ∈ d.incompleteLog, r.flag ≠ args.flag
  | .enter d => d.Sound ∧ d.incompleteLog = []
  | .complete => CompletesProperly st.path
  | .probe _ g => g ≠ flag

def EntryInv (i : ℕ) (e : LogTableElement) (st : State) : Prop :=
  (∀ d ∈ st.path, d.Sound) ∧ ∃ k p, st.path[k]? = some (.relaxed p) ∧
    k + st.level + 1 = st.path.length ∧ p.newLogGenerated = true ∧
    AtPlace (HasEntry i e) st.place p

theorem fits_of_inRange {e : LogTableElement} (h : InRangeEntry e) :
    LogTableElement.layout.Fits e := by
  obtain ⟨h₁, h₂, h₃, h₄, h₅, h₆⟩ := h
  have h64 : (256 : ℕ) ^ 8 = 2 ^ 64 := by decide
  have h32 : (256 : ℕ) ^ 4 = 2 ^ 32 := by decide
  rw [← h64] at h₁ h₂ h₃ h₄ h₅
  rw [← h32] at h₆
  exact ⟨h₁, h₂, Layout.bool_fits _, h₃, h₄, h₅, Layout.bool_fits _, h₆⟩

theorem packable_of_inRange {c : CommLog} (hs : SoundLog c) (h : InRange c) : Packable c := by
  obtain ⟨htable, hqueue, hchild, hlength, hentries⟩ := h
  obtain ⟨cs, hcs⟩ := hs.holds
  have h64 : (2 : ℕ) ^ 64 = 256 ^ 8 := by decide
  rw [h64] at htable hqueue hchild hlength
  have ht := hs.valid.table
  have hq := hs.valid.queue
  have hc : c.childLog.curPos ≤ c.childLog.buffer.length ∧ c.childLog.curPos ≤ c.childLog.size := by
    obtain ⟨hpos, hf | ⟨rfl, -⟩⟩ := hcs.pushed
    · have := hf.fits
      have := hf.size
      have := hf.pos
      omega
    · rw [List.flatMap_nil, List.length_nil] at hpos
      omega
  exact {
    tableRead := by rw [ht.size]; exact ht.inUse
    tableRoom := ht.inUse
    tableFits := fun e he => fits_of_inRange (hentries e he)
    tableHeader := ⟨Nat.lt_of_le_of_lt ht.inUse htable, htable⟩
    queueRead := by rw [hq.size]; exact hq.inUse
    queueRoom := hq.inUse
    queueHeader := ⟨Nat.lt_of_le_of_lt hq.inUse hqueue, hqueue⟩
    childRead := hc.1
    childRoom := hc.2
    childHeader := ⟨hchild, Nat.lt_of_le_of_lt hc.2 hchild⟩
    length := hlength }

section OneLog

variable {P : CommLog → Prop} {q q' : CommLog}

theorem holdsLogs_of_childLog (h : q'.childLog = q.childLog) {cs : List CommLog}
    (hq : HoldsLogs q cs) : HoldsLogs q' cs := by
  refine ⟨?_, hq.packable, hq.valid⟩
  have hp := hq.pushed
  unfold Pushed at hp ⊢
  rwa [h]

theorem atPlace_of_childLog (h : q'.childLog = q.childLog) {x : CDID × ℕ}
    {place : List (CDID × ℕ)} (hat : AtPlace P (x :: place) q) : AtPlace P (x :: place) q' := by
  obtain ⟨cs, n, c, hh, hc, hx, hrest⟩ := hat
  exact ⟨cs, n, c, holdsLogs_of_childLog h hh, hc, hx, hrest⟩

theorem atPlace_of_append {own : CommLog}
    (h : ∀ cs, HoldsLogs q cs → HoldsLogs q' (cs ++ [own])) (hP : P q → P q') :
    ∀ place, AtPlace P place q → AtPlace P place q'
  | [], hq => hP hq
  | _ :: _, ⟨cs, n, c, hh, hc, hx, hrest⟩ => by
      have hn : n < cs.length := (List.getElem?_eq_some_iff.mp hc).1
      refine ⟨cs ++ [own], n, c, h cs hh, ?_, ?_, hrest⟩
      · rw [List.getElem?_append_left hn, hc]
      · rw [hx, List.take_append_of_le_length (Nat.le_of_lt hn)]

end OneLog

theorem recordAt_set {c' : CommLog} :
    ∀ (cs : List CommLog) (n : ℕ),
      (∀ c, cs[n]? = some c → (packedRecord c').length = (packedRecord c).length) →
      recordAt (cs.set n c') = recordAt cs
  | [], _, _ => rfl
  | c :: cs, 0, h => by
      have := h c rfl
      simp only [recordAt, List.set_cons_zero, List.flatMap_cons, List.length_append, this]
  | c :: cs, n + 1, h => by
      have ih := recordAt_set cs n fun d hd => h d (by rwa [List.getElem?_cons_succ])
      simp only [recordAt, List.set_cons_succ, List.flatMap_cons, List.length_append] at ih ⊢
      rw [ih]

section OneProbe

variable {i : ℕ} {e : LogTableElement} {q q' : CommLog} {data : List UInt8} {flag : ℕ}
  {found : Bool} {place : List (CDID × ℕ)}

theorem probePacked_frame (hs : SoundLog q)
    (h : probeAndLogDataPacked q data flag = some (found, q')) :
    SoundLog q' ∧ q'.myCd = q.myCd ∧ q'.logTable = q.logTable ∧ q'.logQueue = q.logQueue ∧
      q'.newLogGenerated = q.newLogGenerated := by
  obtain ⟨cs, hcs⟩ := hs.holds
  rcases probeAndLogDataPacked_cases hcs h with
    ⟨-, rfl, -⟩ | ⟨-, n, c, j, e', b, -, -, -, -, rfl, hholds⟩
  · exact ⟨hs, rfl, rfl, rfl, rfl⟩
  · have hv := hs.valid
    exact ⟨⟨⟨hv.table, hv.queue, hv.within, hv.ordered⟩, hs.unit, _, hholds⟩, rfl, rfl, rfl, rfl⟩

theorem atPlace_probePacked (hs : SoundLog q)
    (h : probeAndLogDataPacked q data flag = some (found, q'))
    (hat : AtPlace (HasEntry i e) place q) :
    AtPlace (HasEntry i e) place q' ∨ PackedFirst flag i e place q := by
  obtain ⟨-, -, htable, -, -⟩ := probePacked_frame hs h
  cases place with
  | nil =>
      refine Or.inl ?_
      change q'.logTable.entries[i]? = some e
      rw [htable]
      exact hat
  | cons x place =>
      obtain ⟨cs, n, c, hh, hc, hx, hrest⟩ := hat
      rcases probeAndLogDataPacked_cases hh h with
        ⟨-, rfl, -⟩ | ⟨-, m, c₀, i₀, e₀, b, hm, hfree, hfirst, hlen, -, hholds⟩
      · exact Or.inl ⟨cs, n, c, hh, hc, hx, hrest⟩
      have hv₀ := hh.valid c₀ (List.mem_of_getElem? hm)
      have hp₀ := hh.packable c₀ (List.mem_of_getElem? hm)
      have hv₁ := (completedLog_completes hv₀ hfirst hlen).valid
      have hp₁ := completedLog_packable hp₀ hv₁ (List.mem_of_getElem? hfirst.1)
      have hoff : recordAt ((cs.set m (completedLog c₀ i₀ e₀ data)).take n) =
          recordAt (cs.take n) := by
        rw [List.take_set]
        apply recordAt_set
        intro d hd
        have hd' : cs[m]? = some d := by
          obtain ⟨hlt, hget⟩ := List.getElem?_eq_some_iff.mp hd
          rw [List.length_take] at hlt
          rw [← hd, List.getElem?_take_of_lt (by omega)]
        rw [Option.some.inj (hd'.symm.trans hm)]
        exact packedRecord_completedLog_length hp₀ hp₁
      by_cases hmn : m = n
      · subst hmn
        obtain rfl : c₀ = c := Option.some.inj (hm.symm.trans hc)
        have hset : (cs.set m (completedLog c₀ i₀ e₀ data))[m]? =
            some (completedLog c₀ i₀ e₀ data) := by
          rw [List.getElem?_set_self (List.getElem?_eq_some_iff.mp hm).1]
        cases place with
        | nil =>
            by_cases hi : i₀ = i
            · subst hi
              have he : e₀ = e := Option.some.inj (hfirst.1.symm.trans hrest)
              subst he
              exact Or.inr ⟨cs, m, c₀, by rw [hx], hh, hc, hfree, hfirst⟩
            · refine Or.inl ⟨_, m, _, hholds, hset, by rw [hoff, hx]; rfl, ?_⟩
              change (completedLog c₀ i₀ e₀ data).logTable.entries[i]? = some e
              rw [completedLog_entries, List.getElem?_set_ne hi]
              exact hrest
        | cons y place =>
            have hsame : (completedLog c₀ i₀ e₀ data).childLog = c₀.childLog := rfl
            exact Or.inl ⟨_, m, _, hholds, hset, by rw [hoff, hx]; rfl,
              atPlace_of_childLog hsame hrest⟩
      · refine Or.inl ⟨_, n, c, hholds, ?_, by rw [hoff, hx], hrest⟩
        rw [List.getElem?_set_ne hmn, hc]

end OneProbe

theorem soundLog_setNotes {q : CommLog} (h : SoundLog q) (rs : List IncompleteLogEntry) :
    SoundLog { q with myCd := { q.myCd with incompleteLog := rs } } := by
  obtain ⟨cs, hcs⟩ := h.holds
  have hv := h.valid
  exact ⟨⟨hv.table, hv.queue, hv.within, hv.ordered⟩, h.unit, cs, hcs.pushed, hcs.packable,
    hcs.valid⟩

theorem atPlace_setNotes {P : CommLog → Prop} {q : CommLog} {rs : List IncompleteLogEntry}
    (hP : P q → P { q with myCd := { q.myCd with incompleteLog := rs } })
    {place : List (CDID × ℕ)} (h : AtPlace P place q) :
    AtPlace P place { q with myCd := { q.myCd with incompleteLog := rs } } := by
  cases place with
  | nil => exact hP h
  | cons x place =>
      obtain ⟨gs, n, c, hh, hrest⟩ := h
      exact ⟨gs, n, c, ⟨hh.pushed, hh.packable, hh.valid⟩, hrest⟩

section Search

variable {i : ℕ} {e : LogTableElement} {data : List UInt8} {flag : ℕ} {st : State}

theorem packedFree_of_cases {q : CommLog} (hs : SoundLog q)
    (h : probeAndLogDataPacked q data flag = some (false, q)) : PackedFree flag (.relaxed q) := by
  obtain ⟨cs, hcs⟩ := hs.holds
  rcases probeAndLogDataPacked_cases hcs h with ⟨-, -, hfree⟩ | ⟨hfound, -⟩
  · exact ⟨cs, hcs, hfree⟩
  · cases hfound

theorem probeParents_cases (ds : List Domain) :
    ∀ ds', (∀ d ∈ ds, d.Sound) → probeParents data flag ds = some ds' →
      ds' = ds ∨ ∃ n q q', ds[n]? = some (.relaxed q) ∧ (∀ d ∈ ds.take n, PackedFree flag d) ∧
        probeAndLogDataPacked q data flag = some (true, q') ∧ ds' = ds.set n (.relaxed q') := by
  induction ds with
  | nil =>
      intro ds' _ h
      exact Or.inl (Option.some.inj h).symm
  | cons d ds ih =>
      intro ds' hs h
      cases d with
      | strict owner => exact Or.inl (Option.some.inj h).symm
      | relaxed q =>
          have hq : SoundLog q := hs _ List.mem_cons_self
          obtain ⟨⟨found, q'⟩, hprobe, hrest⟩ := Option.bind_eq_some_iff.mp h
          cases found with
          | true =>
              refine Or.inr ⟨0, q, q', rfl, by simp, hprobe, ?_⟩
              exact (Option.some.inj hrest).symm
          | false =>
              obtain ⟨ds₁, hds₁, rfl⟩ := Option.map_eq_some_iff.mp hrest
              have hsame : q' = q := by
                obtain ⟨cs, hcs⟩ := hq.holds
                rcases probeAndLogDataPacked_cases hcs hprobe with ⟨-, hsame, -⟩ | ⟨hfound, -⟩
                · exact hsame
                · cases hfound
              subst hsame
              rcases ih ds₁ (fun x hx => hs x (List.mem_cons_of_mem _ hx)) hds₁ with
                rfl | ⟨n, r, r', hr, hfree, hpr, rfl⟩
              · exact Or.inl rfl
              · refine Or.inr ⟨n + 1, r, r', hr, ?_, hpr, rfl⟩
                intro x hx
                rw [List.take_succ_cons, List.mem_cons] at hx
                rcases hx with rfl | hx
                · exact packedFree_of_cases hq hprobe
                · exact hfree x hx

theorem completeEntry_cases {log log' : CommLog} {parents parents' : List Domain}
    (hs : ∀ d ∈ Domain.relaxed log :: parents, d.Sound)
    (h : completeEntry data flag log parents = some (log', parents')) :
    (parents' = parents ∧ ∃ j e', FirstWithFlag log.logTable flag j e' ∧ e'.length = data.length ∧
      log' = completedLog log j e' data) ∨
    (log' = log ∧ FlagFree flag log ∧ (parents' = parents ∨ ∃ n q q',
      parents[n]? = some (.relaxed q) ∧ (∀ d ∈ parents.take n, PackedFree flag d) ∧
      probeAndLogDataPacked q data flag = some (true, q') ∧
      parents' = parents.set n (.relaxed q'))) := by
  have hlog : SoundLog log := hs _ List.mem_cons_self
  obtain ⟨⟨found, l⟩, hprobe, hrest⟩ := Option.bind_eq_some_iff.mp h
  rcases probeAndLogData_cases hlog.valid hprobe with
    ⟨rfl, rfl, hfree⟩ | ⟨rfl, j, e', hfirst, hlen, rfl⟩
  · obtain ⟨ps, hps, heq⟩ := Option.map_eq_some_iff.mp hrest
    rw [Prod.mk.injEq] at heq
    obtain ⟨rfl, rfl⟩ := heq
    exact Or.inr ⟨rfl, hfree, probeParents_cases parents ps
      (fun x hx => hs x (List.mem_cons_of_mem _ hx)) hps⟩
  · have heq := Option.some.inj hrest
    rw [Prod.mk.injEq] at heq
    exact Or.inl ⟨heq.2.symm, j, e', hfirst, hlen, heq.1.symm⟩

/-- One log on the path is replaced. -/
theorem EntryInv.set (h : EntryInv i e st) {n : ℕ} {q q' : CommLog}
    (hq : st.path[n]? = some (.relaxed q)) (hs : SoundLog q')
    (hnew : q.newLogGenerated = true → q'.newLogGenerated = true)
    (hat : n + st.level + 1 = st.path.length → AtPlace (HasEntry i e) st.place q →
      AtPlace (HasEntry i e) st.place q') :
    EntryInv i e { st with path := st.path.set n (.relaxed q') } := by
  obtain ⟨hsound, k, p, hp, hk, hgen, hplace⟩ := h
  constructor
  · intro d hd
    rcases List.mem_or_eq_of_mem_set hd with hd | rfl
    · exact hsound d hd
    · exact hs
  by_cases hnk : n = k
  · subst hnk
    rw [hp, Option.some.injEq, Domain.relaxed.injEq] at hq
    subst hq
    refine ⟨n, q', ?_, ?_, hnew hgen, hat hk hplace⟩
    · exact List.getElem?_set_self (List.getElem?_eq_some_iff.mp hp).1
    · rw [hk, List.length_set]
  · refine ⟨k, p, ?_, ?_, hgen, hplace⟩
    · rw [List.getElem?_set_ne hnk, hp]
    · rw [hk, List.length_set]

theorem entryInv_completeEntry (h : EntryInv i e st) {log log' : CommLog}
    {parents parents' : List Domain} (hpath : st.path = .relaxed log :: parents)
    (hc : completeEntry data flag log parents = some (log', parents')) :
    EntryInv i e { st with path := .relaxed log' :: parents' } ∨ Reached flag st i e := by
  have hsound := h.1
  rw [hpath] at hsound
  have hlog : SoundLog log := hsound _ List.mem_cons_self
  have hhead : st.path[0]? = some (.relaxed log) := by rw [hpath]; rfl
  rcases completeEntry_cases hsound hc with
    ⟨rfl, j, e', hfirst, hlen, rfl⟩ | ⟨rfl, hfree, rfl | ⟨n, q, q', hq, hpf, hprobe, rfl⟩⟩
  · -- an entry of the own table
    have hcomp := completedLog_completes hlog.valid hfirst hlen
    have hsame : (completedLog log j e' data).childLog = log.childLog := rfl
    obtain ⟨cs, hcs⟩ := hlog.holds
    have hs' : SoundLog (completedLog log j e' data) :=
      ⟨hcomp.valid, hlog.unit, cs, holdsLogs_of_childLog hsame hcs⟩
    by_cases hhit : st.place = [] ∧ 0 + st.level + 1 = st.path.length ∧ j = i
    · obtain ⟨hnil, hk, rfl⟩ := hhit
      obtain ⟨-, k, p, hp, hk', -, hplace⟩ := h
      obtain rfl : k = 0 := by omega
      rw [hhead, Option.some.injEq, Domain.relaxed.injEq] at hp
      subst hp
      rw [hnil] at hplace
      have he : e' = e := Option.some.inj (hfirst.1.symm.trans hplace)
      subst he
      exact Or.inr ⟨0, log, hhead, hk, Or.inl ⟨rfl, hnil, hfirst⟩⟩
    · have hset := h.set hhead hs' id fun hk hat => ?_
      · rw [hpath] at hset
        exact Or.inl hset
      · cases hplace : st.place with
        | nil =>
            have hji : j ≠ i := fun hji => hhit ⟨hplace, hk, hji⟩
            rw [hplace] at hat
            change (completedLog log j e' data).logTable.entries[i]? = some e
            rw [completedLog_entries, List.getElem?_set_ne hji]
            exact hat
        | cons x place =>
            rw [hplace] at hat
            exact atPlace_of_childLog hsame hat
  · rw [← hpath]
    exact Or.inl h
  · -- an entry of a packed table
    have hq' : st.path[n + 1]? = some (.relaxed q) := by
      rw [hpath, List.getElem?_cons_succ, hq]
    have hqs : SoundLog q := h.1 _ (List.mem_of_getElem? hq')
    obtain ⟨hs', -, -, -, hgen⟩ := probePacked_frame hqs hprobe
    by_cases hhit : n + 1 + st.level + 1 = st.path.length ∧ PackedFirst flag i e st.place q
    · refine Or.inr ⟨n + 1, q, hq', hhit.1, Or.inr ⟨log', hhead, by omega, hfree, ?_, hhit.2⟩⟩
      rw [hpath, List.take_succ_cons, List.drop_one, List.tail_cons]
      exact hpf
    · have hset := h.set hq' hs' (fun hg => hgen.trans hg) fun hk hat => ?_
      · rw [hpath, List.set_cons_succ] at hset
        exact Or.inl hset
      · rcases atPlace_probePacked hqs hprobe hat with hat' | hfirst
        · exact hat'
        · exact absurd ⟨hk, hfirst⟩ hhit

end Search

end CDRuntime.Pending
