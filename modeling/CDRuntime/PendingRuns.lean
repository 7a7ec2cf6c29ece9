import CDRuntime.PendingRequests

namespace CDRuntime.Pending
open Splice CommLog Runs ChildLogs

section Logging

variable {c c' : CommLog} {ptr : ℕ} {data : List UInt8} {args : LogArgs} {err : CommLogErrT}

def newNote (ptr length : ℕ) (args : LogArgs) : IncompleteLogEntry :=
  { addr := ptr, length, flag := args.flag, complete := false, isrecv := args.isrecv
    taskID := args.taskID, intraCdMsg := args.intraCdMsg, tag := args.tag, comm := args.comm }

structure KeepsChildren (c c' : CommLog) : Prop where
  childLog : c'.childLog = c.childLog
  cdId : c'.myCd.cdId = c.myCd.cdId
  unit : c'.childLogSizeUnit = c.childLogSizeUnit

/-- A call of `LogData` counts a repeated entry up, or appends one. -/
theorem logData_cases (h : c.Valid) (hlog : logData c ptr data args = some (err, c')) :
    KeepsChildren c c' ∧ c'.Valid ∧
    ((c'.myCd = c.myCd ∧ c'.newLogGenerated = c.newLogGenerated ∧
        ∃ j e, e.isrepeated = true ∧ c.logTable.entries[j]? = some e ∧
          c'.logTable.entries = c.logTable.entries.set j { e with counter := e.counter + 1 }) ∨
      (Appends c c' data args ∧ c'.newLogGenerated = true ∧
        c'.myCd.incompleteLog = c.myCd.incompleteLog ++
          if args.completed then [] else [newNote ptr data.length args])) := by
  have hbind := hlog
  unfold logData at hbind
  rw [Option.bind_eq_bind, Option.bind_eq_some_iff] at hbind
  obtain ⟨found, hfound, hrest⟩ := hbind
  cases found with
  | true =>
      have hrep : args.isrepeated = true := by
        by_contra hrep
        rw [if_neg hrep] at hfound
        cases hfound
      rw [if_pos hrep] at hfound
      obtain ⟨c₁, e, hc₁, he, htv, hqueue, hent⟩ := logData_repeats h ptr data hrep hfound
      have hcc : c₁ = c' := by
        rw [hc₁, Option.some.injEq, Prod.mk.injEq] at hlog
        exact hlog.2
      subst hcc
      obtain ⟨herep, -⟩ := repeated_of_found h he hfound
      have hv : c₁.Valid := valid_of_set h { e with counter := e.counter + 1 } he rfl rfl htv
        (hqueue ▸ h.queue) (by rw [hqueue]) hent
      rw [if_pos rfl] at hrest
      obtain ⟨e₁, -, hrest⟩ := Option.bind_eq_some_iff.mp hrest
      obtain ⟨t, -, heq⟩ := Option.bind_eq_some_iff.mp hrest
      rw [Option.some.injEq, Prod.mk.injEq] at heq
      obtain ⟨-, rfl⟩ := heq
      exact ⟨⟨rfl, rfl, rfl⟩, hv, Or.inl ⟨rfl, rfl, _, e, herep, he, hent⟩⟩
  | false =>
      have hnew : args.isrepeated = false ∨
          foundRepeatedEntry c data.length args.completed args.flag = some false := by
        by_cases hrep : args.isrepeated = true
        · rw [if_pos hrep] at hfound
          exact Or.inr hfound
        · exact Or.inl (Bool.eq_false_of_not_eq_true hrep)
      obtain ⟨c₁, hc₁, happ⟩ := logData_appends h ptr data hnew
      have hcc : c₁ = c' := by
        rw [hc₁, Option.some.injEq, Prod.mk.injEq] at hlog
        exact hlog.2
      subst hcc
      obtain ⟨t, ht, htv, -⟩ := writeLogTable_spec h.table data.length args
      rw [if_neg Bool.false_ne_true, ht, Option.bind_eq_bind, Option.bind_some] at hrest
      obtain ⟨c₂, hc₂, heq⟩ := Option.bind_eq_some_iff.mp hrest
      have hform : ∃ q, c₂ = { c with logTable := t, logQueue := q } := by
        by_cases hz : data.length = 0
        · rw [if_neg (not_not_intro hz), Option.some.injEq] at hc₂
          exact ⟨c.logQueue, hc₂.symm⟩
        · obtain ⟨q, hq, -⟩ :=
            writeLogQueue_spec (c := { c with logTable := t }) h.queue data args.completed
          rw [if_pos hz, hq, Option.map_some, Option.some.injEq] at hc₂
          exact ⟨q, hc₂.symm⟩
      obtain ⟨q, rfl⟩ := hform
      rw [Option.some.injEq, Prod.mk.injEq] at heq
      obtain ⟨-, rfl⟩ := heq
      refine ⟨⟨rfl, rfl, rfl⟩, happ.valid, Or.inr ⟨happ, rfl, ?_⟩⟩
      cases hcomp : args.completed with
      | true => simp [noteEntry, hcomp]
      | false => simp [noteEntry, hcomp, newNote]

theorem soundLog_logData (h : SoundLog c) (hlog : logData c ptr data args = some (err, c')) :
    SoundLog c' := by
  obtain ⟨hkeep, hv, -⟩ := logData_cases h.valid hlog
  obtain ⟨cs, hcs⟩ := h.holds
  refine ⟨hv, ?_, cs, holdsLogs_of_childLog hkeep.childLog hcs⟩
  rw [hkeep.unit]
  exact h.unit

theorem notes_logData (hv : c.Valid) (hcomp : args.completed = true)
    (hlog : logData c ptr data args = some (err, c')) :
    c'.myCd.incompleteLog = c.myCd.incompleteLog := by
  obtain ⟨-, -, ⟨hsame, -⟩ | ⟨-, -, happ⟩⟩ := logData_cases hv hlog
  · rw [hsame]
  · rw [happ, if_pos hcomp, List.append_nil]

theorem hasEntry_logData {i : ℕ} {e : LogTableElement} (hv : c.Valid) (hrep : e.isrepeated = false)
    (hlog : logData c ptr data args = some (err, c')) (he : HasEntry i e c) : HasEntry i e c' := by
  unfold HasEntry at he ⊢
  obtain ⟨-, -, ⟨-, -, j, e', hrep', he', hent⟩ | ⟨happ, -⟩⟩ := logData_cases hv hlog
  · have hji : j ≠ i := by
      rintro rfl
      rw [Option.some.inj (he.symm.trans he'), hrep'] at hrep
      cases hrep
    rw [hent, List.getElem?_set_ne hji, he]
  · rw [happ.entries, List.getElem?_append_left (List.getElem?_eq_some_iff.mp he).1, he]

theorem entryInv_logStep {i : ℕ} {e : LogTableElement} {st : State} {path' : List Domain}
    (h : EntryInv i e st) (hrep : e.isrepeated = false)
    (hstep : logStep ptr data args st.path = some path') :
    EntryInv i e { st with path := path' } := by
  unfold logStep at hstep
  split at hstep
  case h_2 => cases hstep
  case h_1 log ds hpath =>
    obtain ⟨⟨err, log'⟩, hlog, rfl⟩ := Option.map_eq_some_iff.mp hstep
    have hhead : st.path[0]? = some (.relaxed log) := by rw [hpath]; rfl
    have hs : SoundLog log := h.1 _ (List.mem_of_getElem? hhead)
    obtain ⟨hkeep, -, hcases⟩ := logData_cases hs.valid hlog
    have hgen : log.newLogGenerated = true → log'.newLogGenerated = true := by
      intro hg
      rcases hcases with ⟨-, hsame, -⟩ | ⟨-, hset, -⟩
      · rw [hsame, hg]
      · exact hset
    have hset := h.set hhead (soundLog_logData hs hlog) hgen fun _ hat => ?_
    · rw [hpath] at hset
      exact hset
    · cases hplace : st.place with
      | nil =>
          rw [hplace] at hat
          exact hasEntry_logData hs.valid hrep hlog hat
      | cons x place =>
          rw [hplace] at hat
          exact atPlace_of_childLog hkeep.childLog hat

end Logging

/-- The notes along the path. -/
def notes (path : List Domain) : List (List IncompleteLogEntry) := path.map Domain.incompleteLog

/-- `r` is the only note with the flag, and the domain at `level` has it. -/
structure NoteInv (flag : ℕ) (r : IncompleteLogEntry) (level : ℕ)
    (ns : List (List IncompleteLogEntry)) : Prop where
  only : (ns.flatten.filter fun x => x.flag == flag) = [r]
  place : ∃ k xs, ns[k]? = some xs ∧ r ∈ xs ∧ k + level + 1 = ns.length

section Notes

variable {flag level : ℕ} {r : IncompleteLogEntry} {ns : List (List IncompleteLogEntry)}

theorem NoteInv.flag_eq (h : NoteInv flag r level ns) : r.flag = flag := by
  have hr : r ∈ ns.flatten.filter fun x => x.flag == flag := by rw [h.only]; simp
  simpa using (List.mem_filter.mp hr).2

/-- More notes in the active domain, of other flags. -/
theorem NoteInv.log {xs ys : List IncompleteLogEntry} (h : NoteInv flag r level (xs :: ns))
    (hys : ∀ y ∈ ys, y.flag ≠ flag) : NoteInv flag r level ((xs ++ ys) :: ns) := by
  have hfree : (ys.filter fun x => x.flag == flag) = [] := by
    rw [List.filter_eq_nil_iff]
    intro y hy
    simpa using hys y hy
  constructor
  · have honly := h.only
    rw [List.flatten_cons, List.filter_append] at honly ⊢
    rw [List.filter_append, hfree, List.append_nil, honly]
  · obtain ⟨k, zs, hzs, hr, hk⟩ := h.place
    cases k with
    | zero =>
        obtain rfl : xs = zs := Option.some.inj hzs
        exact ⟨0, xs ++ ys, rfl, List.mem_append_left _ hr, hk⟩
    | succ k => exact ⟨k + 1, zs, hzs, hr, hk⟩

theorem NoteInv.enter (h : NoteInv flag r level ns) : NoteInv flag r level ([] :: ns) := by
  constructor
  · rw [List.flatten_cons, List.nil_append]
    exact h.only
  · obtain ⟨k, xs, hxs, hr, hk⟩ := h.place
    exact ⟨k + 1, xs, hxs, hr, by rw [List.length_cons]; omega⟩

/-- The notes of a domain go behind those of its parent. -/
theorem NoteInv.complete {own parent : List IncompleteLogEntry}
    (h : NoteInv flag r level (own :: parent :: ns)) :
    NoteInv flag r (if (own :: parent :: ns).length = level + 1 then level - 1 else level)
      ((parent ++ own) :: ns) := by
  constructor
  · have honly := h.only
    simp only [List.flatten_cons, List.filter_append, List.append_assoc] at honly ⊢
    rcases List.append_eq_singleton_iff.mp honly with ⟨h₁, h₂⟩ | ⟨h₁, h₂⟩
    · rw [h₁, List.nil_append]
      exact h₂
    · rw [List.append_eq_nil_iff] at h₂
      rw [h₁, h₂.1, h₂.2]
      rfl
  · obtain ⟨k, xs, hxs, hr, hk⟩ := h.place
    simp only [List.length_cons] at hk ⊢
    match k, hxs, hk with
    | 0, hxs, hk =>
        obtain rfl : own = xs := Option.some.inj hxs
        refine ⟨0, parent ++ own, rfl, List.mem_append_right _ hr, ?_⟩
        rw [if_pos (by omega)]
        omega
    | 1, hxs, hk =>
        obtain rfl : parent = xs := Option.some.inj hxs
        refine ⟨0, parent ++ own, rfl, List.mem_append_left _ hr, ?_⟩
        rw [if_neg (by omega)]
        omega
    | k + 2, hxs, hk =>
        refine ⟨k + 1, xs, hxs, hr, ?_⟩
        rw [if_neg (by omega)]
        omega

/-- A domain that does not have the note leaves. -/
theorem NoteInv.tail {xs : List IncompleteLogEntry} (h : NoteInv flag r level (xs :: ns))
    (hlevel : (xs :: ns).length ≠ level + 1) : NoteInv flag r level ns := by
  obtain ⟨k, ys, hys, hr, hk⟩ := h.place
  obtain ⟨k, rfl⟩ : ∃ k', k = k' + 1 := ⟨k - 1, by omega⟩
  have hys' : ns[k]? = some ys := hys
  refine ⟨?_, k, ys, hys', hr, by rw [List.length_cons] at hk; omega⟩
  have honly := h.only
  rw [List.flatten_cons, List.filter_append] at honly
  have hmem : r ∈ ns.flatten.filter fun x => x.flag == flag := by
    rw [List.mem_filter]
    refine ⟨List.mem_flatten.mpr ⟨ys, List.mem_of_getElem? hys', hr⟩, ?_⟩
    simpa using h.flag_eq
  rcases List.append_eq_singleton_iff.mp honly with ⟨-, h₂⟩ | ⟨-, h₂⟩
  · exact h₂
  · rw [h₂] at hmem
    cases hmem

/-- The note is the one that the search finds. -/
theorem NoteInv.findRecord {path : List Domain} (h : NoteInv flag r level (notes path)) :
    findRecord flag path = some r := by
  rw [Pending.findRecord, List.flatMap_def, ← notes, ← List.head?_filter, h.only]
  rfl

end Notes

@[simp] theorem Domain.incompleteLog_set (rs : List IncompleteLogEntry) (d : Domain) :
    (d.setIncompleteLog rs).incompleteLog = rs := by
  cases d <;> rfl

theorem eraseRecord_cases (flag : ℕ) (ds : List Domain) :
    eraseRecord flag ds = ds ∨ ∃ n d, ds[n]? = some d ∧ eraseRecord flag ds =
      ds.set n (d.setIncompleteLog (d.incompleteLog.eraseP fun r => r.flag == flag)) := by
  induction ds with
  | nil => exact Or.inl rfl
  | cons d ds ih =>
      rw [eraseRecord]
      split_ifs with hany
      · exact Or.inr ⟨0, d, rfl, rfl⟩
      · rcases ih with hsame | ⟨n, d', hd', hset⟩
        · exact Or.inl (by rw [hsame])
        · exact Or.inr ⟨n + 1, d', hd', by rw [hset]; rfl⟩

theorem EntryInv.setNotes {i : ℕ} {e : LogTableElement} {st : State} (h : EntryInv i e st) {n : ℕ}
    {d : Domain} (hd : st.path[n]? = some d) (rs : List IncompleteLogEntry) :
    EntryInv i e { st with path := st.path.set n (d.setIncompleteLog rs) } := by
  cases d with
  | relaxed q =>
      have hs : SoundLog q := h.1 _ (List.mem_of_getElem? hd)
      exact h.set hd (soundLog_setNotes hs rs) id fun _ hat => atPlace_setNotes id hat
  | strict owner =>
      obtain ⟨hsound, k, p, hp, hk, hgen, hat⟩ := h
      have hkn : n ≠ k := by
        rintro rfl
        rw [hp] at hd
        cases hd
      refine ⟨fun d hd => ?_, k, p, ?_, ?_, hgen, hat⟩
      · rcases List.mem_or_eq_of_mem_set hd with hd | rfl
        · exact hsound d hd
        · trivial
      · rw [List.getElem?_set_ne hkn, hp]
      · rw [hk, List.length_set]

theorem entryInv_eraseRecord {i : ℕ} {e : LogTableElement} {st : State} (h : EntryInv i e st)
    (flag : ℕ) : EntryInv i e { st with path := eraseRecord flag st.path } := by
  rcases eraseRecord_cases flag st.path with hsame | ⟨n, d, hd, hset⟩
  · rw [hsame]
    exact h
  · rw [hset]
    exact h.setNotes hd _

section Erase

variable {flag : ℕ} {r : IncompleteLogEntry}

theorem filter_eraseP_other {g : ℕ} (hg : g ≠ flag) (rs : List IncompleteLogEntry) :
    ((rs.eraseP fun x => x.flag == g).filter fun x => x.flag == flag) =
      rs.filter fun x => x.flag == flag := by
  induction rs with
  | nil => rfl
  | cons x rs ih =>
      by_cases hx : x.flag = g
      · simp [hx, hg]
      · simp [hx, List.filter_cons, ih]

theorem mem_eraseP_other {g : ℕ} (hg : r.flag ≠ g) {rs : List IncompleteLogEntry} (hr : r ∈ rs) :
    r ∈ rs.eraseP fun x => x.flag == g := by
  apply List.mem_eraseP_of_neg _ |>.mpr hr
  simpa using hg

theorem flatten_eraseRecord_other {g : ℕ} (hg : g ≠ flag) (path : List Domain) :
    ((notes (eraseRecord g path)).flatten.filter fun x => x.flag == flag) =
      (notes path).flatten.filter fun x => x.flag == flag := by
  induction path with
  | nil => rfl
  | cons d path ih =>
      rw [eraseRecord]
      split_ifs
      · simp only [notes, List.map_cons, List.flatten_cons, List.filter_append,
          Domain.incompleteLog_set, filter_eraseP_other hg]
      · simp only [notes, List.map_cons, List.flatten_cons, List.filter_append] at ih ⊢
        rw [ih]

theorem NoteInv.eraseOther {level g : ℕ} {path : List Domain}
    (h : NoteInv flag r level (notes path)) (hg : g ≠ flag) :
    NoteInv flag r level (notes (eraseRecord g path)) := by
  constructor
  · rw [flatten_eraseRecord_other hg, h.only]
  · obtain ⟨k, xs, hxs, hr, hk⟩ := h.place
    rcases eraseRecord_cases g path with hsame | ⟨n, d, hd, hset⟩
    · rw [hsame]
      exact ⟨k, xs, hxs, hr, hk⟩
    · have hnotes : notes (eraseRecord g path) =
          (notes path).set n (d.incompleteLog.eraseP fun x => x.flag == g) := by
        rw [hset, notes, List.map_set, Domain.incompleteLog_set]
        rfl
      rw [hnotes, List.length_set]
      by_cases hkn : n = k
      · subst hkn
        have hxs' : xs = d.incompleteLog := by
          rw [notes, List.getElem?_map, hd, Option.map_some, Option.some.injEq] at hxs
          exact hxs.symm
        refine ⟨n, _, List.getElem?_set_self (List.getElem?_eq_some_iff.mp hxs).1, ?_, hk⟩
        apply mem_eraseP_other (by rw [h.flag_eq]; exact hg.symm)
        rwa [← hxs']
      · exact ⟨k, xs, by rw [List.getElem?_set_ne hkn, hxs], hr, hk⟩

theorem eraseRecord_found (path : List Domain) :
    ∀ k d, path[k]? = some d → r ∈ d.incompleteLog →
      ((notes path).flatten.filter fun x => x.flag == flag) = [r] →
      ∃ a b, d.incompleteLog = a ++ r :: b ∧
        eraseRecord flag path = path.set k (d.setIncompleteLog (a ++ b)) := by
  induction path with
  | nil =>
      intro k d hd _ _
      cases hd
  | cons d₀ path ih =>
      intro k d hd hr honly
      have hrflag : (r.flag == flag) = true := by
        have hmem : r ∈ (notes (d₀ :: path)).flatten.filter fun x => x.flag == flag := by
          rw [honly]
          exact List.mem_singleton_self r
        exact (List.mem_filter.mp hmem).2
      rw [notes, List.map_cons, List.flatten_cons, List.filter_append] at honly
      cases k with
      | zero =>
          obtain rfl : d₀ = d := Option.some.inj hd
          obtain ⟨x, a, b, -, hx, hsplit, herase⟩ :=
            @List.exists_of_eraseP _ (fun x => x.flag == flag) _ r hr hrflag
          have hxr : x = r := by
            have hmem : x ∈ d₀.incompleteLog.filter fun x => x.flag == flag :=
              List.mem_filter.mpr ⟨by rw [hsplit]; simp, hx⟩
            have := List.mem_append_left
              ((notes path).flatten.filter fun x => x.flag == flag) hmem
            rw [notes, honly, List.mem_singleton] at this
            exact this
          subst hxr
          refine ⟨a, b, hsplit, ?_⟩
          rw [eraseRecord, if_pos (List.any_eq_true.mpr ⟨x, hr, hrflag⟩), herase]
          rfl
      | succ k =>
          have hd' : path[k]? = some d := hd
          have hrest : r ∈ (notes path).flatten.filter fun x => x.flag == flag := by
            rw [List.mem_filter]
            refine ⟨List.mem_flatten.mpr ⟨d.incompleteLog, ?_, hr⟩, hrflag⟩
            exact List.mem_map_of_mem (List.mem_of_getElem? hd')
          rcases List.append_eq_singleton_iff.mp honly with ⟨h₁, h₂⟩ | ⟨-, h₂⟩
          · obtain ⟨a, b, hsplit, herase⟩ := ih k d hd' hr h₂
            refine ⟨a, b, hsplit, ?_⟩
            have hany : ¬ (d₀.incompleteLog.any fun x => x.flag == flag) = true := by
              intro hany
              obtain ⟨x, hx, hxf⟩ := List.any_eq_true.mp hany
              have : x ∈ d₀.incompleteLog.filter fun x => x.flag == flag :=
                List.mem_filter.mpr ⟨hx, hxf⟩
              rw [h₁] at this
              cases this
            rw [eraseRecord, if_neg hany, herase]
            rfl
          · rw [notes, h₂] at hrest
            cases hrest

end Erase

section Probe

variable {i : ℕ} {e : LogTableElement} {st : State} {mem : ℕ → UInt8} {g : ℕ}
  {path' : List Domain}

theorem notes_set {path : List Domain} {n : ℕ} {d d' : Domain} (hd : path[n]? = some d)
    (hsame : d'.incompleteLog = d.incompleteLog) : notes (path.set n d') = notes path := by
  have hn : (notes path)[n]? = some d.incompleteLog := by
    rw [notes, List.getElem?_map, hd, Option.map_some]
  rw [notes, List.map_set, hsame, ← notes]
  apply List.ext_getElem?
  intro m
  by_cases hmn : n = m
  · subst hmn
    rw [List.getElem?_set_self (List.getElem?_eq_some_iff.mp hn).1, hn]
  · rw [List.getElem?_set_ne hmn]

theorem notes_completeEntry {data : List UInt8} {log log' : CommLog}
    {parents parents' : List Domain} (hs : ∀ d ∈ Domain.relaxed log :: parents, d.Sound)
    (h : completeEntry data g log parents = some (log', parents')) :
    log'.Valid ∧ log'.myCd = log.myCd ∧ notes parents' = notes parents := by
  have hlog : SoundLog log := hs _ List.mem_cons_self
  rcases completeEntry_cases hs h with
    ⟨rfl, j, e', hfirst, hlen, rfl⟩ | ⟨rfl, -, rfl | ⟨n, q, q', hq, -, hprobe, rfl⟩⟩
  · exact ⟨(completedLog_completes hlog.valid hfirst hlen).valid, rfl, rfl⟩
  · exact ⟨hlog.valid, rfl, rfl⟩
  · have hqs : SoundLog q := hs _ (List.mem_cons_of_mem _ (List.mem_of_getElem? hq))
    obtain ⟨-, hmy, -⟩ := probePacked_frame hqs hprobe
    refine ⟨hlog.valid, rfl, notes_set hq ?_⟩
    change q'.myCd.incompleteLog = q.myCd.incompleteLog
    rw [hmy]

theorem probe_relaxed {log : CommLog} {parents : List Domain}
    (h : probeAndLogData mem g (.relaxed log :: parents) = some path') :
    ∃ r log₁ parents₁ err log₂, findRecord g (.relaxed log :: parents) = some r ∧
      (if r.intraCdMsg then some (log, parents)
        else completeEntry (bytesAt mem r.addr r.length) g log parents) = some (log₁, parents₁) ∧
      logData log₁ g [] { taskID := r.taskID } = some (err, log₂) ∧
      path' = eraseRecord g (.relaxed log₂ :: parents₁) := by
  obtain ⟨r, hr, hrest⟩ := Option.bind_eq_some_iff.mp h
  obtain ⟨⟨log₁, parents₁⟩, hc, hrest⟩ := Option.bind_eq_some_iff.mp hrest
  obtain ⟨⟨err, log₂⟩, hl, hrest⟩ := Option.bind_eq_some_iff.mp hrest
  exact ⟨r, log₁, parents₁, err, log₂, hr, hc, hl, (Option.some.inj hrest).symm⟩

theorem logStep_relaxed {ptr : ℕ} {data : List UInt8} {args : LogArgs} {log log' : CommLog}
    {err : CommLogErrT} (h : logData log ptr data args = some (err, log')) (ds : List Domain) :
    logStep ptr data args (.relaxed log :: ds) = some (.relaxed log' :: ds) := by
  rw [logStep, h, Option.map_some]

theorem entryInv_probe (h : EntryInv i e st) (hrep : e.isrepeated = false)
    (hprobe : probeAndLogData mem g st.path = some path') :
    EntryInv i e { st with path := path' } ∨ Reached g st i e := by
  cases hpath : st.path with
  | nil =>
      rw [hpath] at hprobe
      cases hprobe
  | cons d parents =>
      rw [hpath] at hprobe
      cases d with
      | strict owner =>
          obtain rfl := Option.some.inj hprobe
          rw [← hpath]
          exact Or.inl (entryInv_eraseRecord h g)
      | relaxed log =>
          obtain ⟨r, log₁, parents₁, err, log₂, -, hc, hl, rfl⟩ := probe_relaxed hprobe
          have hmid : EntryInv i e { st with path := .relaxed log₁ :: parents₁ } ∨
              Reached g st i e := by
            split_ifs at hc with hintra
            · rw [Option.some.injEq, Prod.mk.injEq] at hc
              obtain ⟨rfl, rfl⟩ := hc
              rw [← hpath]
              exact Or.inl h
            · exact entryInv_completeEntry h hpath hc
          rcases hmid with hmid | hreached
          · have hlogged := entryInv_logStep hmid hrep (logStep_relaxed hl parents₁)
            exact Or.inl (entryInv_eraseRecord hlogged g)
          · exact Or.inr hreached

theorem notes_probe (hs : ∀ d ∈ st.path, d.Sound)
    (hprobe : probeAndLogData mem g st.path = some path') :
    ∃ mid, path' = eraseRecord g mid ∧ notes mid = notes st.path := by
  cases hpath : st.path with
  | nil =>
      rw [hpath] at hprobe
      cases hprobe
  | cons d parents =>
      rw [hpath] at hprobe hs
      cases d with
      | strict owner => exact ⟨_, (Option.some.inj hprobe).symm, rfl⟩
      | relaxed log =>
          obtain ⟨r, log₁, parents₁, err, log₂, -, hc, hl, rfl⟩ := probe_relaxed hprobe
          refine ⟨_, rfl, ?_⟩
          have hlog : SoundLog log := hs _ List.mem_cons_self
          obtain ⟨hv, hmy, hparents⟩ : log₁.Valid ∧ log₁.myCd = log.myCd ∧
              notes parents₁ = notes parents := by
            split_ifs at hc with hintra
            · rw [Option.some.injEq, Prod.mk.injEq] at hc
              obtain ⟨rfl, rfl⟩ := hc
              exact ⟨hlog.valid, rfl, rfl⟩
            · exact notes_completeEntry hs hc
          have hown : log₂.myCd.incompleteLog = log.myCd.incompleteLog := by
            rw [← hmy, notes_logData hv rfl hl]
          rw [notes, List.map_cons, ← notes, hparents]
          change log₂.myCd.incompleteLog :: _ = log.myCd.incompleteLog :: _
          rw [hown]
          rfl

end Probe

section Complete

theorem pushLogs_cases {own parent parent' : CommLog} (hv : own.Valid) (hp : Packable own)
    (hs : SoundLog parent) (h : pushLogs own parent = some parent') :
    SoundLog parent' ∧ parent'.myCd = parent.myCd ∧ parent'.logTable = parent.logTable ∧
      (parent.newLogGenerated = true → parent'.newLogGenerated = true) ∧
      (own.newLogGenerated = true → parent'.newLogGenerated = true ∧
        ∀ cs, HoldsLogs parent cs → HoldsLogs parent' (cs ++ [own])) ∧
      (own.newLogGenerated = false → parent' = parent) := by
  unfold pushLogs at h
  by_cases hgen : own.newLogGenerated = true
  · rw [if_pos hgen] at h
    obtain ⟨⟨err, p₁⟩, hpush, hrest⟩ := Option.bind_eq_some_iff.mp h
    have hholds : ∀ cs, HoldsLogs parent cs → HoldsLogs parent' (cs ++ [own]) := by
      intro cs hcs
      obtain ⟨q, hq, hpushed, -⟩ := packAndPushLogs_spec hp hcs.pushed hs.unit
      rw [hq, Option.some.injEq, Prod.mk.injEq] at hpush
      obtain ⟨-, rfl⟩ := hpush
      obtain rfl := Option.some.inj hrest
      refine ⟨hpushed, fun x hx => ?_, fun x hx => ?_⟩
      · rcases List.mem_append.mp hx with hx | hx
        · exact hcs.packable x hx
        · exact List.mem_singleton.mp hx ▸ hp
      · rcases List.mem_append.mp hx with hx | hx
        · exact hcs.valid x hx
        · exact List.mem_singleton.mp hx ▸ hv
    obtain ⟨cs, hcs⟩ := hs.holds
    have hnew := hholds cs hcs
    obtain ⟨q, hq, -⟩ := packAndPushLogs_spec hp hcs.pushed hs.unit
    rw [hq, Option.some.injEq, Prod.mk.injEq] at hpush
    obtain ⟨-, rfl⟩ := hpush
    obtain rfl := Option.some.inj hrest
    have hpv := hs.valid
    refine ⟨⟨⟨hpv.table, hpv.queue, hpv.within, hpv.ordered⟩, hs.unit, _, hnew⟩, rfl, rfl,
      fun _ => rfl, fun _ => ⟨rfl, hholds⟩, fun hfalse => ?_⟩
    rw [hgen] at hfalse
    cases hfalse
  · rw [if_neg hgen] at h
    obtain rfl := Option.some.inj h
    exact ⟨hs, rfl, rfl, id, fun htrue => absurd htrue hgen, fun _ => rfl⟩

theorem completeLogs_relaxed {own parent : CommLog} {d : Domain} (hown : SoundLog own)
    (hp : Packable own) (hs : SoundLog parent)
    (h : completeLogs (.relaxed own) (.relaxed parent) = some d) :
    ∃ q, d = .relaxed q ∧ SoundLog q ∧
      q.myCd.incompleteLog = parent.myCd.incompleteLog ++ own.myCd.incompleteLog ∧
      (parent.newLogGenerated = true → q.newLogGenerated = true) ∧
      (∀ i e place, AtPlace (HasEntry i e) place parent → AtPlace (HasEntry i e) place q) ∧
      (own.newLogGenerated = true → q.newLogGenerated = true ∧
        ∀ i e place, AtPlace (HasEntry i e) place own →
          AtPlace (HasEntry i e) ((own.myCd.cdId, parent.childLog.curPos) :: place) q) := by
  obtain ⟨p, hpush, heq⟩ := Option.bind_eq_some_iff.mp h
  obtain rfl := Option.some.inj heq
  obtain ⟨hsound, hmy, htable, hkeep, hgen, hsame⟩ := pushLogs_cases hown.valid hp hs hpush
  refine ⟨_, rfl, soundLog_setNotes hsound _, by rw [hmy], hkeep, ?_, ?_⟩
  · intro i e place hat
    apply atPlace_setNotes id
    cases hnew : own.newLogGenerated with
    | true =>
        refine atPlace_of_append (hgen hnew).2 (fun he => ?_) place hat
        change p.logTable.entries[i]? = some e
        rw [htable]
        exact he
    | false =>
        rw [hsame hnew]
        exact hat
  · intro hnew
    refine ⟨(hgen hnew).1, fun i e place hat => ?_⟩
    apply atPlace_setNotes id
    obtain ⟨cs, hcs⟩ := hs.holds
    refine ⟨cs ++ [own], cs.length, own, (hgen hnew).2 cs hcs, ?_, ?_, hat⟩
    · rw [List.getElem?_append_right (Nat.le_refl _), Nat.sub_self]
      rfl
    · rw [List.take_left, hcs.pushed.1, recordAt]

end Complete

/-- While the request is outstanding, its entry and its note are where the state says; `m` is the
level of the domain that has started it. -/
structure Inv (flag i : ℕ) (e : LogTableElement) (r : IncompleteLogEntry) (m : ℕ) (st : State) :
    Prop where
  entry : EntryInv i e st
  note : NoteInv flag r st.level (notes st.path)
  depth : st.level + st.place.length = m

section Step

variable {flag i m : ℕ} {e : LogTableElement} {r : IncompleteLogEntry} {st st' : State}

theorem notes_length (path : List Domain) : (notes path).length = path.length := by
  rw [notes, List.length_map]

/-- The active domain is not the one with the request: its parent may change, and the rest of the
path stays. -/
theorem EntryInv.leave {own parent d : Domain} {ds : List Domain} (h : EntryInv i e st)
    (hpath : st.path = own :: parent :: ds) (hk : st.path.length ≠ st.level + 1) (hd : d.Sound)
    (hparent : ∀ p, parent = .relaxed p → ∃ q, d = .relaxed q ∧
      (p.newLogGenerated = true → q.newLogGenerated = true) ∧
      (AtPlace (HasEntry i e) st.place p → AtPlace (HasEntry i e) st.place q)) :
    EntryInv i e { st with path := d :: ds } := by
  obtain ⟨hsound, k, p, hp, hlen, hgen, hat⟩ := h
  rw [hpath] at hsound hp hlen hk
  simp only [List.length_cons] at hlen hk
  constructor
  · intro x hx
    rcases List.mem_cons.mp hx with rfl | hx
    · exact hd
    · exact hsound x (by simp [hx])
  · match k, hp, hlen with
    | 0, _, hlen => omega
    | 1, hp, hlen =>
        obtain ⟨q, rfl, hg, hq⟩ := hparent p (Option.some.inj hp)
        refine ⟨0, q, rfl, ?_, hg hgen, hq hat⟩
        simp only [List.length_cons]
        omega
    | k + 2, hp, hlen =>
        refine ⟨k + 1, p, hp, ?_, hgen, hat⟩
        simp only [List.length_cons]
        omega

theorem inv_complete_carrier {own parent d : Domain} {ds : List Domain}
    (h : Inv flag i e r m st) (hproper : Proper flag st .complete)
    (hpath : st.path = own :: parent :: ds) (hk : st.path.length = st.level + 1)
    (hd : completeLogs own parent = some d) :
    Inv flag i e r m ⟨d :: ds, st.level - 1, recordPlace st.path ++ st.place⟩ := by
  obtain ⟨⟨hsound, k, p, hp, hlen, hgen, hat⟩, hnote, hdepth⟩ := h
  obtain rfl : k = 0 := by omega
  rw [hpath] at hp
  obtain rfl : own = .relaxed p := Option.some.inj hp
  rw [hpath] at hsound
  have hown : SoundLog p := hsound _ List.mem_cons_self
  have hlevel : 1 ≤ st.level := by
    rw [hpath] at hk
    simp only [List.length_cons] at hk
    omega
  unfold Proper at hproper
  rw [hpath] at hproper hnote
  cases parent with
  | strict owner =>
      -- a note would be left behind
      have hnil : p.myCd.incompleteLog = [] := hproper
      obtain ⟨k, xs, hxs, hr, hk'⟩ := hnote.place
      rw [notes_length, ← hpath] at hk'
      obtain rfl : k = 0 := by omega
      obtain rfl : p.myCd.incompleteLog = xs := Option.some.inj hxs
      rw [hnil] at hr
      cases hr
  | relaxed parent =>
      have hparent : SoundLog parent := hsound (.relaxed parent) (by simp)
      obtain ⟨q, rfl, hq, hnotes, -, -, hpacked⟩ := completeLogs_relaxed hown
        (packable_of_inRange hown hproper) hparent hd
      have hcomplete := @NoteInv.complete _ _ _ (notes ds) _ _ hnote
      rw [if_pos (by rw [← hk, hpath, ← notes_length]; rfl)] at hcomplete
      refine ⟨⟨?_, 0, q, rfl, ?_, (hpacked hgen).1, ?_⟩, ?_, ?_⟩
      · intro x hx
        rcases List.mem_cons.mp hx with rfl | hx
        · exact hq
        · exact hsound x (by simp [hx])
      · rw [hpath] at hk
        simp only [List.length_cons] at hk ⊢
        omega
      · rw [hpath]
        exact (hpacked hgen).2 i e st.place hat
      · rw [notes, List.map_cons]
        change NoteInv flag r (st.level - 1) (q.myCd.incompleteLog :: notes ds)
        rw [hnotes]
        exact hcomplete
      · rw [hpath, recordPlace, List.length_append, List.length_singleton]
        dsimp only
        omega

theorem inv_complete_other {own parent d : Domain} {ds : List Domain}
    (h : Inv flag i e r m st) (hproper : Proper flag st .complete)
    (hpath : st.path = own :: parent :: ds) (hk : st.path.length ≠ st.level + 1)
    (hd : completeLogs own parent = some d) : Inv flag i e r m { st with path := d :: ds } := by
  obtain ⟨hentry, hnote, hdepth⟩ := h
  have hsound := hentry.1
  have hk' : ¬ (own.incompleteLog :: parent.incompleteLog :: notes ds).length = st.level + 1 := by
    rw [List.length_cons, List.length_cons, notes_length]
    rw [hpath] at hk
    exact hk
  rw [hpath] at hsound hnote
  unfold Proper at hproper
  rw [hpath] at hproper
  cases own with
  | strict owner =>
      obtain rfl : parent = d := Option.some.inj hd
      refine ⟨hentry.leave hpath hk (hsound _ (by simp)) fun p hp => ⟨p, hp, id, id⟩,
        hnote.tail hk', hdepth⟩
  | relaxed own =>
      have hown : SoundLog own := hsound (.relaxed own) (by simp)
      have hcomplete := @NoteInv.complete _ _ _ (notes ds) _ _ hnote
      rw [if_neg hk'] at hcomplete
      cases parent with
      | strict owner =>
          obtain rfl := Option.some.inj hd
          exact ⟨hentry.leave hpath hk trivial fun p hp => (by cases hp), hcomplete, hdepth⟩
      | relaxed parent =>
          obtain ⟨q, rfl, hq, hnotes, hgen, hat, -⟩ :=
            completeLogs_relaxed hown (packable_of_inRange hown hproper)
              (hsound (.relaxed parent) (by simp)) hd
          refine ⟨hentry.leave hpath hk hq fun p hp => ⟨q, rfl, ?_⟩, ?_, hdepth⟩
          · obtain rfl : parent = p := Domain.relaxed.inj hp
            exact ⟨hgen, hat i e st.place⟩
          · change NoteInv flag r st.level (q.myCd.incompleteLog :: notes ds)
            rw [hnotes]
            exact hcomplete

theorem inv_complete (h : Inv flag i e r m st) (hproper : Proper flag st .complete)
    (hstep : step st .complete = some st') : Inv flag i e r m st' := by
  obtain ⟨path', hcomp, rfl⟩ := Option.map_eq_some_iff.mp hstep
  unfold completeStep at hcomp
  split at hcomp
  case h_2 => cases hcomp
  case h_1 own parent ds hpath =>
    obtain ⟨d, hd, rfl⟩ := Option.map_eq_some_iff.mp hcomp
    split_ifs with hk
    · exact inv_complete_carrier h hproper hpath hk hd
    · exact inv_complete_other h hproper hpath hk hd

theorem Reached.flag_eq {g : ℕ} (h : Reached g st i e) : e.flag = g := by
  obtain ⟨k, p, -, -, ⟨-, -, hfirst⟩ | ⟨q, -, -, -, -, cs, n, c, -, -, -, -, hfirst⟩⟩ := h
  · exact hfirst.2.1
  · exact hfirst.2.1

/-- New notes have other flags. -/
theorem NoteInv.logStep {ptr : ℕ} {data : List UInt8} {args : LogArgs} {level : ℕ}
    {path path' : List Domain} (h : NoteInv flag r level (notes path))
    (hs : ∀ d ∈ path, d.Sound) (hlog : logStep ptr data args path = some path')
    (hfresh : args.completed = false → ∀ d ∈ path, ∀ x ∈ d.incompleteLog, x.flag ≠ args.flag) :
    NoteInv flag r level (notes path') := by
  unfold Pending.logStep at hlog
  split at hlog
  case h_2 => cases hlog
  case h_1 log ds =>
    obtain ⟨⟨err, log'⟩, hlog', rfl⟩ := Option.map_eq_some_iff.mp hlog
    have hl : SoundLog log := hs (.relaxed log) (by simp)
    have hnote : NoteInv flag r level (log.myCd.incompleteLog :: notes ds) := h
    change NoteInv flag r level (log'.myCd.incompleteLog :: notes ds)
    obtain ⟨-, -, ⟨hsame, -⟩ | ⟨-, -, happ⟩⟩ := logData_cases hl.valid hlog'
    · rw [hsame]
      exact hnote
    · rw [happ]
      apply hnote.log
      intro y hy
      split_ifs at hy with hcomp
      · cases hy
      · obtain rfl := List.mem_singleton.mp hy
        change args.flag ≠ flag
        obtain ⟨k, xs, hxs, hr, -⟩ := h.place
        rw [notes, List.getElem?_map] at hxs
        obtain ⟨d, hd, rfl⟩ := Option.map_eq_some_iff.mp hxs
        rw [← h.flag_eq]
        exact (hfresh (Bool.eq_false_of_not_eq_true hcomp) d (List.mem_of_getElem? hd) r hr).symm

theorem inv_step (hef : e.flag = flag) (hrep : e.isrepeated = false) {op : Op}
    (h : Inv flag i e r m st) (hproper : Proper flag st op) (hstep : step st op = some st') :
    Inv flag i e r m st' := by
  obtain ⟨hentry, hnote, hdepth⟩ := h
  cases op with
  | log ptr data args =>
      obtain ⟨path', hlog, rfl⟩ := Option.map_eq_some_iff.mp hstep
      exact ⟨entryInv_logStep hentry hrep hlog, hnote.logStep hentry.1 hlog hproper, hdepth⟩
  | enter d =>
      obtain rfl := Option.some.inj hstep
      obtain ⟨hsound, k, p, hp, hlen, hgen, hat⟩ := hentry
      refine ⟨⟨?_, k + 1, p, hp, ?_, hgen, hat⟩, ?_, hdepth⟩
      · intro x hx
        rcases List.mem_cons.mp hx with rfl | hx
        · exact hproper.1
        · exact hsound x hx
      · rw [List.length_cons]
        dsimp only
        omega
      · rw [notes, List.map_cons, hproper.2]
        exact hnote.enter
  | complete => exact inv_complete ⟨hentry, hnote, hdepth⟩ hproper hstep
  | probe mem g =>
      obtain ⟨path', hprobe, rfl⟩ := Option.map_eq_some_iff.mp hstep
      obtain ⟨mid, rfl, hmid⟩ := notes_probe hentry.1 hprobe
      refine ⟨?_, ?_, hdepth⟩
      · rcases entryInv_probe hentry hrep hprobe with hinv | hreached
        · exact hinv
        · exact absurd (hreached.flag_eq.symm.trans hef) hproper
      · dsimp only
        apply NoteInv.eraseOther _ hproper
        rw [hmid]
        exact hnote

end Step

end CDRuntime.Pending
