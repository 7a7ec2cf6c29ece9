import CDRuntime.PendingRuns

namespace CDRuntime.Pending
open Splice CommLog Runs ChildLogs

theorem unpackDown_of_atPlace {P : CommLog → Prop} (hP : ∀ c d, SameLog c d → P c → P d)
    (place : List (CDID × ℕ)) :
    ∀ q, AtPlace P place q → ∃ d, unpackDown place q = some d ∧ P d := by
  induction place with
  | nil =>
      intro q hq
      exact ⟨q, rfl, hq⟩
  | cons x place ih =>
      intro q hq
      obtain ⟨cs, n, c, hh, hc, rfl, hrest⟩ := hq
      obtain ⟨hn, hget⟩ := List.getElem?_eq_some_iff.mp hc
      have hsplit : cs.flatMap packedRecord = (cs.take n).flatMap packedRecord ++
          (packedRecord c ++ (cs.drop (n + 1)).flatMap packedRecord) := by
        conv_lhs => rw [← List.take_append_drop n cs, List.drop_eq_getElem_cons hn, hget]
        rw [List.flatMap_append, List.flatMap_cons]
      have htake := pushed_take hh.pushed
      rw [hsplit] at htake
      obtain ⟨d, hd, hsame⟩ := unpackLogs_spec
        (d := create ⟨c.myCd.cdId, []⟩ .replayLog q.queueSizeUnit q.tableSizeUnit q.childLogSizeUnit)
        (hh.packable c (List.mem_of_getElem? hc)) htake (CDID.same_refl _)
      have hat : AtPlace P place d := by
        cases place with
        | nil => exact hP c d hsame hrest
        | cons y place =>
            obtain ⟨gs, j, b, hgs, htail⟩ := hrest
            exact ⟨gs, j, b, ⟨hsame.records gs hgs.pushed, hgs.packable, hgs.valid⟩, htail⟩
      obtain ⟨u, hu, hPu⟩ := ih d hat
      refine ⟨u, ?_, hPu⟩
      rw [unpackDown, recordAt, hd, Option.bind_eq_bind, Option.bind_some]
      exact hu

theorem hasEntry_of_sameLog {i : ℕ} {e : LogTableElement} (c d : CommLog) (h : SameLog c d)
    (hc : HasEntry i e c) : HasEntry i e d := by
  unfold HasEntry at hc ⊢
  rw [h.entries, hc]

theorem hasPayload_of_sameLog {i : ℕ} {e : LogTableElement} {data : List UInt8} (c d : CommLog)
    (h : SameLog c d) (hc : HasPayload i e data c) : HasPayload i e data d := by
  obtain ⟨he, hin, hdata⟩ := hc
  refine ⟨by rw [h.entries, he], by rw [h.queuePos]; exact hin, ?_⟩
  have hle : e.pos + e.length ≤ d.logQueue.curPos := by rw [h.queuePos]; exact hin
  rw [← slice_take hle, h.queue, slice_take hin, hdata]

/-- The call returns, and the request is settled. -/
def Settles (mem : ℕ → UInt8) (flag : ℕ) (st : State) (i : ℕ) (e : LogTableElement)
    (r : IncompleteLogEntry) : Prop :=
  ∃ path', probeAndLogData mem flag st.path = some path' ∧
    Settled flag st i e r (bytesAt mem r.addr r.length) path'

section Final

variable {flag i m : ℕ} {e : LogTableElement} {r : IncompleteLogEntry} {st : State}
  {mem : ℕ → UInt8}

theorem logStep_length {ptr : ℕ} {data : List UInt8} {args : LogArgs} {path path' : List Domain}
    (h : logStep ptr data args path = some path') : path'.length = path.length := by
  unfold logStep at h
  split at h
  case h_2 => cases h
  case h_1 log ds =>
    obtain ⟨x, -, rfl⟩ := Option.map_eq_some_iff.mp h
    rfl

theorem reached_of_settles (h : Inv flag i e r m st) (hrep : e.isrepeated = false)
    (hcomp : e.completed = false) (hs : Settles mem flag st i e r) : Reached flag st i e := by
  obtain ⟨path', hprobe, k, p, p₁, mid, q, a, b, -, hk, -, hlog, -, -, hpath', q', d, hq', hd,
    hpay⟩ := hs
  rcases entryInv_probe h.entry hrep hprobe with hinv | hreached
  · obtain ⟨-, k', p', hp', hk', -, hat⟩ := hinv
    dsimp only at hp' hk' hat
    have hlen : path'.length = st.path.length := by
      rw [hpath', List.length_set, logStep_length hlog, List.length_set]
    obtain rfl : k' = k := by omega
    rw [hq', Option.some.injEq, Domain.relaxed.injEq] at hp'
    subst hp'
    obtain ⟨u, hu, he⟩ := unpackDown_of_atPlace hasEntry_of_sameLog st.place q' hat
    rw [hd, Option.some.injEq] at hu
    subst hu
    have heq := Option.some.inj (hpay.1.symm.trans he)
    rw [← heq] at hcomp
    cases hcomp
  · exact hreached

theorem hasPayload_appends {place : List (CDID × ℕ)} {i : ℕ} {e : LogTableElement}
    {data new : List UInt8} {args : LogArgs} {c c' : CommLog} (hkeep : c'.childLog = c.childLog)
    (happ : Appends c c' new args) (h : AtPlace (HasPayload i e data) place c) :
    AtPlace (HasPayload i e data) place c' := by
  cases place with
  | nil =>
      obtain ⟨he, hin, hdata⟩ := h
      refine ⟨?_, ?_, ?_⟩
      · rw [happ.entries, List.getElem?_append_left (List.getElem?_eq_some_iff.mp he).1, he]
      · rw [happ.queuePos]
        omega
      · rw [happ.kept _ _ hin, hdata]
  | cons x place => exact atPlace_of_childLog hkeep h

theorem settles_of_completeEntry (h : Inv flag i e r m st) (hintra : r.intraCdMsg = false)
    {log log₁ p p₁ : CommLog} {parents parents₁ : List Domain} {k : ℕ}
    (hpath : st.path = .relaxed log :: parents)
    (hc : completeEntry (bytesAt mem r.addr r.length) flag log parents = some (log₁, parents₁))
    (hp : st.path[k]? = some (.relaxed p)) (hk : k + st.level + 1 = st.path.length)
    (hset : .relaxed log₁ :: parents₁ = st.path.set k (.relaxed p₁))
    (hcomp : CompletesAt i e (bytesAt mem r.addr r.length) st.place p p₁)
    (hat : AtPlace (HasPayload i { e with completed := true } (bytesAt mem r.addr r.length))
      st.place p₁) :
    Settles mem flag st i e r := by
  have hsound := h.entry.1
  rw [hpath] at hsound
  obtain ⟨hv₁, hmy, hnotes⟩ := notes_completeEntry hsound hc
  obtain ⟨log₂, hlog₂, happ⟩ :=
    logData_appends hv₁ flag [] (a := { taskID := r.taskID }) (Or.inl rfl)
  obtain ⟨hkeep, -, -⟩ := logData_cases hv₁ hlog₂
  have hstep := logStep_relaxed hlog₂ parents₁
  have hklt : k < st.path.length := (List.getElem?_eq_some_iff.mp hp).1
  -- the domain with the request, after the wait has been logged
  obtain ⟨q, hq, hatq⟩ : ∃ q, (Domain.relaxed log₂ :: parents₁)[k]? = some (.relaxed q) ∧
      AtPlace (HasPayload i { e with completed := true } (bytesAt mem r.addr r.length))
        st.place q := by
    have hget : (Domain.relaxed log₁ :: parents₁)[k]? = some (.relaxed p₁) := by
      rw [hset, List.getElem?_set_self hklt]
    cases k with
    | zero =>
        obtain rfl : log₁ = p₁ := Domain.relaxed.inj (Option.some.inj hget)
        exact ⟨log₂, rfl, hasPayload_appends hkeep.childLog happ hat⟩
    | succ k => exact ⟨p₁, hget, hat⟩
  -- its notes are those of before the call
  have hnote : NoteInv flag r st.level (notes (Domain.relaxed log₂ :: parents₁)) := by
    have hold := h.note
    rw [hpath] at hold
    change NoteInv flag r st.level (log₂.myCd.incompleteLog :: notes parents₁)
    rw [notes_logData hv₁ rfl hlog₂, hmy, hnotes]
    exact hold
  have hr : r ∈ q.myCd.incompleteLog := by
    obtain ⟨k', xs, hxs, hr, hk'⟩ := hnote.place
    have hlen : (Domain.relaxed log₂ :: parents₁).length = st.path.length := by
      have := congrArg List.length hset
      rw [List.length_set] at this
      exact this
    rw [notes_length, hlen] at hk'
    obtain rfl : k' = k := by omega
    rw [notes, List.getElem?_map, hq, Option.map_some, Option.some.injEq] at hxs
    rw [← hxs] at hr
    exact hr
  obtain ⟨a, b, hsplit, herase⟩ := eraseRecord_found _ k _ hq hr hnote.only
  refine ⟨eraseRecord flag (.relaxed log₂ :: parents₁), ?_, k, p, p₁, _, q, a, b, hp, hk, hcomp, ?_,
    hq, hsplit, herase, { q with myCd := { q.myCd with incompleteLog := a ++ b } }, ?_⟩
  · have hfind := h.note.findRecord
    rw [hpath] at hfind
    rw [hpath]
    simp only [probeAndLogData, hfind, Option.bind_eq_bind, Option.bind_some, hintra,
      Bool.false_eq_true, if_false, hc, hlog₂]
  · rw [← hset]
    exact hstep
  · obtain ⟨d, hd, hpay⟩ := unpackDown_of_atPlace hasPayload_of_sameLog st.place
      { q with myCd := { q.myCd with incompleteLog := a ++ b } } (atPlace_setNotes id hatq)
    refine ⟨d, ?_, hd, hpay⟩
    rw [herase, List.getElem?_set_self (List.getElem?_eq_some_iff.mp hq).1]
    rfl

theorem path_of_head {path : List Domain} {d : Domain} (h : path[0]? = some d) :
    ∃ ds, path = d :: ds := by
  cases path with
  | nil => cases h
  | cons d' ds => exact ⟨ds, by rw [Option.some.inj h]⟩

theorem bytesAt_length (mem : ℕ → UInt8) (addr n : ℕ) : (bytesAt mem addr n).length = n := by
  rw [bytesAt, List.length_map, List.length_range]

theorem hasPayload_completedLog {c : CommLog} {data : List UInt8} (hv : c.Valid)
    (hfirst : FirstWithFlag c.logTable flag i e) (hlen : e.length = data.length) :
    HasPayload i { e with completed := true } data (completedLog c i e data) := by
  have hcomp := completedLog_completes hv hfirst hlen
  have hi : i < c.logTable.entries.length := (List.getElem?_eq_some_iff.mp hfirst.1).1
  refine ⟨?_, hv.within e (List.mem_of_getElem? hfirst.1), hcomp.payload⟩
  rw [hcomp.entries, List.getElem?_set_self hi]

theorem probeParents_first {data : List UInt8} (ds : List Domain) :
    ∀ k p p₁, ds[k]? = some (.relaxed p) → (∀ d ∈ ds.take k, PackedFree flag d) →
      probeAndLogDataPacked p data flag = some (true, p₁) →
      probeParents data flag ds = some (ds.set k (.relaxed p₁)) := by
  induction ds with
  | nil =>
      intro k p p₁ hp _ _
      cases hp
  | cons d ds ih =>
      intro k p p₁ hp hfree hprobe
      cases k with
      | zero =>
          obtain rfl : d = .relaxed p := Option.some.inj hp
          simp only [probeParents, hprobe, Option.bind_eq_bind, Option.bind_some, if_true,
            List.set_cons_zero]
      | succ k =>
          have hd := hfree d (by simp)
          cases d with
          | strict owner => exact hd.elim
          | relaxed q =>
              obtain ⟨cs, hcs, hclear⟩ := hd
              have hrest := ih k p p₁ hp (fun x hx => hfree x (by simp [hx])) hprobe
              simp only [probeParents, probeAndLogDataPacked_absent hcs hclear,
                Option.bind_eq_bind, Option.bind_some, Bool.false_eq_true, if_false, hrest,
                Option.map_some, List.set_cons_succ]

theorem settles_of_reached (h : Inv flag i e r m st) (hintra : r.intraCdMsg = false)
    (hlen : e.length = r.length) (hreached : Reached flag st i e) :
    Settles mem flag st i e r := by
  have hdata : e.length = (bytesAt mem r.addr r.length).length := by rw [bytesAt_length, hlen]
  have hsound := h.entry.1
  obtain ⟨k, p, hp, hk, ⟨rfl, hplace, hfirst⟩ | ⟨q, hq, hpos, hfree, hpf, cs, n, c, hplace, hcs,
    hc, hbefore, hfirst⟩⟩ := hreached
  · -- in the own table of the active domain
    obtain ⟨parents, hpath⟩ := path_of_head hp
    have hv : p.Valid := (hsound _ (List.mem_of_getElem? hp) : SoundLog p).valid
    have hc : completeEntry (bytesAt mem r.addr r.length) flag p parents =
        some (completedLog p i e (bytesAt mem r.addr r.length), parents) := by
      simp only [completeEntry, probeAndLogData_eq_completedLog hv hfirst hdata,
        Option.bind_eq_bind, Option.bind_some, if_true]
    have hpay := hasPayload_completedLog hv hfirst hdata
    have hset : .relaxed (completedLog p i e (bytesAt mem r.addr r.length)) :: parents =
        st.path.set 0 (.relaxed (completedLog p i e (bytesAt mem r.addr r.length))) := by
      rw [hpath, List.set_cons_zero]
    refine settles_of_completeEntry h hintra hpath hc hp hk hset ?_ ?_
    · rw [hplace]
      exact ⟨completedLog_completes hv hfirst hdata, rfl, rfl⟩
    · rw [hplace]
      exact hpay
  · -- in a table that is packed into a domain above it
    obtain ⟨parents, hpath⟩ := path_of_head hq
    obtain ⟨k, rfl⟩ : ∃ k', k = k' + 1 := ⟨k - 1, by omega⟩
    have hp' : parents[k]? = some (.relaxed p) := by
      rw [hpath, List.getElem?_cons_succ] at hp
      exact hp
    rw [hpath, List.take_succ_cons, List.drop_one, List.tail_cons] at hpf
    have hqv : q.Valid := (hsound _ (List.mem_of_getElem? hq) : SoundLog q).valid
    have hps : SoundLog p := hsound _ (List.mem_of_getElem? hp)
    have hcv : c.Valid := hcs.valid c (List.mem_of_getElem? hc)
    obtain ⟨hn, hget⟩ := List.getElem?_eq_some_iff.mp hc
    have hsplit : cs = cs.take n ++ c :: cs.drop (n + 1) := by
      rw [← hget, ← List.drop_eq_getElem_cons hn, List.take_append_drop]
    have hholds := hcs
    rw [hsplit] at hholds
    obtain ⟨b, hprobe, hnew⟩ :=
      (probeAndLogDataPacked_first hholds hbefore hfirst).2 hdata
    have hcE : completeEntry (bytesAt mem r.addr r.length) flag q parents =
        some (q, parents.set k (.relaxed { p with childLog := b })) := by
      simp only [completeEntry, probeAndLogData_absent hqv _ hfree,
        probeParents_first parents k p _ hp' hpf hprobe, Option.bind_eq_bind, Option.bind_some,
        Bool.false_eq_true, if_false, Option.map_some]
    have hset : cs.set n (completedLog c i e (bytesAt mem r.addr r.length)) =
        cs.take n ++ completedLog c i e (bytesAt mem r.addr r.length) :: cs.drop (n + 1) := by
      rw [List.set_eq_take_append_cons_drop, if_pos hn]
    rw [← hset] at hnew
    have htake : (cs.set n (completedLog c i e (bytesAt mem r.addr r.length))).take n =
        cs.take n := by
      rw [hset, List.take_left' (by rw [List.length_take]; exact Nat.min_eq_left (Nat.le_of_lt hn))]
    have hpath₁ : .relaxed q :: parents.set k (.relaxed { p with childLog := b }) =
        st.path.set (k + 1) (.relaxed { p with childLog := b }) := by
      rw [hpath, List.set_cons_succ]
    refine settles_of_completeEntry h hintra hpath hcE hp hk hpath₁ ?_ ?_
    · rw [hplace]
      exact ⟨cs, n, c, _, hcs, hc, rfl, hnew, rfl, rfl, rfl,
        completedLog_completes hcv hfirst hdata, rfl, rfl⟩
    · rw [hplace]
      refine ⟨_, n, _, hnew, List.getElem?_set_self hn, ?_, hasPayload_completedLog hcv hfirst hdata⟩
      rw [htake]
      rfl

end Final

/-- The state after the domain of log `c` has started the request. -/
def started (c : CommLog) (outer : List Domain) : State := ⟨.relaxed c :: outer, outer.length, []⟩

section Request

variable {c c' : CommLog} {outer : List Domain} {ptr : ℕ} {data : List UInt8} {args : LogArgs}
  {err : CommLogErrT}

theorem inv_started (hsound : ∀ d ∈ Domain.relaxed c :: outer, d.Sound)
    (hfresh : ∀ d ∈ Domain.relaxed c :: outer, ∀ x ∈ d.incompleteLog, x.flag ≠ args.flag)
    (hpend : args.completed = false) (hrep : args.isrepeated = false)
    (hlog : logData c ptr data args = some (err, c')) :
    Inv args.flag c.logTable.curPos (newEntry c.logQueue.curPos data.length args)
      (newNote ptr data.length args) outer.length (started c' outer) := by
  have hc : SoundLog c := hsound (.relaxed c) List.mem_cons_self
  have hcount := LogTable.entries_length hc.valid.table
  obtain ⟨-, -, hcases⟩ := logData_cases hc.valid hlog
  obtain ⟨c₁, hc₁, happ⟩ := logData_appends hc.valid ptr data (a := args) (Or.inl hrep)
  rw [hc₁, Option.some.injEq, Prod.mk.injEq] at hlog
  obtain ⟨-, rfl⟩ := hlog
  have hent : c₁.logTable.entries[c.logTable.curPos]? =
      some (newEntry c.logQueue.curPos data.length args) := by
    rw [happ.entries, ← hcount, List.getElem?_append_right (Nat.le_refl _), Nat.sub_self]
    rfl
  obtain ⟨hgen, hnote⟩ : c₁.newLogGenerated = true ∧ c₁.myCd.incompleteLog =
      c.myCd.incompleteLog ++ [newNote ptr data.length args] := by
    rcases hcases with ⟨-, -, j, e, -, -, hset⟩ | ⟨-, hgen, hnote⟩
    · -- nothing is counted up, since the table is one longer
      have := congrArg List.length (hset.symm.trans happ.entries)
      rw [List.length_set, List.length_append, List.length_singleton] at this
      omega
    · rw [hpend] at hnote
      exact ⟨hgen, hnote⟩
  have hfree : ∀ xs : List IncompleteLogEntry, (∀ x ∈ xs, x.flag ≠ args.flag) →
      (xs.filter fun x => x.flag == args.flag) = [] := by
    intro xs hxs
    rw [List.filter_eq_nil_iff]
    intro x hx
    simpa using hxs x hx
  refine ⟨⟨?_, 0, c₁, rfl, ?_, hgen, hent⟩, ⟨?_, 0, c₁.myCd.incompleteLog, rfl, ?_, ?_⟩, ?_⟩
  · intro d hd
    rcases List.mem_cons.mp hd with rfl | hd
    · exact soundLog_logData hc hc₁
    · exact hsound d (List.mem_cons_of_mem _ hd)
  · rw [started, List.length_cons, Nat.zero_add]
  · change ((c₁.myCd.incompleteLog :: notes outer).flatten.filter _) = _
    rw [List.flatten_cons, hnote, List.filter_append, List.filter_append,
      hfree c.myCd.incompleteLog (hfresh (.relaxed c) List.mem_cons_self),
      hfree (notes outer).flatten ?_,
      List.append_nil, List.nil_append]
    · simp [newNote]
    · intro x hx
      obtain ⟨xs, hxs, hx⟩ := List.mem_flatten.mp hx
      obtain ⟨d, hd, rfl⟩ := List.mem_map.mp hxs
      exact hfresh d (List.mem_cons_of_mem _ hd) x hx
  · rw [hnote]
    exact List.mem_append_right _ (List.mem_singleton_self _)
  · rw [notes_length, started, List.length_cons, Nat.zero_add]
  · rfl

theorem inv_run (hsound : ∀ d ∈ Domain.relaxed c :: outer, d.Sound)
    (hfresh : ∀ d ∈ Domain.relaxed c :: outer, ∀ x ∈ d.incompleteLog, x.flag ≠ args.flag)
    (hpend : args.completed = false) (hrep : args.isrepeated = false)
    (hlog : logData c ptr data args = some (err, c')) {ops : List Op} {st : State}
    (hrun : run step (started c' outer) ops = some st)
    (hproper : Guarded step (Proper args.flag) (started c' outer) ops) :
    Inv args.flag c.logTable.curPos (newEntry c.logQueue.curPos data.length args)
      (newNote ptr data.length args) outer.length st := by
  have hstart := inv_started hsound hfresh hpend hrep hlog
  have hef : (newEntry c.logQueue.curPos data.length args).flag = args.flag := rfl
  have halways := always_of_guarded (fun s op s' hI hG hs => inv_step hef hrep hI hG hs) ops _ hstart
    hproper
  exact halways.last ops _ _ hrun

/-- A relaxed domain starts a request with a payload; the domains complete, and others are entered,
while the request is outstanding. A call of `CD::ProbeAndLogData` then settles the request if and
only if the search comes to its entry first, which lies `st.place.length` packings deep. -/
theorem settles_iff_reached (hsound : ∀ d ∈ Domain.relaxed c :: outer, d.Sound)
    (hfresh : ∀ d ∈ Domain.relaxed c :: outer, ∀ x ∈ d.incompleteLog, x.flag ≠ args.flag)
    (hpend : args.completed = false) (hrep : args.isrepeated = false)
    (hintra : args.intraCdMsg = false) (hlog : logData c ptr data args = some (err, c'))
    {ops : List Op} {st : State} (hrun : run step (started c' outer) ops = some st)
    (hproper : Guarded step (Proper args.flag) (started c' outer) ops) (mem : ℕ → UInt8) :
    st.level + st.place.length = outer.length ∧
      (Settles mem args.flag st c.logTable.curPos (newEntry c.logQueue.curPos data.length args)
          (newNote ptr data.length args) ↔
        Reached args.flag st c.logTable.curPos
          (newEntry c.logQueue.curPos data.length args)) := by
  have hinv := inv_run hsound hfresh hpend hrep hlog hrun hproper
  refine ⟨hinv.depth, ?_, ?_⟩
  · exact reached_of_settles hinv hrep hpend
  · exact settles_of_reached hinv hintra rfl

end Request

theorem soundLog_create (owner : OwnerCD) {queueUnit tableUnit childUnit : ℕ}
    (ht : 0 < tableUnit) (hc : 0 < childUnit) :
    SoundLog (create owner .generateLog queueUnit tableUnit childUnit) where
  valid := {
    table := ⟨rfl, List.length_replicate, ht, Nat.zero_le _⟩
    queue := ⟨rfl, List.length_replicate, Nat.zero_le _⟩
    within := fun e he => (by cases he)
    ordered := List.Pairwise.nil }
  unit := hc
  holds := ⟨[], ⟨rfl, Or.inr ⟨rfl, rfl⟩⟩, by simp, by simp⟩

def freshDomain (seq : UInt32) : CommLog :=
  create ⟨{ (default : CDID) with sequentialId := seq }, []⟩ .generateLog 8 4 64

def irecvArgs : LogArgs := { taskID := 1, completed := false, flag := 100, isrecv := true }

def receiving (seq : UInt32) : CommLog :=
  { freshDomain seq with
    myCd := ⟨{ (default : CDID) with sequentialId := seq }, [newNote 5000 2 irecvArgs]⟩
    logTable := ⟨some (newEntry 0 2 irecvArgs :: newElements 3), 1, 4⟩
    logQueue := ⟨some (newChars 8), 2, 8⟩
    newLogGenerated := true }

theorem irecv_logged (seq : UInt32) :
    logData (freshDomain seq) 5000 [0, 0] irecvArgs = some (.ok, receiving seq) := rfl

def receiveBuffer (addr : ℕ) : UInt8 := if addr = 5000 then 7 else 8

theorem freshDomain_sound (seq : UInt32) : (Domain.relaxed (freshDomain seq)).Sound :=
  soundLog_create _ (by decide) (by decide)

theorem freshDomains_sound (seqs : List UInt32) :
    ∀ d ∈ seqs.map fun seq => Domain.relaxed (freshDomain seq), d.Sound := by
  intro d hd
  obtain ⟨seq, -, rfl⟩ := List.mem_map.mp hd
  exact freshDomain_sound seq

theorem freshDomains_notes (seqs : List UInt32) :
    ∀ d ∈ seqs.map fun seq => Domain.relaxed (freshDomain seq), ∀ x ∈ d.incompleteLog,
      x.flag ≠ irecvArgs.flag := by
  intro d hd x hx
  obtain ⟨seq, -, rfl⟩ := List.mem_map.mp hd
  cases hx

theorem once_packed_request_settles :
    ∃ st, run step (started (receiving 2) [.relaxed (freshDomain 1)])
        [.complete, .enter (.relaxed (freshDomain 3))] = some st ∧
      Settles receiveBuffer 100 st 0 (newEntry 0 2 irecvArgs) (newNote 5000 2 irecvArgs) := by
  have hroot : SoundLog (freshDomain 1) := freshDomain_sound 1
  have hown : SoundLog (receiving 2) := soundLog_logData (freshDomain_sound 2) (irecv_logged 2)
  have hrange : InRange (receiving 2) := by decide
  have hpack := packable_of_inRange hown hrange
  have hempty : HoldsLogs (freshDomain 1) [] := ⟨⟨rfl, Or.inr ⟨rfl, rfl⟩⟩, by simp, by simp⟩
  obtain ⟨p, hp⟩ : ∃ p, pushLogs (receiving 2) (freshDomain 1) = some p := by
    apply Option.isSome_iff_exists.mp
    decide +kernel
  obtain ⟨-, -, -, -, hholds, -⟩ := pushLogs_cases hown.valid hpack hroot hp
  have hone := (hholds rfl).2 [] hempty
  have hrun : run step (started (receiving 2) [.relaxed (freshDomain 1)])
      [.complete, .enter (.relaxed (freshDomain 3))] =
      some ⟨[.relaxed (freshDomain 3), .relaxed { p with myCd := { p.myCd with
        incompleteLog := p.myCd.incompleteLog ++ [newNote 5000 2 irecvArgs] } }], 0,
        [((receiving 2).myCd.cdId, 0)]⟩ := by
    simp only [run, step, started, completeStep, completeLogs, hp]
    rfl
  have hproper : Guarded step (Proper irecvArgs.flag)
      (started (receiving 2) [.relaxed (freshDomain 1)])
      [.complete, .enter (.relaxed (freshDomain 3))] :=
    fun _ _ => ⟨hrange, fun _ _ => ⟨⟨freshDomain_sound 3, rfl⟩, trivial⟩⟩
  refine ⟨_, hrun, ?_⟩
  refine (settles_iff_reached (freshDomains_sound [2, 1]) (freshDomains_notes [2, 1]) rfl rfl rfl
    (irecv_logged 2) hrun hproper receiveBuffer).2.mpr ⟨1, _, rfl, rfl, Or.inr ⟨freshDomain 3, rfl,
      by decide, fun e he => (by cases he), fun d hd => (by cases hd), [receiving 2], 0,
      receiving 2, rfl, ?_, rfl, fun x hx => (by cases hx), ?_⟩⟩
  · exact ⟨hone.pushed, hone.packable, hone.valid⟩
  · exact ⟨rfl, rfl, fun j hj => absurd hj (Nat.not_lt_zero j)⟩

theorem twice_packed_request_stays :
    ∃ st path', run step (started (receiving 3)
          [.relaxed (freshDomain 2), .relaxed (freshDomain 1)])
        [.complete, .complete, .enter (.relaxed (freshDomain 4))] = some st ∧
      Guarded step (Proper 100) (started (receiving 3)
          [.relaxed (freshDomain 2), .relaxed (freshDomain 1)])
        [.complete, .complete, .enter (.relaxed (freshDomain 4))] ∧
      probeAndLogData receiveBuffer 100 st.path = some path' ∧ findRecord 100 path' = none ∧
      ¬ Settles receiveBuffer 100 st 0 (newEntry 0 2 irecvArgs) (newNote 5000 2 irecvArgs) := by
  have hsecond : (step (started (receiving 3) [.relaxed (freshDomain 2), .relaxed (freshDomain 1)])
      .complete).all (fun st => CompletesProperly st.path) = true := by
    decide +kernel
  have hproper : Guarded step (Proper irecvArgs.flag) (started (receiving 3)
      [.relaxed (freshDomain 2), .relaxed (freshDomain 1)])
      [.complete, .complete, .enter (.relaxed (freshDomain 4))] := by
    intro s₁ h₁
    rw [h₁] at hsecond
    refine ⟨(by decide : InRange (receiving 3)), fun s₂ _ => ⟨?_, fun _ _ => ?_⟩⟩
    · have hpath : CompletesProperly s₁.path := of_decide_eq_true hsecond
      exact hpath
    · exact ⟨⟨freshDomain_sound 4, rfl⟩, trivial⟩
  have hend : ((run step (started (receiving 3)
      [.relaxed (freshDomain 2), .relaxed (freshDomain 1)])
      [.complete, .complete, .enter (.relaxed (freshDomain 4))]).map fun st =>
        (st.level, (probeAndLogData receiveBuffer 100 st.path).map (findRecord 100))) =
      some (0, some none) := by
    decide +kernel
  obtain ⟨st, hst, hval⟩ := Option.map_eq_some_iff.mp hend
  rw [Prod.mk.injEq] at hval
  obtain ⟨path', hpath', hnone⟩ := Option.map_eq_some_iff.mp hval.2
  refine ⟨st, path', hst, hproper, hpath', hnone, ?_⟩
  intro hsettles
  have hinv := inv_run (freshDomains_sound [3, 2, 1]) (freshDomains_notes [3, 2, 1]) rfl rfl
    (irecv_logged 3) hst hproper
  have hdepth := hinv.depth
  obtain ⟨k, p, -, -, ⟨-, hplace, -⟩ | ⟨q, -, -, -, -, cs, n, c, hplace, -⟩⟩ :=
    reached_of_settles hinv rfl rfl hsettles
  · rw [hplace, hval.1] at hdepth
    cases hdepth
  · rw [hplace, hval.1] at hdepth
    cases hdepth

end CDRuntime.Pending
