import CDRuntime.CommLogReplay
import Mathlib.Algebra.Ring.Nat

namespace CDRuntime
open Splice

namespace CommLog

/-- How often a replay serves an entry. -/
def weight (e : LogTableElement) : ℕ := if e.isrepeated then e.counter else 1

/-- One service: the length the caller has to ask for, and the bytes of the entry. -/
structure Service where
  length : ℕ
  bytes : List UInt8
  deriving DecidableEq, Repr

def service (bytes : List UInt8) (e : LogTableElement) : Service :=
  ⟨e.length, slice bytes e.pos e.length⟩

def services (bytes : List UInt8) (es : List LogTableElement) : List Service :=
  es.flatMap fun e => List.replicate (weight e - e.reexecCounter) (service bytes e)

def pending (c : CommLog) : List Service :=
  services c.logQueue.bytes (c.logTable.entries.drop c.logTableReexecPos)

def serve : List Service → List ReplayCall → Option (List (CommLogErrT × List UInt8))
  | _, [] => some []
  | [], _ :: xs => (serve [] xs).map ((.commLogModeFlip, []) :: ·)
  | s :: ss, x :: xs =>
      if x.length = s.length then (serve ss xs).map ((.ok, x.delivers s.bytes) :: ·) else none

/-- A log in the middle of a replay: all entries are completed and none has been served
more often than its counter allows. -/
structure Replaying (c : CommLog) : Prop extends c.Valid where
  completed : ∀ e ∈ c.logTable.entries, e.completed = true
  unserved : ∀ e ∈ c.logTable.entries, e.reexecCounter < weight e
  position : c.logTableReexecPos ≤ c.logTable.curPos

theorem services_cons (bytes : List UInt8) (e : LogTableElement) (es : List LogTableElement) :
    services bytes (e :: es) =
      List.replicate (weight e - e.reexecCounter) (service bytes e) ++ services bytes es := by
  simp only [services, List.flatMap_cons]

theorem services_append (bytes : List UInt8) (es es' : List LogTableElement) :
    services bytes (es ++ es') = services bytes es ++ services bytes es' := by
  simp only [services, List.flatMap_append]

theorem served_weight (e : LogTableElement) : weight (served e).1 = weight e := by
  unfold served weight
  split_ifs <;> rfl

theorem served_completed (e : LogTableElement) : (served e).1.completed = e.completed := by
  unfold served
  split_ifs <;> rfl

theorem service_served (bytes : List UInt8) (e : LogTableElement) :
    service bytes (served e).1 = service bytes e := by
  rw [service, served_pos, served_length, service]

theorem served_counter {e : LogTableElement} (h : e.reexecCounter < weight e) :
    (served e).1.reexecCounter < weight e ∧
      if (served e).2 then weight e = e.reexecCounter + 1 ∧ (served e).1.reexecCounter = 0
      else (served e).1.reexecCounter = e.reexecCounter + 1 := by
  by_cases hrep : e.isrepeated = true
  · have hw : weight e = e.counter := by rw [weight, if_pos hrep]
    by_cases hlast : e.reexecCounter + 1 = e.counter
    · rw [served_last hrep hlast, if_pos rfl]
      dsimp only
      omega
    · rw [served_more hrep hlast, if_neg Bool.false_ne_true]
      dsimp only
      omega
  · have hw : weight e = 1 := by rw [weight, if_neg hrep]
    rw [served_single hrep, if_pos rfl]
    dsimp only
    omega

theorem entry_at_position {c : CommLog} (h : Replaying c)
    (hlt : c.logTableReexecPos < c.logTable.curPos) :
    ∃ e, c.logTable.entries[c.logTableReexecPos]? = some e ∧
      c.logTable.entries.drop c.logTableReexecPos =
        e :: c.logTable.entries.drop (c.logTableReexecPos + 1) := by
  have hlt' : c.logTableReexecPos < c.logTable.entries.length := by
    rw [LogTable.entries_length h.table]
    exact hlt
  exact ⟨_, List.getElem?_eq_getElem hlt', List.drop_eq_getElem_cons hlt'⟩

theorem pending_at_end {c : CommLog} (h : Replaying c)
    (hend : c.logTableReexecPos = c.logTable.curPos) : pending c = [] := by
  have hlen := LogTable.entries_length h.table
  rw [pending, List.drop_eq_nil_of_le (by omega)]
  rfl

theorem pending_at_entry {c : CommLog} {e : LogTableElement}
    (hdrop : c.logTable.entries.drop c.logTableReexecPos =
      e :: c.logTable.entries.drop (c.logTableReexecPos + 1))
    (hlt : e.reexecCounter < weight e) :
    pending c = service c.logQueue.bytes e ::
      (List.replicate (weight e - (e.reexecCounter + 1)) (service c.logQueue.bytes e) ++
        services c.logQueue.bytes (c.logTable.entries.drop (c.logTableReexecPos + 1))) := by
  rw [pending, hdrop, services_cons,
    show weight e - e.reexecCounter = weight e - (e.reexecCounter + 1) + 1 by omega,
    List.replicate_succ, List.cons_append]

theorem replaying_served {c : CommLog} (h : Replaying c) {e : LogTableElement} {t : LogTable}
    (he : c.logTable.entries[c.logTableReexecPos]? = some e) (htv : t.Valid)
    (hcur : t.curPos = c.logTable.curPos)
    (hent : t.entries = c.logTable.entries.set c.logTableReexecPos (served e).1) :
    let c' := { c with
      logTable := t
      logTableReexecPos := c.logTableReexecPos + if (served e).2 then 1 else 0 }
    Replaying c' ∧ pending c' =
      List.replicate (weight e - (e.reexecCounter + 1)) (service c.logQueue.bytes e) ++
        services c.logQueue.bytes (c.logTable.entries.drop (c.logTableReexecPos + 1)) := by
  intro c'
  have hmem := List.mem_of_getElem? he
  have hlt : c.logTableReexecPos < c.logTable.entries.length :=
    (List.getElem?_eq_some_iff.mp he).1
  obtain ⟨hunserved, hmove⟩ := served_counter (h.unserved e hmem)
  have hsplit : ∀ x ∈ t.entries, x ∈ c.logTable.entries ∨ x = (served e).1 := by
    intro x hx
    rw [hent] at hx
    exact List.mem_or_eq_of_mem_set hx
  have hafter : t.entries.drop (c.logTableReexecPos + 1) =
      c.logTable.entries.drop (c.logTableReexecPos + 1) := by
    rw [hent, List.drop_set_of_lt (Nat.lt_succ_self _)]
  refine ⟨⟨valid_of_set h.toValid (served e).1 he (served_pos e) (served_length e) htv h.queue rfl
    hent, ?_, ?_, ?_⟩, ?_⟩
  · intro x hx
    rcases hsplit x hx with hx | rfl
    · exact h.completed x hx
    · rw [served_completed]
      exact h.completed e hmem
  · intro x hx
    rcases hsplit x hx with hx | rfl
    · exact h.unserved x hx
    · rw [served_weight]
      exact hunserved
  · change c.logTableReexecPos + _ ≤ t.curPos
    rw [LogTable.entries_length h.table] at hlt
    rw [hcur]
    split <;> omega
  · change services c.logQueue.bytes
      (t.entries.drop (c.logTableReexecPos + if (served e).2 then 1 else 0)) = _
    by_cases hm : (served e).2 = true
    · -- the last service of the entry: nothing of it is left
      rw [if_pos hm] at hmove
      rw [if_pos hm, hafter, hmove.1, Nat.sub_self, List.replicate_zero, List.nil_append]
    · rw [if_neg hm] at hmove
      have hdrop' : t.entries.drop c.logTableReexecPos =
          (served e).1 :: t.entries.drop (c.logTableReexecPos + 1) := by
        have hlt' : c.logTableReexecPos < t.entries.length := by rw [hent, List.length_set]; exact hlt
        rw [List.drop_eq_getElem_cons hlt']
        congr 1
        simp only [hent, List.getElem_set_self]
      rw [if_neg hm, Nat.add_zero, hdrop', services_cons, served_weight, service_served, hmove,
        hafter]

theorem replay_answers (xs : List ReplayCall) :
    ∀ c, Replaying c → (replay c xs).map Prod.fst = serve (pending c) xs := by
  induction xs with
  | nil =>
      intro c _
      rw [serve, replay, Option.map_some]
  | cons x xs ih =>
      intro c h
      rcases Nat.eq_or_lt_of_le h.position with hend | hlt
      · have hflip : Replaying { c with commLogMode := .generateLog } :=
          ⟨⟨h.table, h.queue, h.within, h.ordered⟩, h.completed, h.unserved, h.position⟩
        have hpend := pending_at_end h hend
        have hrest := ih _ hflip
        change _ = serve (pending c) xs at hrest
        rw [hpend] at hrest ⊢
        rw [replay, call_at_end hend, Option.bind_some, Option.map_map, serve, ← hrest,
          Option.map_map]
        rfl
      · obtain ⟨e, he, hdrop⟩ := entry_at_position h hlt
        have hmem := List.mem_of_getElem? he
        rw [pending_at_entry hdrop (h.unserved e hmem), serve]
        by_cases hlen : x.length = (service c.logQueue.bytes e).length
        · obtain ⟨t, hcall, htv, hcur, hent⟩ :=
            call_serves h.toValid he hlen (h.completed e hmem)
          obtain ⟨hnext, hpend⟩ := replaying_served h he htv hcur hent
          rw [if_pos hlen, ← hpend, ← ih _ hnext, replay, hcall, Option.bind_some, Option.map_map,
            Option.map_map]
          rfl
        · rw [if_neg hlen, replay, call_mismatch h.toValid he hlen]
          rfl

structure Replayable (c : CommLog) : Prop extends c.Valid where
  completed : ∀ e ∈ c.logTable.entries, e.completed = true
  rewound : ∀ e ∈ c.logTable.entries, e.reexecCounter = 0
  counted : ∀ e ∈ c.logTable.entries, e.isrepeated = true → 0 < e.counter

def servicesBefore (es : List LogTableElement) (k : ℕ) : ℕ := ((es.take k).map weight).sum

theorem servicesBefore_succ {es : List LogTableElement} {k : ℕ} {e : LogTableElement}
    (he : es[k]? = some e) : servicesBefore es (k + 1) = servicesBefore es k + weight e := by
  obtain ⟨hlt, rfl⟩ := List.getElem?_eq_some_iff.mp he
  rw [servicesBefore, List.take_succ_eq_append_getElem hlt, List.map_append, List.sum_append,
    servicesBefore]
  simp

theorem servicesBefore_mono (es : List LogTableElement) {k k' : ℕ} (h : k ≤ k') :
    servicesBefore es k ≤ servicesBefore es k' := by
  have htake : es.take k' = es.take k ++ (es.take k').drop k := by
    conv_lhs => rw [← List.take_append_drop k (es.take k')]
    rw [List.take_take, Nat.min_eq_left h]
  rw [servicesBefore, servicesBefore, htake, List.map_append, List.sum_append]
  exact Nat.le_add_right _ _

theorem weight_pos {c : CommLog} (h : Replayable c) {e : LogTableElement}
    (he : e ∈ c.logTable.entries) : 0 < weight e := by
  unfold weight
  split_ifs with hrep
  · exact h.counted e he hrep
  · exact Nat.one_pos

theorem reInit_replaying {c : CommLog} (h : Replayable c) : Replaying (reInit c) := by
  refine ⟨reInit_valid h.toValid, h.completed, ?_, Nat.zero_le _⟩
  intro e he
  rw [h.rewound e he]
  exact weight_pos h he

/-- After `n` services the log differs from `c` at most in the counter of the entry at the
replay position. -/
structure Progress (c s : CommLog) (n m : ℕ) : Prop where
  replaying : Replaying s
  queue : s.logQueue = c.logQueue
  served : n = servicesBefore c.logTable.entries s.logTableReexecPos + m
  entries : (m = 0 ∧ s.logTable.entries = c.logTable.entries) ∨
    ∃ e, c.logTable.entries[s.logTableReexecPos]? = some e ∧ m < weight e ∧
      s.logTable.entries =
        c.logTable.entries.set s.logTableReexecPos { e with reexecCounter := m }

theorem set_rewound {c : CommLog} (h : Replayable c) {k : ℕ} {e : LogTableElement}
    (he : c.logTable.entries[k]? = some e) :
    c.logTable.entries.set k { e with reexecCounter := 0 } = c.logTable.entries := by
  have he0 : { e with reexecCounter := 0 } = e := by
    rw [← h.rewound e (List.mem_of_getElem? he)]
  obtain ⟨_, hget⟩ := List.getElem?_eq_some_iff.mp he
  rw [he0, ← hget, List.set_getElem_self]

theorem progress_entry {c s : CommLog} {n m : ℕ} (h : Replayable c) (hp : Progress c s n m)
    {x : LogTableElement} (hx : s.logTable.entries[s.logTableReexecPos]? = some x) :
    ∃ e, c.logTable.entries[s.logTableReexecPos]? = some e ∧ x = { e with reexecCounter := m } ∧
      s.logTable.entries =
        c.logTable.entries.set s.logTableReexecPos { e with reexecCounter := m } := by
  rcases hp.entries with ⟨rfl, hsame⟩ | ⟨e, he, _, hset⟩
  · rw [hsame] at hx
    have hx0 : { x with reexecCounter := 0 } = x := by
      rw [← h.rewound x (List.mem_of_getElem? hx)]
    refine ⟨x, hx, hx0.symm, ?_⟩
    rw [hsame, set_rewound h hx]
  · refine ⟨e, he, ?_, hset⟩
    rw [hset, List.getElem?_set_self (List.getElem?_eq_some_iff.mp he).1, Option.some.injEq] at hx
    exact hx.symm

theorem progress_step {c s s' : CommLog} {n m : ℕ} {x : ReplayCall} {bytes : List UInt8}
    (h : Replayable c) (hp : Progress c s n m) (hcall : call s x = some (.ok, bytes, s')) :
    ∃ m', Progress c s' (n + 1) m' := by
  rcases Nat.eq_or_lt_of_le hp.replaying.position with hend | hlt
  · rw [call_at_end hend] at hcall
    exact absurd hcall (by simp)
  obtain ⟨y, hy, _⟩ := entry_at_position hp.replaying hlt
  have hmem := List.mem_of_getElem? hy
  by_cases hlen : x.length = y.length
  swap
  · rw [call_mismatch hp.replaying.toValid hy hlen] at hcall
    exact absurd hcall (by simp)
  obtain ⟨t, hcall', htv, hcur, hent⟩ :=
    call_serves hp.replaying.toValid hy hlen (hp.replaying.completed y hmem)
  rw [hcall', Option.some.injEq, Prod.mk.injEq, Prod.mk.injEq] at hcall
  obtain ⟨_, _, rfl⟩ := hcall
  have hnext := (replaying_served hp.replaying hy htv hcur hent).1
  obtain ⟨e, he, rfl, hset⟩ := progress_entry h hp hy
  have hlt' := (List.getElem?_eq_some_iff.mp he).1
  have hserved := hp.served
  have hent' : t.entries = c.logTable.entries.set s.logTableReexecPos
      (CommLog.served { e with reexecCounter := m }).1 := by
    rw [hent, hset, List.set_set]
  by_cases hrep : e.isrepeated = true
  · have hw : weight e = e.counter := by rw [weight, if_pos hrep]
    by_cases hlast : m + 1 = e.counter
    · -- the last service of a repeated entry restores the entry and moves on
      have hs := served_last (e := { e with reexecCounter := m }) hrep hlast
      rw [hs] at hent' hnext ⊢
      have hback := set_rewound h he
      refine ⟨0, hnext, hp.queue, ?_, Or.inl ⟨rfl, hent'.trans hback⟩⟩
      change n + 1 = servicesBefore c.logTable.entries (s.logTableReexecPos + 1) + 0
      rw [servicesBefore_succ he]
      omega
    · have hs := served_more (e := { e with reexecCounter := m }) hrep hlast
      rw [hs] at hent' hnext ⊢
      have hunserved := hnext.unserved { e with reexecCounter := m + 1 } (by
        rw [show ({ s with logTable := t, logTableReexecPos := _ } : CommLog).logTable.entries =
          t.entries from rfl, hent']
        exact List.mem_set hlt' _)
      refine ⟨m + 1, hnext, hp.queue, ?_, Or.inr ⟨e, he, hunserved, hent'⟩⟩
      change n + 1 = servicesBefore c.logTable.entries s.logTableReexecPos + (m + 1)
      omega
  · have hs := served_single (e := { e with reexecCounter := m }) hrep
    have hm : m = 0 := by
      have := hp.replaying.unserved _ hmem
      rw [weight, if_neg hrep] at this
      exact Nat.lt_one_iff.mp this
    subst hm
    rw [hs] at hent' hnext ⊢
    refine ⟨0, hnext, hp.queue, ?_, Or.inl ⟨rfl, hent'.trans (set_rewound h he)⟩⟩
    have hw : weight e = 1 := by rw [weight, if_neg hrep]
    change n + 1 = servicesBefore c.logTable.entries (s.logTableReexecPos + 1) + 0
    rw [servicesBefore_succ he]
    omega

theorem replay_progress {c : CommLog} (h : Replayable c) (xs : List ReplayCall) :
    ∀ s n m outs s', Progress c s n m → replay s xs = some (outs, s') →
      (∀ o ∈ outs, o.1 = CommLogErrT.ok) → ∃ m', Progress c s' (n + xs.length) m' := by
  induction xs with
  | nil =>
      intro s n m outs s' hp hrun _
      rw [replay, Option.some.injEq, Prod.mk.injEq] at hrun
      exact ⟨m, hrun.2 ▸ hp⟩
  | cons x xs ih =>
      intro s n m outs s' hp hrun hok
      obtain ⟨⟨err, bytes, s₁⟩, hcall, hrest⟩ := Option.bind_eq_some_iff.mp hrun
      obtain ⟨⟨outs', s''⟩, hreplay, heq⟩ := Option.map_eq_some_iff.mp hrest
      rw [Prod.mk.injEq] at heq
      obtain ⟨rfl, rfl⟩ := heq
      have herr : err = .ok := hok (err, bytes) List.mem_cons_self
      subst herr
      obtain ⟨m₁, hp₁⟩ := progress_step h hp hcall
      obtain ⟨m', hp'⟩ := ih s₁ (n + 1) m₁ outs' s'' hp₁ hreplay fun o ho =>
        hok o (List.mem_cons_of_mem _ ho)
      refine ⟨m', ?_⟩
      rw [List.length_cons, show n + (xs.length + 1) = n + 1 + xs.length by omega]
      exact hp'

/-- No entry has been served and every counter has been started. -/
structure Counted (c : CommLog) : Prop extends c.Valid where
  rewound : ∀ e ∈ c.logTable.entries, e.reexecCounter = 0
  counted : ∀ e ∈ c.logTable.entries, 0 < e.counter

theorem counted_of_set {c c' : CommLog} (h : Counted c) (hv : c'.Valid) {i : ℕ}
    {e' : LogTableElement} (hent : c'.logTable.entries = c.logTable.entries.set i e')
    (hre : e'.reexecCounter = 0) (hcount : 0 < e'.counter) : Counted c' := by
  have hsplit : ∀ x ∈ c'.logTable.entries, x ∈ c.logTable.entries ∨ x = e' := by
    intro x hx
    rw [hent] at hx
    exact List.mem_or_eq_of_mem_set hx
  refine ⟨hv, fun x hx => ?_, fun x hx => ?_⟩
  · rcases hsplit x hx with hx | rfl
    · exact h.rewound x hx
    · exact hre
  · rcases hsplit x hx with hx | rfl
    · exact h.counted x hx
    · exact hcount

theorem appends_counted {c c' : CommLog} {data : List UInt8} {a : LogArgs} (h : Counted c)
    (happ : Appends c c' data a) : Counted c' := by
  have hsplit : ∀ x ∈ c'.logTable.entries, x ∈ c.logTable.entries ∨
      x = newEntry c.logQueue.curPos data.length a := by
    intro x hx
    rw [happ.entries, List.mem_append, List.mem_singleton] at hx
    exact hx
  refine ⟨happ.valid, fun x hx => ?_, fun x hx => ?_⟩
  · rcases hsplit x hx with hx | rfl
    · exact h.rewound x hx
    · rfl
  · rcases hsplit x hx with hx | rfl
    · exact h.counted x hx
    · exact Nat.one_pos

theorem logStep_counted {c c' : CommLog} (h : Counted c) {op : LogOp}
    (hstep : logStep c op = some c') : Counted c' := by
  cases op with
  | log ptr data a =>
      obtain ⟨⟨err, c₁⟩, hlog, rfl⟩ := Option.map_eq_some_iff.mp hstep
      have happend : (a.isrepeated = false ∨
          foundRepeatedEntry c data.length a.completed a.flag = some false) → Counted c₁ := by
        intro hnew
        obtain ⟨c₂, hc₂, happ⟩ := logData_appends h.toValid ptr data hnew
        rw [hc₂, Option.some.injEq, Prod.mk.injEq] at hlog
        exact hlog.2 ▸ appends_counted h happ
      by_cases hrep : a.isrepeated = true
      · cases hfound : foundRepeatedEntry c data.length a.completed a.flag with
        | none =>
            rw [logData, if_pos hrep, hfound] at hlog
            exact absurd hlog (by simp)
        | some found =>
            cases found with
            | false => exact happend (Or.inr hfound)
            | true =>
                obtain ⟨c₂, e, hc₂, he, htv, hq, hent⟩ :=
                  logData_repeats h.toValid ptr data hrep hfound
                rw [hc₂, Option.some.injEq, Prod.mk.injEq] at hlog
                rw [← hlog.2]
                have hv : c₂.Valid := valid_of_set h.toValid { e with counter := e.counter + 1 } he
                  rfl rfl htv (hq ▸ h.queue) (by rw [hq]) hent
                exact counted_of_set h hv hent (h.rewound e (List.mem_of_getElem? he))
                  (Nat.succ_pos _)
      · exact happend (Or.inl (by simpa using hrep))
  | probe data flag =>
      rcases logStep_probe h.toValid hstep with rfl | ⟨i, e, hfirst, hcomp⟩
      · exact h
      · have hmem := List.mem_of_getElem? hfirst.1
        exact counted_of_set h hcomp.valid hcomp.entries (h.rewound e hmem) (h.counted e hmem)

theorem runLog_counted (ops : List LogOp) :
    ∀ c c', Counted c → runLog c ops = some c' → Counted c' := by
  induction ops with
  | nil =>
      intro c c' h hrun
      exact Option.some.inj hrun ▸ h
  | cons op ops ih =>
      intro c c' h hrun
      obtain ⟨c₁, hstep, hrest⟩ := Option.bind_eq_some_iff.mp hrun
      exact ih c₁ c' (logStep_counted h hstep) hrest

theorem runLog_replayable {c c' : CommLog} {ops : List LogOp} (h : Blank c)
    (hrun : runLog c ops = some c')
    (hdone : ∀ e ∈ c'.logTable.entries, e.completed = true) : Replayable c' := by
  have hent : c.logTable.entries = [] := by rw [LogTable.entries, h.empty, List.take_zero]
  have h₀ : Counted c := by
    refine ⟨h.toValid, ?_, ?_⟩
    · rw [hent]
      exact fun _ he => absurd he List.not_mem_nil
    · rw [hent]
      exact fun _ he => absurd he List.not_mem_nil
  have h₁ := runLog_counted ops c c' h₀ hrun
  exact ⟨h₁.toValid, hdone, h₁.rewound, fun e he _ => h₁.counted e he⟩

def Requests (xs : List ReplayCall) (ss : List Service) : Prop :=
  xs.map ReplayCall.length = ss.map Service.length

/-- A replay of `c` from the start hands out `ss` and then reports the end of the log. -/
def ServesAll (c : CommLog) (ss : List Service) : Prop :=
  ∀ xs x, Requests xs ss → (replay (reInit c) (xs ++ [x])).map Prod.fst =
    some (List.zipWith (fun x s => (.ok, x.delivers s.bytes)) xs ss ++ [(.commLogModeFlip, [])])

/-- The replay that follows a second `ReInit` is the first replay again: it gives the same
answers to all calls, and serves every entry as often as its counter says. -/
def Restarts (c c₁ : CommLog) : Prop :=
  (∀ xs, (replay (reInit c₁) xs).map Prod.fst = (replay (reInit c) xs).map Prod.fst) ∧
  ServesAll c₁ (c.logTable.entries.flatMap fun e =>
    List.replicate (weight e) (service c.logQueue.bytes e))

theorem serve_requests (ss : List Service) :
    ∀ xs x, Requests xs ss → serve ss (xs ++ [x]) =
      some (List.zipWith (fun x s => (.ok, x.delivers s.bytes)) xs ss ++
        [(.commLogModeFlip, [])]) := by
  induction ss with
  | nil =>
      intro xs x h
      rw [Requests, List.map_nil, List.map_eq_nil_iff] at h
      subst h
      rfl
  | cons s ss ih =>
      intro xs x h
      cases xs with
      | nil => exact absurd h (by simp [Requests])
      | cons y ys =>
          simp only [Requests, List.map_cons, List.cons.injEq] at h
          rw [List.cons_append, serve, if_pos h.1, ih ys x h.2]
          rfl

theorem serve_read (s : Service) (ss : List Service) (n : ℕ) (xs : List ReplayCall) :
    serve (s :: ss) (.read n :: xs) =
      if n = s.length then (serve ss xs).map ((.ok, s.bytes) :: ·) else none := rfl

theorem length_eq_of_serve_eq (ss : List Service) :
    ∀ ss', (∀ xs, serve ss xs = serve ss' xs) → ss.length = ss'.length := by
  induction ss with
  | nil =>
      intro ss' h
      cases ss' with
      | nil => rfl
      | cons s' ss' =>
          have := h [.read s'.length]
          simp [serve, ReplayCall.length] at this
  | cons s ss ih =>
      intro ss' h
      cases ss' with
      | nil =>
          have := h [.read s.length]
          simp [serve, ReplayCall.length] at this
      | cons s' ss' =>
          have hhead : s.length = s'.length := by
            by_contra hne
            have := h [.read s.length]
            rw [serve_read, serve_read, if_neg hne, if_pos rfl] at this
            simp [serve] at this
          rw [List.length_cons, List.length_cons, ih ss']
          intro xs
          have := h (.read s.length :: xs)
          rw [serve_read, serve_read, if_pos rfl, if_pos hhead] at this
          cases hs : serve ss xs with
          | none =>
              rw [hs, Option.map_none] at this
              exact (Option.map_eq_none_iff.mp this.symm).symm
          | some outs =>
              rw [hs, Option.map_some] at this
              obtain ⟨outs', hs', heq⟩ := Option.map_eq_some_iff.mp this.symm
              rw [hs', (List.cons.inj heq).2]

theorem pending_reInit (c : CommLog) :
    pending (reInit c) = services c.logQueue.bytes c.logTable.entries := rfl

theorem services_rewound {c : CommLog} (h : Replayable c) :
    services c.logQueue.bytes c.logTable.entries = c.logTable.entries.flatMap fun e =>
      List.replicate (weight e) (service c.logQueue.bytes e) := by
  rw [services, List.flatMap_def, List.flatMap_def]
  congr 1
  refine List.map_congr_left fun e he => ?_
  rw [h.rewound e he, Nat.sub_zero]

theorem services_set_length (bytes : List UInt8) {es : List LogTableElement} {k m : ℕ}
    {e : LogTableElement} (he : es[k]? = some e) (hzero : e.reexecCounter = 0)
    (hm : m < weight e) :
    (services bytes (es.set k { e with reexecCounter := m })).length + m =
      (services bytes es).length := by
  obtain ⟨hlt, hget⟩ := List.getElem?_eq_some_iff.mp he
  have hsplit : es = es.take k ++ e :: es.drop (k + 1) := by
    conv_lhs => rw [← List.take_append_drop k es, List.drop_eq_getElem_cons hlt, hget]
  have hw : weight { e with reexecCounter := m } = weight e := rfl
  rw [List.set_eq_take_append_cons_drop, if_pos hlt]
  conv_rhs => rw [hsplit]
  simp only [services_append, services_cons, List.length_append, List.length_replicate, hw, hzero]
  omega

/-- A replay that is interrupted and started again is the first replay again if and only if
the interruption came between two entries. -/
theorem restart_iff {c c₁ : CommLog} (h : Replayable c) {pre : List ReplayCall}
    {outs : List (CommLogErrT × List UInt8)} (hpre : replay (reInit c) pre = some (outs, c₁))
    (hok : ∀ o ∈ outs, o.1 = CommLogErrT.ok) :
    Restarts c c₁ ↔ ∃ k, pre.length = servicesBefore c.logTable.entries k := by
  have hstart : Progress c (reInit c) 0 0 :=
    ⟨reInit_replaying h, rfl, rfl, Or.inl ⟨rfl, rfl⟩⟩
  obtain ⟨m, hp⟩ := replay_progress h pre _ 0 0 outs c₁ hstart hpre hok
  rw [Nat.zero_add] at hp
  have hrep₁ : Replaying (reInit c₁) :=
    ⟨reInit_valid hp.replaying.toValid, hp.replaying.completed, hp.replaying.unserved,
      Nat.zero_le _⟩
  have hanswers : ∀ xs, (replay (reInit c₁) xs).map Prod.fst =
      serve (services c.logQueue.bytes c₁.logTable.entries) xs := by
    intro xs
    rw [replay_answers xs _ hrep₁, pending_reInit, hp.queue]
  have hanswers₀ : ∀ xs, (replay (reInit c) xs).map Prod.fst =
      serve (services c.logQueue.bytes c.logTable.entries) xs := fun xs =>
    replay_answers xs _ (reInit_replaying h)
  constructor
  · rintro ⟨hsame, _⟩
    have hlen := length_eq_of_serve_eq _ _ fun xs =>
      (hanswers xs).symm.trans ((hsame xs).trans (hanswers₀ xs))
    refine ⟨c₁.logTableReexecPos, ?_⟩
    rcases hp.entries with ⟨rfl, _⟩ | ⟨e, he, hm, hset⟩
    · exact hp.served
    · have hsum := services_set_length c.logQueue.bytes he (h.rewound e (List.mem_of_getElem? he)) hm
      rw [← hset] at hsum
      have hserved := hp.served
      omega
  · rintro ⟨k, hk⟩
    have hent : c₁.logTable.entries = c.logTable.entries := by
      rcases hp.entries with ⟨_, hent⟩ | ⟨e, he, hm, hset⟩
      · exact hent
      · -- no sum of whole entries lies strictly inside the services of entry `e`
        have hnext := servicesBefore_succ he
        have hserved := hp.served
        have hm0 : m = 0 := by
          rcases Nat.lt_or_ge c₁.logTableReexecPos k with hlt | hge
          · have := servicesBefore_mono c.logTable.entries (Nat.succ_le_of_lt hlt)
            rw [Nat.succ_eq_add_one] at this
            omega
          · have := servicesBefore_mono c.logTable.entries hge
            omega
        rw [hset, hm0, set_rewound h he]
    refine ⟨fun xs => ?_, fun xs x hx => ?_⟩
    · rw [hanswers, hanswers₀, hent]
    · rw [hanswers, hent, services_rewound h, serve_requests _ xs x hx]

/-- The log of one ordinary entry and one entry that is repeated once. -/
def repeatedLog : CommLog :=
  (runLog (create default .generateLog 1 1 1) [.log 0 [1] {}, .log 8 [2] { isrepeated := true },
    .log 8 [2] { isrepeated := true }]).getD (create default .generateLog 1 1 1)

theorem repeatedLog_replayable : Replayable repeatedLog := by
  have hrun : runLog (create default .generateLog 1 1 1) [.log 0 [1] {},
      .log 8 [2] { isrepeated := true }, .log 8 [2] { isrepeated := true }] =
      some repeatedLog := rfl
  exact runLog_replayable (create_blank default 1 1 Nat.one_pos) hrun (by decide)

def repeatedLogAfter (n : ℕ) : CommLog :=
  ((replay (reInit repeatedLog) (List.replicate n (.read 1))).map Prod.snd).getD repeatedLog

theorem restart_between_entries : Restarts repeatedLog (repeatedLogAfter 1) := by
  have hpre : replay (reInit repeatedLog) [.read 1] =
      some ([(.ok, [1])], repeatedLogAfter 1) := rfl
  exact (restart_iff repeatedLog_replayable hpre (by decide)).mpr ⟨1, by decide⟩

theorem interrupted_repeat_not_restarted :
    Replayable repeatedLog ∧
    replay (reInit repeatedLog) [.read 1, .read 1] =
      some ([(.ok, [1]), (.ok, [2])], repeatedLogAfter 2) ∧
    ¬ Restarts repeatedLog (repeatedLogAfter 2) := by
  refine ⟨repeatedLog_replayable, rfl, ?_⟩
  rintro ⟨hsame, _⟩
  exact absurd (hsame [.read 1, .read 1, .read 1]) (by decide)

end CommLog

end CDRuntime
