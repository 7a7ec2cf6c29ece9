import CDRuntime.CommLogBlocks
import Mathlib.Data.List.Forall2

namespace CDRuntime
open Splice

theorem forall₂_iff_getElem? {α β : Type*} {R : α → β → Prop} {xs : List α} {ys : List β} :
    List.Forall₂ R xs ys ↔ xs.length = ys.length ∧
      ∀ (i : ℕ) x y, xs[i]? = some x → ys[i]? = some y → R x y := by
  rw [List.forall₂_iff_get]
  refine and_congr_right fun _ => ⟨fun h i x y hx hy => ?_, fun h i h₁ h₂ => ?_⟩
  · obtain ⟨hx', rfl⟩ := List.getElem?_eq_some_iff.mp hx
    obtain ⟨hy', rfl⟩ := List.getElem?_eq_some_iff.mp hy
    exact h i hx' hy'
  · exact h i _ _ (List.getElem?_eq_getElem h₁) (List.getElem?_eq_getElem h₂)

namespace CommLog

/-- The calls made while a log is generated. `data` are the bytes at the address at the
time of the call. -/
inductive LogOp where
  | log (dataPtr : ℕ) (data : List UInt8) (a : LogArgs)
  | probe (data : List UInt8) (flag : ℕ)
  deriving DecidableEq, Repr

def logStep (c : CommLog) : LogOp → Option CommLog
  | .log dataPtr data a => (logData c dataPtr data a).map Prod.snd
  | .probe data flag => (probeAndLogData c data flag).map Prod.snd

def runLog (c : CommLog) : List LogOp → Option CommLog
  | [] => some c
  | op :: ops => (logStep c op).bind fun c' => runLog c' ops

def replay (c : CommLog) : List ReplayCall → Option (List (CommLogErrT × List UInt8) × CommLog)
  | [] => some ([], c)
  | x :: xs => (call c x).bind fun r =>
      (replay r.2.2 xs).map fun rs => ((r.1, r.2.1) :: rs.1, rs.2)

/-- One logged operation. The payload of an outstanding operation is `none`. -/
structure Record where
  flag : ℕ
  length : ℕ
  payload : Option (List UInt8)
  deriving DecidableEq, Repr

def Record.outstanding (flag : ℕ) (r : Record) : Prop := r.flag = flag ∧ r.payload = none

instance (flag : ℕ) (r : Record) : Decidable (r.outstanding flag) := by
  unfold Record.outstanding
  infer_instance

def Record.complete (flag : ℕ) (data : List UInt8) (r : Record) : Record :=
  if r.outstanding flag then { r with payload := some data } else r

/-- The records of a disciplined run: no flag has two outstanding operations, a completion
has the length of its operation, and a flag that is probed is outstanding or unused. -/
def recordStep (recs : List Record) : LogOp → Option (List Record)
  | .log _ data a =>
      if a.isrepeated then none
      else if a.completed then some (recs ++ [⟨a.flag, data.length, some data⟩])
      else if ∃ r ∈ recs, r.outstanding a.flag then none
      else some (recs ++ [⟨a.flag, data.length, none⟩])
  | .probe data flag =>
      if ∃ r ∈ recs, r.outstanding flag then
        if ∀ r ∈ recs, r.outstanding flag → r.length = data.length then
          some (recs.map (Record.complete flag data))
        else none
      else if ∃ r ∈ recs, r.flag = flag then none
      else some recs

def recordRun (recs : List Record) : List LogOp → Option (List Record)
  | [] => some recs
  | op :: ops => (recordStep recs op).bind fun recs' => recordRun recs' ops

/-- After `ReInit`, reading in log order gives every record its own bytes, and the next
read reports the end of the log. -/
def Replays (c : CommLog) (recs : List Record) : Prop :=
  ∃ c', replay (reInit c) (recs.map fun r => .read r.length) =
      some (recs.map fun r => (.ok, r.payload.getD []), c') ∧
    ∀ n, ∃ c'', readData c' n = some (.commLogModeFlip, [], c'')

/-- An incomplete entry never takes a flag of an entry logged before it. `seen` are the
flags of the table. -/
def FlagsFresh (seen : List ℕ) : List LogOp → Prop
  | [] => True
  | .log _ _ a :: ops => (a.completed = false → a.flag ∉ seen) ∧ FlagsFresh (seen ++ [a.flag]) ops
  | .probe _ _ :: ops => FlagsFresh seen ops

/-- An allocated log without entries. -/
structure Blank (c : CommLog) : Prop extends c.Valid where
  mode : c.commLogMode = .generateLog
  empty : c.logTable.curPos = 0

theorem create_blank (cd : OwnerCD) (queueUnit childUnit : ℕ) {tableUnit : ℕ}
    (h : 0 < tableUnit) : Blank (create cd .generateLog queueUnit tableUnit childUnit) := by
  have hent : (create cd .generateLog queueUnit tableUnit childUnit).logTable.entries = [] := rfl
  refine ⟨⟨⟨rfl, ?_, h, Nat.zero_le _⟩, ⟨rfl, ?_, Nat.zero_le _⟩, ?_, ?_⟩, rfl, rfl⟩
  · exact List.length_replicate
  · exact List.length_replicate
  · intro e he
    rw [hent] at he
    exact absurd he (List.not_mem_nil)
  · rw [hent]
    exact List.Pairwise.nil

/-- What an entry of the table says about the record of its operation. -/
def Tracks (e : LogTableElement) (r : Record) : Prop :=
  e.flag = r.flag ∧ e.length = r.length ∧ e.isrepeated = false

/-- An entry that serves the payload of its record. -/
def Serves (bytes : List UInt8) (e : LogTableElement) (r : Record) : Prop :=
  e.completed = true ∧ slice bytes e.pos e.length = r.payload.getD []

theorem replay_iff_serves (recs : List Record) :
    ∀ c : CommLog, c.Valid →
      List.Forall₂ Tracks (c.logTable.entries.drop c.logTableReexecPos) recs →
      c.logTableReexecPos ≤ c.logTable.curPos →
      ((∃ c', replay c (recs.map fun r => .read r.length) =
          some (recs.map fun r => (.ok, r.payload.getD []), c') ∧
        ∀ n, ∃ c'', readData c' n = some (.commLogModeFlip, [], c'')) ↔
      List.Forall₂ (Serves c.logQueue.bytes) (c.logTable.entries.drop c.logTableReexecPos)
        recs) := by
  induction recs with
  | nil =>
      intro c h htr hle
      have hend : c.logTableReexecPos = c.logTable.curPos := by
        have hlen := htr.length_eq
        rw [List.length_drop, LogTable.entries_length h.table, List.length_nil] at hlen
        omega
      rw [List.forall₂_nil_right_iff] at htr
      rw [htr]
      exact iff_of_true ⟨c, rfl, fun n => ⟨_, call_at_end hend (.read n)⟩⟩ List.Forall₂.nil
  | cons r recs ih =>
      intro c h htr hle
      obtain ⟨e, es, ⟨_, hlen, hrep⟩, htl, hdrop⟩ := List.forall₂_cons_right_iff.mp htr
      have he : c.logTable.entries[c.logTableReexecPos]? = some e := by
        have := congrArg (fun l => l[0]?) hdrop
        simpa only [List.getElem?_drop, Nat.add_zero, List.getElem?_cons_zero] using this
      have hi : c.logTableReexecPos < c.logTable.curPos := by
        rw [← LogTable.entries_length h.table]
        exact (List.getElem?_eq_some_iff.mp he).1
      rw [hdrop, List.forall₂_cons]
      by_cases hcomp : e.completed = true
      · obtain ⟨t, hcall, htv, hcur, hent⟩ := call_serves (x := .read r.length) h he hlen.symm hcomp
        have hserved : served e = (e, true) := served_single (by rw [hrep]; exact Bool.false_ne_true)
        rw [hserved] at hcall hent
        have hent' : t.entries = c.logTable.entries := by
          obtain ⟨hlt, hget⟩ := List.getElem?_eq_some_iff.mp he
          rw [hent, ← hget, List.set_getElem_self]
        -- the log after one read: same entries, position moved by one
        have hv : CommLog.Valid { c with
            logTable := t, logTableReexecPos := c.logTableReexecPos + 1 } :=
          valid_of_set h e he rfl rfl htv h.queue rfl hent
        have hdrop' : t.entries.drop (c.logTableReexecPos + 1) = es := by
          rw [hent', ← List.drop_drop, hdrop]
          rfl
        have hnext := ih { c with logTable := t, logTableReexecPos := c.logTableReexecPos + 1 } hv
          (by rw [hdrop']; exact htl) (by dsimp only; omega)
        simp only [hdrop'] at hnext
        have hreplay : replay c ((r :: recs).map fun r => .read r.length) =
            (replay { c with logTable := t, logTableReexecPos := c.logTableReexecPos + 1 }
              (recs.map fun r => .read r.length)).map fun rs =>
                ((.ok, slice c.logQueue.bytes e.pos e.length) :: rs.1, rs.2) := by
          rw [List.map_cons, replay, hcall]
          rfl
        rw [hreplay, ← hnext]
        constructor
        · rintro ⟨c', hc', hflip⟩
          obtain ⟨⟨rs, c₁⟩, hrs, heq⟩ := Option.map_eq_some_iff.mp hc'
          simp only [List.map_cons, Prod.mk.injEq, List.cons.injEq, true_and] at heq
          obtain ⟨⟨hslice, rfl⟩, rfl⟩ := heq
          exact ⟨⟨hcomp, hslice⟩, c₁, hrs, hflip⟩
        · rintro ⟨⟨_, hslice⟩, c', hc', hflip⟩
          refine ⟨c', ?_, hflip⟩
          rw [hc', Option.map_some, List.map_cons, hslice]
      · have hcomp' : e.completed = false := by simpa using hcomp
        have hcall := call_incomplete (x := .read r.length) h he hlen.symm hcomp'
        refine iff_of_false ?_ fun hs => hcomp hs.1.1
        rintro ⟨c', hc', _⟩
        rw [List.map_cons, replay, hcall, Option.bind_some] at hc'
        obtain ⟨rs, _, heq⟩ := Option.map_eq_some_iff.mp hc'
        simp [ReplayCall.incomplete] at heq

/-- The table has one entry of the right shape for each record. -/
structure Mirrors (c : CommLog) (recs : List Record) : Prop where
  valid : c.Valid
  tracks : List.Forall₂ Tracks c.logTable.entries recs

def newRecord (data : List UInt8) (a : LogArgs) : Record :=
  ⟨a.flag, data.length, if a.completed then some data else none⟩

theorem recordStep_log {recs recs' : List Record} {ptr : ℕ} {data : List UInt8} {a : LogArgs}
    (h : recordStep recs (.log ptr data a) = some recs') :
    a.isrepeated = false ∧ recs' = recs ++ [newRecord data a] := by
  simp only [recordStep] at h
  by_cases hrep : a.isrepeated = true
  · rw [if_pos hrep] at h
    exact absurd h (by simp)
  · rw [if_neg hrep] at h
    refine ⟨by simpa using hrep, ?_⟩
    by_cases hcomp : a.completed = true
    · rw [if_pos hcomp, Option.some.injEq] at h
      rw [newRecord, if_pos hcomp, h]
    · rw [if_neg hcomp] at h
      rw [newRecord, if_neg hcomp]
      split at h
      · exact absurd h (by simp)
      · exact (Option.some.inj h).symm

theorem recordStep_probe {recs recs' : List Record} {data : List UInt8} {flag : ℕ}
    (h : recordStep recs (.probe data flag) = some recs') :
    recs' = recs.map (Record.complete flag data) ∧
      (∀ r ∈ recs, r.outstanding flag → r.length = data.length) ∧
      ((∃ r ∈ recs, r.outstanding flag) ∨ ∀ r ∈ recs, r.flag ≠ flag) := by
  simp only [recordStep] at h
  by_cases hout : ∃ r ∈ recs, r.outstanding flag
  · rw [if_pos hout] at h
    split at h
    · next hlen => exact ⟨(Option.some.inj h).symm, hlen, Or.inl hout⟩
    · exact absurd h (by simp)
  · rw [if_neg hout] at h
    split at h
    · exact absurd h (by simp)
    · next habs =>
      have hno : ∀ r ∈ recs, ¬ r.outstanding flag := fun r hr ho => hout ⟨r, hr, ho⟩
      refine ⟨?_, fun r hr ho => absurd ho (hno r hr), Or.inr fun r hr hf => habs ⟨r, hr, hf⟩⟩
      rw [← Option.some.inj h]
      symm
      calc recs.map (Record.complete flag data) = recs.map id :=
            List.map_congr_left fun r hr => by rw [Record.complete, if_neg (hno r hr)]; rfl
        _ = recs := List.map_id _

theorem tracks_complete {e : LogTableElement} {r : Record} (h : Tracks e r) (flag : ℕ)
    (data : List UInt8) : Tracks e (r.complete flag data) := by
  unfold Record.complete
  split_ifs
  · exact h
  · exact h

theorem logStep_log {c : CommLog} (h : c.Valid) (ptr : ℕ) (data : List UInt8) {a : LogArgs}
    (hrep : a.isrepeated = false) :
    ∃ c', logStep c (.log ptr data a) = some c' ∧ Appends c c' data a := by
  obtain ⟨c', hc', happ⟩ := logData_appends h ptr data (Or.inl hrep)
  exact ⟨c', by rw [logStep, hc', Option.map_some], happ⟩

theorem logStep_probe {c c' : CommLog} (h : c.Valid) {data : List UInt8} {flag : ℕ}
    (hstep : logStep c (.probe data flag) = some c') :
    c' = c ∨ ∃ i e, FirstWithFlag c.logTable flag i e ∧ Completes c c' i e data := by
  rw [logStep] at hstep
  rcases findFlag_cases h.table flag with ⟨i, e, _, hfirst⟩ | ⟨_, habs⟩
  · by_cases hlen : e.length = data.length
    · obtain ⟨c₁, hc₁, hcomp⟩ := probeAndLogData_completes h data hfirst hlen
      rw [hc₁, Option.map_some, Option.some.injEq] at hstep
      exact Or.inr ⟨i, e, hfirst, hstep ▸ hcomp⟩
    · rw [probeAndLogData_mismatch h hfirst hlen] at hstep
      exact absurd hstep (by simp)
  · rw [probeAndLogData_absent h data habs, Option.map_some, Option.some.injEq] at hstep
    exact Or.inl hstep.symm

theorem appends_mirrors {c c' : CommLog} {recs : List Record} {data : List UInt8} {a : LogArgs}
    (h : Mirrors c recs) (hrep : a.isrepeated = false) (happ : Appends c c' data a) :
    Mirrors c' (recs ++ [newRecord data a]) := by
  refine ⟨happ.valid, ?_⟩
  rw [happ.entries]
  exact List.rel_append h.tracks (List.Forall₂.cons ⟨rfl, rfl, hrep⟩ List.Forall₂.nil)

theorem completes_mirrors {c c' : CommLog} {recs : List Record} {data : List UInt8} {flag i : ℕ}
    {e : LogTableElement} (h : Mirrors c recs) (he : c.logTable.entries[i]? = some e)
    (hcomp : Completes c c' i e data) : Mirrors c' (recs.map (Record.complete flag data)) := by
  refine ⟨hcomp.valid, ?_⟩
  rw [hcomp.entries, List.forall₂_map_right_iff, forall₂_iff_getElem?]
  obtain ⟨hlen, hall⟩ := forall₂_iff_getElem?.mp h.tracks
  refine ⟨by rw [List.length_set, hlen], fun k x r hx hr => ?_⟩
  apply tracks_complete
  by_cases hk : i = k
  · subst hk
    have hlt := (List.getElem?_eq_some_iff.mp he).1
    rw [List.getElem?_set_self hlt, Option.some.injEq] at hx
    rw [← hx]
    exact hall i e r he hr
  · rw [List.getElem?_set_ne hk] at hx
    exact hall k x r hx hr

theorem mirrors_step {c c' : CommLog} {recs recs' : List Record} {op : LogOp}
    (h : Mirrors c recs) (hrec : recordStep recs op = some recs') (hstep : logStep c op = some c') :
    Mirrors c' recs' := by
  cases op with
  | log ptr data a =>
      obtain ⟨hrep, rfl⟩ := recordStep_log hrec
      obtain ⟨c₁, hc₁, happ⟩ := logStep_log h.valid ptr data hrep
      rw [hc₁, Option.some.injEq] at hstep
      exact hstep ▸ appends_mirrors h hrep happ
  | probe data flag =>
      obtain ⟨rfl, _, _⟩ := recordStep_probe hrec
      rcases logStep_probe h.valid hstep with rfl | ⟨i, e, hfirst, hcomp⟩
      · exact ⟨h.valid, List.forall₂_map_right_iff.mpr
          (h.tracks.imp fun _ _ ht => tracks_complete ht flag data)⟩
      · exact completes_mirrors h hfirst.1 hcomp

/-- An incomplete entry behind an earlier entry of the same flag. -/
def Shadowed (c : CommLog) : Prop :=
  ∃ (i j : ℕ) (e e' : LogTableElement), i < j ∧ c.logTable.entries[i]? = some e ∧
    c.logTable.entries[j]? = some e' ∧ e.flag = e'.flag ∧ e'.completed = false

theorem appends_shadowed {c c' : CommLog} {data : List UInt8} {a : LogArgs}
    (happ : Appends c c' data a) (hs : Shadowed c) : Shadowed c' := by
  obtain ⟨i, j, e, e', hij, he, he', hf, hc⟩ := hs
  refine ⟨i, j, e, e', hij, ?_, ?_, hf, hc⟩
  · rw [happ.entries, List.getElem?_append_left (List.getElem?_eq_some_iff.mp he).1, he]
  · rw [happ.entries, List.getElem?_append_left (List.getElem?_eq_some_iff.mp he').1, he']

theorem completes_shadowed {c c' : CommLog} {flag k : ℕ} {x : LogTableElement}
    {data : List UInt8} (hfirst : FirstWithFlag c.logTable flag k x)
    (hcomp : Completes c c' k x data) (hs : Shadowed c) : Shadowed c' := by
  obtain ⟨i, j, e, e', hij, he, he', hf, hc⟩ := hs
  obtain ⟨hx, hxf, hmin⟩ := hfirst
  -- the first entry of its own flag is never the shadowed one
  have hkj : k ≠ j := by
    rintro rfl
    rw [he', Option.some.injEq] at hx
    exact hmin i hij e he (by rw [hf, hx, hxf])
  have hj : c'.logTable.entries[j]? = some e' := by
    rw [hcomp.entries, List.getElem?_set_ne hkj, he']
  by_cases hki : k = i
  · subst hki
    rw [he, Option.some.injEq] at hx
    refine ⟨k, j, { e with completed := true }, e', hij, ?_, hj, hf, hc⟩
    rw [hcomp.entries, ← hx, List.getElem?_set_self (List.getElem?_eq_some_iff.mp he).1]
  · refine ⟨i, j, e, e', hij, ?_, hj, hf, hc⟩
    rw [hcomp.entries, List.getElem?_set_ne hki, he]

theorem logStep_shadowed {c c' : CommLog} {recs recs' : List Record} {op : LogOp}
    (h : Mirrors c recs) (hrec : recordStep recs op = some recs') (hstep : logStep c op = some c')
    (hs : Shadowed c) : Shadowed c' := by
  cases op with
  | log ptr data a =>
      obtain ⟨c₁, hc₁, happ⟩ := logStep_log h.valid ptr data (recordStep_log hrec).1
      rw [hc₁, Option.some.injEq] at hstep
      exact hstep ▸ appends_shadowed happ hs
  | probe data flag =>
      rcases logStep_probe h.valid hstep with rfl | ⟨i, e, hfirst, hcomp⟩
      · exact hs
      · exact completes_shadowed hfirst hcomp hs

theorem runLog_shadowed (ops : List LogOp) :
    ∀ c recs c' recs', Mirrors c recs → recordRun recs ops = some recs' → runLog c ops = some c' →
      Mirrors c' recs' ∧ (Shadowed c ∨ ¬ FlagsFresh (recs.map Record.flag) ops → Shadowed c') := by
  induction ops with
  | nil =>
      intro c recs c' recs' h hrec hrun
      rw [recordRun, Option.some.injEq] at hrec
      rw [runLog, Option.some.injEq] at hrun
      subst hrec hrun
      exact ⟨h, fun hs => hs.elim id fun hf => absurd trivial hf⟩
  | cons op ops ih =>
      intro c recs c' recs' h hrec hrun
      obtain ⟨recs₁, hrec₁, hrec⟩ := Option.bind_eq_some_iff.mp hrec
      obtain ⟨c₁, hstep, hrun⟩ := Option.bind_eq_some_iff.mp hrun
      have h₁ := mirrors_step h hrec₁ hstep
      obtain ⟨h', hs'⟩ := ih c₁ recs₁ c' recs' h₁ hrec hrun
      refine ⟨h', fun hs => hs' ?_⟩
      rcases hs with hs | hfresh
      · exact Or.inl (logStep_shadowed h hrec₁ hstep hs)
      · cases op with
        | probe data flag =>
            obtain ⟨rfl, _, _⟩ := recordStep_probe hrec₁
            refine Or.inr ?_
            rw [List.map_map]
            have hflag : Record.flag ∘ Record.complete flag data = Record.flag := by
              funext r
              simp only [Function.comp, Record.complete]
              split_ifs <;> rfl
            rwa [hflag]
        | log ptr data a =>
            obtain ⟨hrep, rfl⟩ := recordStep_log hrec₁
            rw [List.map_append]
            by_cases hhead : a.completed = false → a.flag ∉ recs.map Record.flag
            · exact Or.inr fun hf => hfresh ⟨hhead, hf⟩
            · -- the entry just logged is incomplete and takes a flag of the table
              simp only [Classical.not_imp, not_not] at hhead
              obtain ⟨hcomp, hmem⟩ := hhead
              obtain ⟨r, hr, hrf⟩ := List.mem_map.mp hmem
              obtain ⟨i, hi⟩ := List.mem_iff_getElem?.mp hr
              obtain ⟨hlen, hall⟩ := forall₂_iff_getElem?.mp h.tracks
              have hi' : i < c.logTable.entries.length := by
                rw [hlen]
                exact (List.getElem?_eq_some_iff.mp hi).1
              obtain ⟨c₂, hc₂, happ⟩ := logStep_log h.valid ptr data hrep
              rw [hc₂, Option.some.injEq] at hstep
              subst hstep
              refine Or.inl ⟨i, c.logTable.entries.length, c.logTable.entries[i],
                newEntry c.logQueue.curPos data.length a, hi', ?_, ?_, ?_, hcomp⟩
              · rw [happ.entries, List.getElem?_append_left hi', List.getElem?_eq_getElem hi']
              · rw [happ.entries, List.getElem?_concat_length]
              · rw [(hall i _ r (List.getElem?_eq_getElem hi') hi).1, hrf]
                rfl

/-- The entry of an outstanding record is incomplete, that of a completed one holds its
payload. -/
def Holds (bytes : List UInt8) (e : LogTableElement) (r : Record) : Prop :=
  match r.payload with
  | none => e.completed = false
  | some data => e.completed = true ∧ slice bytes e.pos e.length = data

structure Faithful (c : CommLog) (recs : List Record) : Prop extends Mirrors c recs where
  holds : List.Forall₂ (Holds c.logQueue.bytes) c.logTable.entries recs
  fresh : recs.Pairwise fun r r' => r'.payload = none → r.flag ≠ r'.flag

theorem holds_of_slice_eq {bytes bytes' : List UInt8} {e : LogTableElement} {r : Record}
    (h : Holds bytes e r)
    (hs : slice bytes' e.pos e.length = slice bytes e.pos e.length) : Holds bytes' e r := by
  unfold Holds at *
  split
  · next hp => simpa only [hp] using h
  · next data hp =>
    simp only [hp] at h
    exact ⟨h.1, hs.trans h.2⟩

theorem appends_faithful {c c' : CommLog} {recs : List Record} {data : List UInt8} {a : LogArgs}
    (h : Faithful c recs) (hrep : a.isrepeated = false) (happ : Appends c c' data a)
    (hfresh : a.completed = false → a.flag ∉ recs.map Record.flag) :
    Faithful c' (recs ++ [newRecord data a]) := by
  refine ⟨appends_mirrors h.toMirrors hrep happ, ?_, ?_⟩
  · rw [happ.entries]
    refine List.rel_append ?_ (List.Forall₂.cons ?_ List.Forall₂.nil)
    · obtain ⟨hlen, hall⟩ := forall₂_iff_getElem?.mp h.holds
      refine forall₂_iff_getElem?.mpr ⟨hlen, fun i e r he hr => ?_⟩
      have hwithin := h.valid.within e (List.mem_of_getElem? he)
      exact holds_of_slice_eq (hall i e r he hr) (happ.kept _ _ hwithin)
    · unfold Holds newRecord
      by_cases hcomp : a.completed = true
      · rw [if_pos hcomp]
        exact ⟨hcomp, happ.payload hcomp⟩
      · rw [if_neg hcomp]
        exact Bool.eq_false_iff.mpr hcomp
  · refine List.pairwise_append.mpr ⟨h.fresh, List.pairwise_singleton _ _, ?_⟩
    intro r hr r' hr' hnone heq
    rw [List.mem_singleton] at hr'
    subst hr'
    have hcomp : a.completed = false := by
      by_contra hc
      rw [newRecord, if_pos (by simpa using hc)] at hnone
      exact absurd hnone (by simp)
    exact hfresh hcomp (List.mem_map.mpr ⟨r, hr, heq⟩)

theorem first_of_outstanding {c : CommLog} {recs : List Record} (h : Faithful c recs) {i : ℕ}
    {r : Record} {flag : ℕ} (hr : recs[i]? = some r) (hout : r.outstanding flag) :
    ∃ e, FirstWithFlag c.logTable flag i e ∧ Tracks e r := by
  obtain ⟨hlen, hall⟩ := forall₂_iff_getElem?.mp h.tracks
  obtain ⟨hi, hget⟩ := List.getElem?_eq_some_iff.mp hr
  have hi' : i < c.logTable.entries.length := by rw [hlen]; exact hi
  have htr := hall i _ r (List.getElem?_eq_getElem hi') hr
  refine ⟨c.logTable.entries[i], ⟨List.getElem?_eq_getElem hi', htr.1.trans hout.1, ?_⟩, htr⟩
  intro j hj e' he' hef
  have hj' : j < recs.length := Nat.lt_trans hj hi
  have htr' := hall j e' _ he' (List.getElem?_eq_getElem hj')
  have hne := List.pairwise_iff_getElem.mp h.fresh j i hj' hi hj
  rw [hget] at hne
  exact hne hout.2 (by rw [← htr'.1, hef, hout.1])

theorem outstanding_unique {c : CommLog} {recs : List Record} (h : Faithful c recs) {i k : ℕ}
    {r r' : Record} {flag : ℕ} (hr : recs[i]? = some r) (hr' : recs[k]? = some r')
    (hout : r.outstanding flag) (hout' : r'.outstanding flag) : i = k := by
  obtain ⟨hi, hget⟩ := List.getElem?_eq_some_iff.mp hr
  obtain ⟨hk, hget'⟩ := List.getElem?_eq_some_iff.mp hr'
  rcases Nat.lt_trichotomy i k with hik | hik | hik
  · have hne := List.pairwise_iff_getElem.mp h.fresh i k hi hk hik
    rw [hget, hget'] at hne
    exact absurd (hout.1.trans hout'.1.symm) (hne hout'.2)
  · exact hik
  · have hne := List.pairwise_iff_getElem.mp h.fresh k i hk hi hik
    rw [hget, hget'] at hne
    exact absurd (hout'.1.trans hout.1.symm) (hne hout.2)

theorem complete_fresh {recs : List Record} (flag : ℕ) (data : List UInt8)
    (h : recs.Pairwise fun r r' => r'.payload = none → r.flag ≠ r'.flag) :
    (recs.map (Record.complete flag data)).Pairwise
      fun r r' => r'.payload = none → r.flag ≠ r'.flag := by
  have hflag : ∀ r : Record, (r.complete flag data).flag = r.flag := by
    intro r
    unfold Record.complete
    split_ifs <;> rfl
  have hpay : ∀ r : Record, (r.complete flag data).payload = none → r.payload = none := by
    intro r
    unfold Record.complete
    split_ifs with ho
    · exact fun hn => absurd hn (by simp)
    · exact id
  refine List.pairwise_map.mpr (h.imp fun {r r'} hne hnone => ?_)
  rw [hflag, hflag]
  exact hne (hpay r' hnone)

theorem completes_faithful {c c' : CommLog} {recs : List Record} {data : List UInt8} {flag i : ℕ}
    {e : LogTableElement} {r : Record} (h : Faithful c recs) (hr : recs[i]? = some r)
    (hout : r.outstanding flag) (he : c.logTable.entries[i]? = some e)
    (hcomp : Completes c c' i e data) :
    Faithful c' (recs.map (Record.complete flag data)) := by
  refine ⟨completes_mirrors h.toMirrors he hcomp, ?_, complete_fresh flag data h.fresh⟩
  rw [hcomp.entries, List.forall₂_map_right_iff]
  obtain ⟨hlen, hall⟩ := forall₂_iff_getElem?.mp h.holds
  refine forall₂_iff_getElem?.mpr ⟨by rw [List.length_set, hlen], fun k x r' hx hr' => ?_⟩
  by_cases hk : i = k
  · subst hk
    rw [hr, Option.some.injEq] at hr'
    rw [List.getElem?_set_self (List.getElem?_eq_some_iff.mp he).1, Option.some.injEq] at hx
    rw [← hr', ← hx, Record.complete, if_pos hout]
    exact ⟨rfl, hcomp.payload⟩
  · rw [List.getElem?_set_ne hk] at hx
    have hno : ¬ r'.outstanding flag := fun ho => hk (outstanding_unique h hr hr' hout ho)
    rw [Record.complete, if_neg hno]
    exact holds_of_slice_eq (hall k x r' hx hr') (hcomp.kept k x (Ne.symm hk) hx)

theorem runLog_faithful (ops : List LogOp) :
    ∀ c recs recs', Faithful c recs → recordRun recs ops = some recs' →
      FlagsFresh (recs.map Record.flag) ops →
      ∃ c', runLog c ops = some c' ∧ Faithful c' recs' := by
  induction ops with
  | nil =>
      intro c recs recs' h hrec _
      rw [recordRun, Option.some.injEq] at hrec
      exact ⟨c, rfl, hrec ▸ h⟩
  | cons op ops ih =>
      intro c recs recs' h hrec hfresh
      obtain ⟨recs₁, hrec₁, hrec⟩ := Option.bind_eq_some_iff.mp hrec
      suffices hone : ∃ c₁, logStep c op = some c₁ ∧ Faithful c₁ recs₁ ∧
          FlagsFresh (recs₁.map Record.flag) ops by
        obtain ⟨c₁, hstep, h₁, hf₁⟩ := hone
        obtain ⟨c', hrun, h'⟩ := ih c₁ recs₁ recs' h₁ hrec hf₁
        exact ⟨c', by rw [runLog, hstep, Option.bind_some, hrun], h'⟩
      cases op with
      | log ptr data a =>
          obtain ⟨hrep, rfl⟩ := recordStep_log hrec₁
          obtain ⟨c₁, hc₁, happ⟩ := logStep_log h.valid ptr data hrep
          refine ⟨c₁, hc₁, appends_faithful h hrep happ hfresh.1, ?_⟩
          rw [List.map_append]
          exact hfresh.2
      | probe data flag =>
          obtain ⟨rfl, hlen, hcase⟩ := recordStep_probe hrec₁
          have hflags : (recs.map (Record.complete flag data)).map Record.flag =
              recs.map Record.flag := by
            rw [List.map_map]
            refine List.map_congr_left fun r _ => ?_
            simp only [Function.comp, Record.complete]
            split_ifs <;> rfl
          rcases hcase with ⟨r, hr, hout⟩ | habs
          · obtain ⟨i, hi⟩ := List.mem_iff_getElem?.mp hr
            obtain ⟨e, hfirst, htr⟩ := first_of_outstanding h hi hout
            obtain ⟨c₁, hc₁, hcomp⟩ := probeAndLogData_completes h.valid data hfirst
              (htr.2.1.trans (hlen r hr hout))
            refine ⟨c₁, by rw [logStep, hc₁, Option.map_some],
              completes_faithful h hi hout hfirst.1 hcomp, ?_⟩
            rw [hflags]
            exact hfresh
          · have hsame : recs.map (Record.complete flag data) = recs := by
              conv_rhs => rw [← List.map_id recs]
              refine List.map_congr_left fun r hr => ?_
              rw [Record.complete, if_neg fun ho => habs r hr ho.1]
              rfl
            have hent : ∀ e ∈ c.logTable.entries, e.flag ≠ flag := by
              intro e he hef
              obtain ⟨i, hi⟩ := List.mem_iff_getElem?.mp he
              obtain ⟨hl, hall⟩ := forall₂_iff_getElem?.mp h.tracks
              have hi' : i < recs.length := by
                rw [← hl]
                exact (List.getElem?_eq_some_iff.mp hi).1
              have htr := hall i e _ hi (List.getElem?_eq_getElem hi')
              exact habs recs[i] (List.getElem_mem hi') (htr.1 ▸ hef)
            refine ⟨c, by rw [logStep, probeAndLogData_absent h.valid data hent, Option.map_some],
              ?_, ?_⟩
            · rw [hsame]
              exact h
            · rw [hflags]
              exact hfresh

theorem replays_iff_serves {c : CommLog} {recs : List Record} (h : Mirrors c recs) :
    Replays c recs ↔ List.Forall₂ (Serves c.logQueue.bytes) c.logTable.entries recs :=
  replay_iff_serves recs (reInit c) (reInit_valid h.valid) h.tracks (Nat.zero_le _)

theorem not_shadowed_of_replays {c : CommLog} {recs : List Record} (h : Mirrors c recs)
    (hrep : Replays c recs) : ¬ Shadowed c := by
  rintro ⟨_, j, _, e', _, _, he', _, hc⟩
  obtain ⟨hlen, hall⟩ := forall₂_iff_getElem?.mp ((replays_iff_serves h).mp hrep)
  have hj : j < recs.length := by
    rw [← hlen]
    exact (List.getElem?_eq_some_iff.mp he').1
  have hdone := (hall j e' _ he' (List.getElem?_eq_getElem hj)).1
  rw [hc] at hdone
  exact absurd hdone (by simp)

theorem replays_of_faithful {c : CommLog} {recs : List Record} (h : Faithful c recs)
    (hdone : ∀ r ∈ recs, r.payload.isSome) : Replays c recs := by
  rw [replays_iff_serves h.toMirrors]
  obtain ⟨hlen, hall⟩ := forall₂_iff_getElem?.mp h.holds
  refine forall₂_iff_getElem?.mpr ⟨hlen, fun i e r he hr => ?_⟩
  have hholds := hall i e r he hr
  obtain ⟨data, hdata⟩ := Option.isSome_iff_exists.mp (hdone r (List.mem_of_getElem? hr))
  simp only [Holds, hdata] at hholds
  exact ⟨hholds.1, by rw [hholds.2, hdata, Option.getD_some]⟩

theorem blank_faithful {c : CommLog} (h : Blank c) : Faithful c [] := by
  have hent : c.logTable.entries = [] := by rw [LogTable.entries, h.empty, List.take_zero]
  refine ⟨⟨h.toValid, ?_⟩, ?_, List.Pairwise.nil⟩
  · rw [hent]
    exact List.Forall₂.nil
  · rw [hent]
    exact List.Forall₂.nil

/-- A disciplined run in which every operation has been completed is replayed with the
bytes of each operation if and only if no incomplete entry took a flag that was already
in the table. -/
theorem record_replay_iff {c : CommLog} (h : Blank c) {ops : List LogOp} {recs : List Record}
    (hrec : recordRun [] ops = some recs) (hdone : ∀ r ∈ recs, r.payload.isSome) :
    (∃ c', runLog c ops = some c' ∧ Replays c' recs) ↔ FlagsFresh [] ops := by
  constructor
  · rintro ⟨c', hrun, hrep⟩
    obtain ⟨hmir, hshadow⟩ := runLog_shadowed ops c [] c' recs (blank_faithful h).toMirrors hrec hrun
    by_contra hfresh
    exact not_shadowed_of_replays hmir hrep (hshadow (Or.inr hfresh))
  · intro hfresh
    obtain ⟨c', hrun, hfaith⟩ := runLog_faithful ops c [] recs (blank_faithful h) hrec hfresh
    exact ⟨c', hrun, replays_of_faithful hfaith hdone⟩

theorem record_replay_out_of_order :
    ∃ c', runLog (create default .generateLog 1 1 1)
        [.log 0 [0, 0] { completed := false, flag := 5 }, .log 8 [9] {},
          .log 16 [0] { completed := false, flag := 6 }, .probe [3] 6, .probe [1, 2] 5] = some c' ∧
      Replays c' [⟨5, 2, some [1, 2]⟩, ⟨0, 1, some [9]⟩, ⟨6, 1, some [3]⟩] :=
  (record_replay_iff (create_blank default 1 1 Nat.one_pos) (by decide) (by decide)).mpr
    (by simp [FlagsFresh])

theorem reused_flag_breaks_replay :
    recordRun [] [.log 0 [0] { completed := false, flag := 5 }, .probe [1] 5,
        .log 0 [0] { completed := false, flag := 5 }, .probe [2] 5] =
      some [⟨5, 1, some [1]⟩, ⟨5, 1, some [2]⟩] ∧
    ¬ ∃ c', runLog (create default .generateLog 8 2 8)
        [.log 0 [0] { completed := false, flag := 5 }, .probe [1] 5,
          .log 0 [0] { completed := false, flag := 5 }, .probe [2] 5] = some c' ∧
      Replays c' [⟨5, 1, some [1]⟩, ⟨5, 1, some [2]⟩] := by
  refine ⟨by decide, ?_⟩
  rintro ⟨c', hrun, c'', hreplay, _⟩
  have hfirst : (replay (reInit c') [.read 1, .read 1]).map Prod.fst =
      some [(.ok, [2]), (.missing, [])] := by
    have hmap := congrArg
      (fun r => (r.bind fun c => replay (reInit c) [.read 1, .read 1]).map Prod.fst) hrun
    exact hmap.symm.trans (by decide)
  have hclaimed : (replay (reInit c') [.read 1, .read 1]).map Prod.fst =
      some [(.ok, [1]), (.ok, [2])] := congrArg (Option.map Prod.fst) hreplay
  exact absurd (hfirst.symm.trans hclaimed) (by decide)

end CommLog

end CDRuntime
