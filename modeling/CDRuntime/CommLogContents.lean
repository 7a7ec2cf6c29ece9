import CDRuntime.CommLogRestart
import CDRuntime.PendingRuns

namespace CDRuntime.CommLog
open Splice

def recordOf (bytes : List UInt8) (e : LogTableElement) : Record :=
  ⟨e.flag, e.length, if e.completed then some (slice bytes e.pos e.length) else none⟩

def contentsOf (bytes : List UInt8) (es : List LogTableElement) : List Record :=
  es.flatMap fun e => List.replicate (weight e) (recordOf bytes e)

def contents (c : CommLog) : List Record := contentsOf c.logQueue.bytes c.logTable.entries

def Unshadowed (es : List LogTableElement) : Prop :=
  es.Pairwise fun e e' => e'.completed = false → e.flag ≠ e'.flag

variable {bytes bytes' : List UInt8} {c c' : CommLog} {data : List UInt8} {a : LogArgs} {flag : ℕ}

theorem contentsOf_append (es es' : List LogTableElement) :
    contentsOf bytes (es ++ es') = contentsOf bytes es ++ contentsOf bytes es' := by
  simp only [contentsOf, List.flatMap_append]

theorem contentsOf_singleton (e : LogTableElement) :
    contentsOf bytes [e] = List.replicate (weight e) (recordOf bytes e) := by
  simp only [contentsOf, List.flatMap_cons, List.flatMap_nil, List.append_nil]

theorem recordOf_congr {e : LogTableElement}
    (h : slice bytes' e.pos e.length = slice bytes e.pos e.length) :
    recordOf bytes' e = recordOf bytes e := by
  rw [recordOf, recordOf, h]

theorem contentsOf_congr {es : List LogTableElement}
    (h : ∀ e ∈ es, slice bytes' e.pos e.length = slice bytes e.pos e.length) :
    contentsOf bytes' es = contentsOf bytes es := by
  rw [contentsOf, contentsOf, List.flatMap_def, List.flatMap_def]
  congr 1
  exact List.map_congr_left fun e he => by rw [recordOf_congr (h e he)]

theorem contents_appends (h : c.Valid) (happ : Appends c c' data a) :
    contents c' = contents c ++ [newRecord data a] := by
  have hold : contentsOf c'.logQueue.bytes c.logTable.entries = contents c :=
    contentsOf_congr fun e he => happ.kept _ _ (h.within e he)
  have hone : weight (newEntry c.logQueue.curPos data.length a) = 1 := by
    unfold weight newEntry
    split_ifs <;> rfl
  have hnew : recordOf c'.logQueue.bytes (newEntry c.logQueue.curPos data.length a) =
      newRecord data a := by
    rw [recordOf, newRecord]
    by_cases hcomp : a.completed = true
    · rw [if_pos hcomp, if_pos (show (newEntry _ _ a).completed = true from hcomp)]
      exact congrArg (fun x => Record.mk a.flag data.length (some x)) (happ.payload hcomp)
    · rw [if_neg hcomp, if_neg (show ¬ (newEntry _ _ a).completed = true from hcomp)]
      rfl
  rw [contents, happ.entries, contentsOf_append, hold, contentsOf_singleton, hone, hnew]
  rfl

theorem contents_repeats {e : LogTableElement} (hrep : e.isrepeated = true)
    (hlast : c.logTable.entries.getLast? = some e) (hqueue : c'.logQueue = c.logQueue)
    (hent : c'.logTable.entries =
      c.logTable.entries.set (c.logTable.entries.length - 1) { e with counter := e.counter + 1 }) :
    contents c' = contents c ++ [recordOf c.logQueue.bytes e] := by
  obtain ⟨es, hes⟩ := List.getLast?_eq_some_iff.mp hlast
  have hset : c'.logTable.entries = es ++ [{ e with counter := e.counter + 1 }] := by
    rw [hent, hes, List.length_append, List.length_singleton, Nat.add_sub_cancel,
      List.set_append_right _ _ (Nat.le_refl _), Nat.sub_self]
    rfl
  have hw : weight e = e.counter := by rw [weight, if_pos hrep]
  have hw' : weight { e with counter := e.counter + 1 } = e.counter + 1 := by
    rw [weight, if_pos (show ({ e with counter := e.counter + 1 } : LogTableElement).isrepeated
      = true from hrep)]
  rw [contents, contents, hqueue, hset, hes, contentsOf_append, contentsOf_append,
    contentsOf_singleton, contentsOf_singleton, hw, hw', List.replicate_succ', List.append_assoc]
  rfl

theorem unshadowed_iff {es : List LogTableElement} : Unshadowed es ↔
    ∀ (i j : ℕ) (e e' : LogTableElement), i < j → es[i]? = some e → es[j]? = some e' →
      e'.completed = false → e.flag ≠ e'.flag := by
  rw [Unshadowed, List.pairwise_iff_getElem]
  constructor
  · intro h i j e e' hij hi hj
    obtain ⟨hi', rfl⟩ := List.getElem?_eq_some_iff.mp hi
    obtain ⟨hj', rfl⟩ := List.getElem?_eq_some_iff.mp hj
    exact h i j hi' hj' hij
  · intro h i j hi hj hij
    exact h i j _ _ hij (List.getElem?_eq_getElem hi) (List.getElem?_eq_getElem hj)

theorem first_of_unshadowed {t : LogTable} (h : Unshadowed t.entries) {i : ℕ}
    {e : LogTableElement} (he : t.entries[i]? = some e) (hcomp : e.completed = false) :
    FirstWithFlag t e.flag i e :=
  ⟨he, rfl, fun j hj e' he' => unshadowed_iff.mp h j i e' e hj he' he hcomp⟩

theorem complete_recordOf {e : LogTableElement}
    (h : ¬ (e.flag = flag ∧ e.completed = false)) :
    (recordOf bytes e).complete flag data = recordOf bytes e := by
  rw [Record.complete, if_neg]
  rintro ⟨hflag, hpay⟩
  refine h ⟨hflag, ?_⟩
  by_contra hcomp
  rw [recordOf, if_pos (by simpa using hcomp)] at hpay
  cases hpay

theorem contents_completes {i : ℕ} {e : LogTableElement} (hfresh : Unshadowed c.logTable.entries)
    (he : c.logTable.entries[i]? = some e) (hcomp : e.completed = false)
    (hc : Completes c c' i e data) :
    contents c' = (contents c).map (Record.complete e.flag data) := by
  rw [contents, contents, contentsOf, contentsOf, List.map_flatMap, hc.entries,
    List.flatMap_def, List.flatMap_def]
  congr 1
  apply List.ext_getElem?
  intro j
  rw [List.getElem?_map, List.getElem?_map]
  by_cases hij : i = j
  · subst hij
    rw [List.getElem?_set_self (List.getElem?_eq_some_iff.mp he).1, he, Option.map_some,
      Option.map_some, List.map_replicate]
    have hrec : recordOf c'.logQueue.bytes { e with completed := true } =
        (recordOf c.logQueue.bytes e).complete e.flag data := by
      rw [Record.complete, if_pos ⟨rfl, by rw [recordOf, if_neg (by rw [hcomp]; simp)]⟩]
      exact congrArg (fun x => Record.mk e.flag e.length (some x)) hc.payload
    rw [hrec]
    rfl
  · rw [List.getElem?_set_ne hij]
    cases hj : c.logTable.entries[j]? with
    | none => rfl
    | some e' =>
        have hother : ¬ (e'.flag = e.flag ∧ e'.completed = false) := by
          rintro ⟨hflag, hcomp'⟩
          rcases Nat.lt_or_gt_of_ne hij with hlt | hlt
          · exact unshadowed_iff.mp hfresh i j e e' hlt he hj hcomp' hflag.symm
          · exact unshadowed_iff.mp hfresh j i e' e hlt hj he hcomp hflag
        rw [Option.map_some, Option.map_some, List.map_replicate, complete_recordOf hother,
          recordOf_congr (hc.kept j e' (Ne.symm hij) hj)]

theorem unshadowed_appends (h : Unshadowed c.logTable.entries) (happ : Appends c c' data a)
    (hfresh : a.completed = false → ∀ e ∈ c.logTable.entries, e.flag ≠ a.flag) :
    Unshadowed c'.logTable.entries := by
  rw [happ.entries, Unshadowed, List.pairwise_append]
  refine ⟨h, List.pairwise_singleton _ _, fun e he e' he' hcomp => ?_⟩
  rw [List.mem_singleton] at he'
  subst he'
  exact hfresh hcomp e he

theorem unshadowed_set {es : List LogTableElement} (h : Unshadowed es) {i : ℕ}
    {e e' : LogTableElement} (he : es[i]? = some e) (hflag : e'.flag = e.flag)
    (hcomp : e'.completed = false → e.completed = false) : Unshadowed (es.set i e') := by
  have hcell : ∀ (k : ℕ) (x : LogTableElement), (es.set i e')[k]? = some x →
      ∃ y, es[k]? = some y ∧ x.flag = y.flag ∧ (x.completed = false → y.completed = false) := by
    intro k x hx
    by_cases hik : i = k
    · subst hik
      rw [List.getElem?_set_self (List.getElem?_eq_some_iff.mp he).1, Option.some.injEq] at hx
      exact ⟨e, he, hx ▸ hflag, fun hc => hcomp (hx ▸ hc)⟩
    · rw [List.getElem?_set_ne hik] at hx
      exact ⟨x, hx, rfl, id⟩
  rw [unshadowed_iff] at h ⊢
  intro j k x y hjk hx hy hc
  obtain ⟨x', hx', hxf, -⟩ := hcell j x hx
  obtain ⟨y', hy', hyf, hyc⟩ := hcell k y hy
  rw [hxf, hyf]
  exact h j k x' y' hjk hx' hy' (hyc hc)

theorem services_of_contents (h : Counted c)
    (hdone : ∀ r ∈ contents c, r.payload.isSome) :
    Replayable c ∧ pending (reInit c) =
      (contents c).map fun r => ⟨r.length, r.payload.getD []⟩ := by
  have hpos : ∀ e ∈ c.logTable.entries, 0 < weight e := by
    intro e he
    unfold weight
    split_ifs
    · exact h.counted e he
    · exact Nat.one_pos
  have hcomp : ∀ e ∈ c.logTable.entries, e.completed = true := by
    intro e he
    have hmem : recordOf c.logQueue.bytes e ∈ contents c :=
      List.mem_flatMap.mpr ⟨e, he, List.mem_replicate.mpr ⟨Nat.ne_of_gt (hpos e he), rfl⟩⟩
    have hsome := hdone _ hmem
    by_contra hc
    rw [recordOf, if_neg hc] at hsome
    cases hsome
  refine ⟨⟨h.toValid, hcomp, h.rewound, fun e he _ => h.counted e he⟩, ?_⟩
  rw [pending_reInit, contents, contentsOf, List.map_flatMap, services, List.flatMap_def,
    List.flatMap_def]
  congr 1
  refine List.map_congr_left fun e he => ?_
  rw [List.map_replicate, h.rewound e he, Nat.sub_zero, recordOf, if_pos (hcomp e he)]
  rfl

end CDRuntime.CommLog
