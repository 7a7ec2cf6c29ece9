import CDRuntime.LibcLog
import Mathlib.Data.Nat.Bitwise
import Mathlib.Data.Nat.Find

namespace CDRuntime.LibcLog
open Loop32

/-- `while(entry == NULL)` of `free`, for at most `fuel` searches from the index `idx` on. Only a
replay looks at the index that comes back. -/
def searchLoop (t : Table) (ptr : ℕ) (replaying : Bool) : ℕ → ℕ → Option (Option ℕ)
  | 0, _ => none
  | fuel + 1, idx => do
      let (entry, idx) ← findWithOffset t ptr idx
      if replaying && idx == 2 ^ 32 - 1 then some entry
      else
        match entry with
        | some i => some (some i)
        | none => searchLoop t ptr replaying fuel idx

/-- How a call ends: `assert(entry)` stops the program. -/
inductive Ending
  | returned (g : Logger)
  | aborted (g : Logger)

def Ending.logger : Ending → Logger
  | .returned g => g
  | .aborted g => g

/-- `free` with at most `fuel` searches. -/
def Logger.freeLoop (g : Logger) (replaying : Bool) (ptr fuel : ℕ) : Option Ending := do
  if ptr = 0 then some (.returned g)
  else
    match ← searchLoop g.table ptr replaying fuel 0 with
    | none => some (.aborted g)
    | some i =>
        let g ← g.markFreed i
        some (.returned { g with libcId := g.libcId + 1 })

structure MarkedFreed (e e' : LogEntry) : Prop where
  pushed : e'.size_.checkAny kNeedPushed = false
  freed : e'.size_.check kNeedFreed = true
  same : e'.id = e.id ∧ e'.ftype = e.ftype ∧ e'.offset = e.offset

/-- `free(ptr)` ends. It marks one entry of the address when there is one and none otherwise. -/
def FreesOne (g : Logger) (es : List LogEntry) (replaying : Bool) (ptr : ℕ) : Prop :=
  ∃ fuel ending es', g.freeLoop replaying ptr fuel = some ending ∧
    ending.logger.table.Holds es' ∧
    if ∃ e ∈ es, e.offset = ptr then
      (∃ g', ending = .returned g') ∧
        ∃ k e e', es[k]? = some e ∧ e.offset = ptr ∧ MarkedFreed e e' ∧ es' = es.set k e'
    else es' = es

/-- Some entry with the address has an index that fits in 32 bits. -/
def Reachable (es : List LogEntry) (ptr : ℕ) : Prop :=
  ∃ k e, k < 2 ^ 32 ∧ es[k]? = some e ∧ e.offset = ptr

section Search

variable {t : Table} {es : List LogEntry} {ptr : ℕ}

theorem Reachable.mem (h : Reachable es ptr) : ∃ e ∈ es, e.offset = ptr := by
  obtain ⟨k, e, -, hk, he⟩ := h
  exact ⟨e, List.mem_of_getElem? hk, he⟩

theorem findWithOffset_reachable (h : t.Holds es) (hr : Reachable es ptr) :
    ∃ k e, k < 2 ^ 32 ∧ es[k]? = some e ∧ e.offset = ptr ∧
      findWithOffset t ptr 0 = some (some k, k) := by
  classical
  have hex : ∃ k, ∃ e, k < 2 ^ 32 ∧ es[k]? = some e ∧ e.offset = ptr := hr
  obtain ⟨e, hsmall, hk, rfl⟩ := Nat.find_spec hex
  refine ⟨Nat.find hex, e, hsmall, hk, rfl, findWithOffset_found h hk hsmall ?_⟩
  intro j e' hj hget heq
  exact Nat.find_min hex hj ⟨e', by omega, hget, heq⟩

theorem findWithOffset_missed (h : t.Holds es) (hno : ¬ Reachable es ptr)
    (hsmall : es.length < 2 ^ 32) : findWithOffset t ptr 0 = some (none, 2 ^ 32 - 1) := by
  obtain ⟨found, hloop, rfl⟩ := @loop_invariant _ _ (offsetRound t ptr) 0 none
    (fun _ found => found = none) (by rw [h.tail]; exact hsmall) (Nat.zero_le t.tail) rfl
    (by
      rintro i found - hi rfl
      rw [h.tail] at hi
      have hget := List.getElem?_eq_getElem hi
      have hne : es[i].offset ≠ ptr := fun heq => hno ⟨i, _, by omega, hget, heq⟩
      exact ⟨none, by rw [offsetRound_spec h hget, if_neg hne], rfl⟩)
  simp only [findWithOffset, hloop, Option.bind_eq_bind, Option.bind_some, Option.getD_none]

theorem findWithOffset_endless (h : t.Holds es) (hno : ¬ Reachable es ptr)
    (hbig : 2 ^ 32 ≤ es.length) : findWithOffset t ptr 0 = none := by
  apply findWithOffset_far h hbig
  intro j e hj hget heq
  exact hno ⟨j, e, hj, hget, heq⟩

theorem findWithOffset_behind (h : t.Holds es) (hsmall : es.length < 2 ^ 32) :
    findWithOffset t ptr (2 ^ 32 - 1) = some (none, 2 ^ 32 - 1) := by
  have htail := h.tail
  have hloop : loop (2 ^ 32 - 1) t.tail (offsetRound t ptr) none = some none := by
    rw [loop, Nat.mod_eq_of_lt (by decide), rounds, if_neg (by omega)]
  simp only [findWithOffset, hloop, Option.bind_eq_bind, Option.bind_some, Option.getD_none]

theorem searchLoop_reachable (h : t.Holds es) (hr : Reachable es ptr) (replaying : Bool) :
    ∃ k e, es[k]? = some e ∧ e.offset = ptr ∧ searchLoop t ptr replaying 1 0 = some (some k) := by
  obtain ⟨k, e, -, hk, he, hfind⟩ := findWithOffset_reachable h hr
  refine ⟨k, e, hk, he, ?_⟩
  simp only [searchLoop, hfind, Option.bind_eq_bind, Option.bind_some, ite_self]

theorem searchLoop_missed (h : t.Holds es) (hno : ¬ Reachable es ptr)
    (hsmall : es.length < 2 ^ 32) : searchLoop t ptr true 1 0 = some none := by
  simp only [searchLoop, findWithOffset_missed h hno hsmall, Option.bind_eq_bind, Option.bind_some]
  rfl

theorem searchLoop_behind (h : t.Holds es) (hsmall : es.length < 2 ^ 32) (fuel : ℕ) :
    searchLoop t ptr false fuel (2 ^ 32 - 1) = none := by
  induction fuel with
  | zero => rfl
  | succ fuel ih =>
      simp only [searchLoop, findWithOffset_behind h hsmall, Option.bind_eq_bind,
        Option.bind_some, Bool.false_and, Bool.false_eq_true, if_false]
      exact ih

theorem searchLoop_endless (h : t.Holds es) (hno : ¬ Reachable es ptr) {replaying : Bool}
    (hmode : replaying = false ∨ 2 ^ 32 ≤ es.length) (fuel : ℕ) :
    searchLoop t ptr replaying fuel 0 = none := by
  cases fuel with
  | zero => rfl
  | succ fuel =>
      by_cases hbig : 2 ^ 32 ≤ es.length
      · simp only [searchLoop, findWithOffset_endless h hno hbig, Option.bind_eq_bind,
          Option.bind_none]
      · have hsmall : es.length < 2 ^ 32 := Nat.lt_of_not_le hbig
        rcases hmode with rfl | hlong
        · simp only [searchLoop, findWithOffset_missed h hno hsmall, Option.bind_eq_bind,
            Option.bind_some, Bool.false_and, Bool.false_eq_true, if_false]
          exact searchLoop_behind h hsmall fuel
        · exact absurd hlong hbig

end Search

theorem freed_marked (e : LogEntry) : MarkedFreed e e.freed where
  pushed := by
    have hbit : e.freed.size_.attr.testBit 9 = false := by
      have hmask : (2 ^ 64 - 1 - kNeedPushed * 2 ^ 48 % 2 ^ 64).testBit 57 = false := by decide
      have hset : (kNeedFreed * 2 ^ 48 % 2 ^ 64).testBit 57 = false := by decide
      simp only [LogEntry.freed, Attr.set, Attr.unset, Attr.attr, Nat.testBit_div_two_pow,
        Nat.testBit_or, Nat.testBit_and, hmask, hset, Bool.and_false, Bool.or_false]
    simp only [Attr.checkAny, show kNeedPushed = 2 ^ 9 by decide, Nat.and_two_pow, hbit,
      Bool.toNat_false, Nat.zero_mul]
    rfl
  freed := by
    have hbit : e.freed.size_.attr.testBit 8 = true := by
      have hset : (kNeedFreed * 2 ^ 48 % 2 ^ 64).testBit 56 = true := by decide
      simp only [LogEntry.freed, Attr.set, Attr.unset, Attr.attr, Nat.testBit_div_two_pow,
        Nat.testBit_or, hset, Bool.or_true]
    simp only [Attr.check, show kNeedFreed = 2 ^ 8 by decide, Nat.and_two_pow, hbit,
      Bool.toNat_true, Nat.one_mul, beq_self_eq_true]
  same := ⟨rfl, rfl, rfl⟩

namespace Logger

variable {g : Logger} {es : List LogEntry} {ptr : ℕ}

theorem freeLoop_reachable (h : g.table.Holds es) (hptr : ptr ≠ 0) (hr : Reachable es ptr)
    (replaying : Bool) : ∃ k e g', es[k]? = some e ∧ e.offset = ptr ∧
      g.freeLoop replaying ptr 1 = some (.returned g') ∧ g'.table.Holds (es.set k e.freed) := by
  obtain ⟨k, e, hk, he, hsearch⟩ := searchLoop_reachable h hr replaying
  obtain ⟨g', hmark, hholds, -⟩ := markFreed_spec h hk
  refine ⟨k, e, { g' with libcId := g'.libcId + 1 }, hk, he, ?_, hholds⟩
  simp only [freeLoop, if_neg hptr, hsearch, hmark, Option.bind_eq_bind, Option.bind_some]

theorem freeLoop_missed (h : g.table.Holds es) (hptr : ptr ≠ 0) (hno : ¬ Reachable es ptr)
    (hsmall : es.length < 2 ^ 32) : g.freeLoop true ptr 1 = some (.aborted g) := by
  simp only [freeLoop, if_neg hptr, searchLoop_missed h hno hsmall, Option.bind_eq_bind,
    Option.bind_some]

theorem freeLoop_endless (h : g.table.Holds es) (hptr : ptr ≠ 0) (hno : ¬ Reachable es ptr)
    {replaying : Bool} (hmode : replaying = false ∨ 2 ^ 32 ≤ es.length) (fuel : ℕ) :
    g.freeLoop replaying ptr fuel = none := by
  simp only [freeLoop, if_neg hptr, searchLoop_endless h hno hmode fuel, Option.bind_eq_bind,
    Option.bind_none]

end Logger

/-- A free succeeds exactly when the address has an entry that the 32-bit index reaches, or when a
replay gives up the search at the end of the table. -/
theorem frees_one_iff {g : Logger} {es : List LogEntry} (h : g.table.Holds es) {ptr : ℕ}
    (hptr : ptr ≠ 0) (replaying : Bool) :
    FreesOne g es replaying ptr ↔
      Reachable es ptr ∨ (replaying = true ∧ es.length < 2 ^ 32) := by
  constructor
  · rintro ⟨fuel, ending, es', hrun, -⟩
    by_cases hr : Reachable es ptr
    · exact .inl hr
    · -- an endless search has no ending
      by_contra hcond
      have hmode : replaying = false ∨ 2 ^ 32 ≤ es.length := by
        cases replaying with
        | false => exact .inl rfl
        | true => exact .inr (Nat.le_of_not_lt fun hsmall => hcond (.inr ⟨rfl, hsmall⟩))
      rw [Logger.freeLoop_endless h hptr hr hmode fuel] at hrun
      exact absurd hrun (by simp only [reduceCtorEq, not_false_eq_true])
  · intro hcond
    by_cases hr : Reachable es ptr
    · obtain ⟨k, e, g', hk, he, hrun, hholds⟩ := Logger.freeLoop_reachable h hptr hr replaying
      refine ⟨1, .returned g', es.set k e.freed, hrun, hholds, ?_⟩
      rw [if_pos hr.mem]
      exact ⟨⟨g', rfl⟩, k, e, e.freed, hk, he, freed_marked e, rfl⟩
    · obtain ⟨rfl, hsmall⟩ := hcond.resolve_left hr
      refine ⟨1, .aborted g, es, Logger.freeLoop_missed h hptr hr hsmall, h, ?_⟩
      rw [if_neg]
      rintro ⟨e, he, hoff⟩
      obtain ⟨k, hlt, rfl⟩ := List.mem_iff_getElem.mp he
      exact hr ⟨k, _, by omega, List.getElem?_eq_getElem hlt, hoff⟩

theorem logged_pointer_freed : ∃ g,
    Logger.create.malloc 16 = some g ∧
    FreesOne g [.ofAttr 0 .malloc kNeedPushed 16] false 16 ∧
    FreesOne g [.ofAttr 0 .malloc kNeedPushed 16] true 48 := by
  have hempty : Logger.create.table.Holds [] := Logger.create_holds
  obtain ⟨g, hmalloc, -, hholds⟩ := Logger.malloc_spec hempty
    (fun e he => absurd he List.not_mem_nil) 16
  refine ⟨g, hmalloc, (frees_one_iff hholds (by decide) false).mpr (.inl ?_),
    (frees_one_iff hholds (by decide) true).mpr (.inr ⟨rfl, ?_⟩)⟩
  · exact ⟨0, _, by decide, rfl, rfl⟩
  · exact (by decide : 1 < 2 ^ 32)

theorem unlogged_pointer_never_freed :
    Logger.create.table.Holds [] ∧ ¬ FreesOne Logger.create [] false 16 := by
  refine ⟨Logger.create_holds, ?_⟩
  rintro ⟨fuel, ending, es', hrun, -⟩
  have hno : ¬ Reachable [] 16 := fun hr => by
    obtain ⟨e, he, -⟩ := hr.mem
    exact absurd he List.not_mem_nil
  rw [Logger.freeLoop_endless Logger.create_holds (by decide) hno (.inl rfl) fuel] at hrun
  exact absurd hrun (by simp only [reduceCtorEq, not_false_eq_true])

/-- The wrapped allocations; `realloc` is told the block that it replaces. -/
inductive Call
  | malloc
  | calloc
  | realloc (ptr : ℕ)
  deriving DecidableEq, Repr

def Call.ftype : Call → FTID
  | .malloc => .malloc
  | .calloc => .calloc
  | .realloc _ => .realloc

/-- A call outside of a replay, with what the real function returns. -/
def Logger.record (g : Logger) (ret : ℕ) : Call → Option Logger
  | .malloc => g.malloc ret
  | .calloc => g.calloc ret
  | .realloc ptr => g.realloc ptr ret

/-- The calls of a scope with the addresses that they returned. -/
def Logger.recordCalls (calls : List (Call × ℕ)) (g : Logger) : Option Logger :=
  calls.foldlM (fun g call => g.record call.2 call.1) g

/-- The logger in a re-execution; `allocs` counts the calls of the real `malloc` and `calloc`. -/
structure Replay where
  logger : Logger
  curPos : ℕ
  allocs : ℕ

def Logger.reset (g : Logger) (libcId pos : ℕ) : Replay := ⟨{ g with libcId }, pos, 0⟩

namespace Replay

/-- `GetNext()`; the entry is missing where a null pointer is returned. -/
def getNext (r : Replay) : Option (Option LogEntry × Replay) :=
  if r.curPos < r.logger.table.tail then do
    let e ← entryAt r.logger.table (r.curPos % r.logger.table.size)
    some (some e, { r with curPos := r.curPos + 1 })
  else some (none, { r with curPos := 0 })

/-- The real function is called and its result gets an entry of its own. -/
def regenerate (r : Replay) (ftype : FTID) (ret : ℕ) : Option Replay := do
  let logger ← r.logger.add (.ofAttr r.logger.libcId ftype kNeedPushed ret)
  some { r with logger, allocs := r.allocs + 1 }

def regenerateMoved (r : Replay) (ptr ret : ℕ) : Option Replay := do
  let r ← r.regenerate .realloc ret
  let (entry, idx) ← findWithOffset r.logger.table ptr 0
  if idx = 2 ^ 32 - 1 then none
  else
    let i ← entry
    let logger ← r.logger.markFreed i
    some { r with logger }

/-- Where an entry is found the address is read from the log, from the entry at the cursor. -/
def answer (ftype : FTID) (regen : Replay → Option Replay) (ret : ℕ) (r : Replay) (found : Bool) :
    Option (ℕ × Replay) :=
  if found then do
    let (entry, r) ← r.getNext
    let entry ← entry
    if entry.ftype = ftype then some (entry.offset, r)
    else (regen r).map fun r => (ret, r)
  else (regen r).map fun r => (ret, r)

def wrapped (ftype : FTID) (regen : Replay → Option Replay) (ret : ℕ) (r : Replay) :
    Option (ℕ × Replay) := do
  let found ← r.logger.isLogFound
  let (addr, r) ← answer ftype regen ret r found
  some (addr, { r with logger := { r.logger with libcId := r.logger.libcId + 1 } })

def malloc (ret : ℕ) : Replay → Option (ℕ × Replay) :=
  wrapped .malloc (fun r => r.regenerate .malloc ret) ret

def calloc (ret : ℕ) : Replay → Option (ℕ × Replay) :=
  wrapped .calloc (fun r => r.regenerate .calloc ret) ret

def realloc (ptr ret : ℕ) : Replay → Option (ℕ × Replay) :=
  wrapped .realloc (fun r => r.regenerateMoved ptr ret) ret

def call (ret : ℕ) : Call → Replay → Option (ℕ × Replay)
  | .malloc => malloc ret
  | .calloc => calloc ret
  | .realloc ptr => realloc ptr ret

/-- The addresses that the calls return when the real functions answer with `fresh`. -/
def run (fresh : ℕ → ℕ) : List Call → Replay → Option (List ℕ × Replay)
  | [], r => some ([], r)
  | c :: calls, r => do
      let (addr, r) ← call (fresh r.allocs) c r
      let (addrs, r) ← run fresh calls r
      some (addr :: addrs, r)

end Replay

/-- The re-execution from the `Reset(libcId, pos)` on returns the addresses `rets`, calls no real
function and leaves the table as it is. -/
def ReplaysTo (g : Logger) (libcId pos : ℕ) (fresh : ℕ → ℕ) (calls : List Call)
    (rets : List ℕ) : Prop :=
  ∃ r, Replay.run fresh calls (g.reset libcId pos) = some (rets, r) ∧ r.allocs = 0 ∧
    r.logger.table.entries = g.table.entries

theorem findReverseOrder_attr {t : Table} {tag attr : ℕ} (hattr : attr ≠ Attr.knoattr) (i : ℕ) :
    ∀ e, findReverseOrder t tag attr i ≠ some (some e) := by
  induction i with
  | zero =>
      intro e h
      exact absurd (Option.some.inj h) (by simp only [reduceCtorEq, not_false_eq_true])
  | succ i ih =>
      intro e h
      rw [findReverseOrder] at h
      obtain ⟨e', -, h⟩ := Option.bind_eq_some_iff.mp h
      split_ifs at h with hid hcheck
      · exact ih e h
      · exact ih e h

theorem Logger.isLogFound_filtered {g : Logger} (h : g.libcId % 2 ^ 16 ≠ 0) {found : Bool}
    (hfound : g.isLogFound = some found) : found = false := by
  obtain ⟨entry, hfind, hsome⟩ := Option.bind_eq_some_iff.mp hfound
  cases entry with
  | none => exact (Option.some.inj hsome).symm
  | some e => exact absurd hfind (findReverseOrder_attr h _ e)

namespace Replay

structure Counted (r r' : Replay) : Prop where
  libcId : r'.logger.libcId = r.logger.libcId
  allocs : r.allocs < r'.allocs

theorem regenerate_counted {r r' : Replay} {ftype : FTID} {ret : ℕ}
    (h : r.regenerate ftype ret = some r') : Counted r r' := by
  obtain ⟨g', hadd, h⟩ := Option.bind_eq_some_iff.mp h
  obtain ⟨t', -, hg⟩ := Option.bind_eq_some_iff.mp hadd
  obtain rfl := Option.some.inj h
  obtain rfl := Option.some.inj hg
  exact ⟨rfl, Nat.lt_succ_self _⟩

theorem regenerateMoved_counted {r r' : Replay} {ptr ret : ℕ}
    (h : r.regenerateMoved ptr ret = some r') : Counted r r' := by
  obtain ⟨r₁, hadd, h⟩ := Option.bind_eq_some_iff.mp h
  obtain ⟨⟨entry, idx⟩, -, h⟩ := Option.bind_eq_some_iff.mp h
  have hc := regenerate_counted hadd
  simp only at h
  split_ifs at h with hidx
  obtain ⟨i, -, h⟩ := Option.bind_eq_some_iff.mp h
  obtain ⟨g', hmark, h⟩ := Option.bind_eq_some_iff.mp h
  obtain ⟨ptr', -, hmark⟩ := Option.bind_eq_some_iff.mp hmark
  obtain ⟨e, -, hmark⟩ := Option.bind_eq_some_iff.mp hmark
  obtain ⟨block, -, hmark⟩ := Option.bind_eq_some_iff.mp hmark
  obtain rfl := Option.some.inj h
  obtain rfl := Option.some.inj hmark
  exact ⟨hc.libcId, hc.allocs⟩

theorem getNext_counters {r r' : Replay} {entry : Option LogEntry}
    (h : r.getNext = some (entry, r')) : r'.logger = r.logger ∧ r'.allocs = r.allocs := by
  rw [getNext] at h
  split_ifs at h with hlt
  · obtain ⟨e, -, h⟩ := Option.bind_eq_some_iff.mp h
    obtain ⟨-, rfl⟩ := Prod.mk.inj (Option.some.inj h)
    exact ⟨rfl, rfl⟩
  · obtain ⟨-, rfl⟩ := Prod.mk.inj (Option.some.inj h)
    exact ⟨rfl, rfl⟩

theorem wrapped_counters {ftype : FTID} {regen : Replay → Option Replay}
    (hregen : ∀ r r', regen r = some r' → Counted r r') {ret addr : ℕ} {r r' : Replay}
    (h : wrapped ftype regen ret r = some (addr, r')) :
    r'.logger.libcId = r.logger.libcId + 1 ∧ r.allocs ≤ r'.allocs ∧
      (r.logger.libcId % 2 ^ 16 ≠ 0 → r.allocs < r'.allocs) := by
  obtain ⟨found, hfound, h⟩ := Option.bind_eq_some_iff.mp h
  obtain ⟨⟨addr₁, r₁⟩, hr₁, h⟩ := Option.bind_eq_some_iff.mp h
  obtain ⟨-, rfl⟩ := Prod.mk.inj (Option.some.inj h)
  have hreal : ∀ {s s' : Replay} {a : ℕ}, (regen s).map (fun r => (ret, r)) = some (a, s') →
      Counted s s' := by
    intro s s' a hmap
    obtain ⟨s₁, hs₁, heq⟩ := Option.map_eq_some_iff.mp hmap
    exact (Prod.mk.inj heq).2 ▸ hregen s s₁ hs₁
  cases found with
  | true =>
      -- the only id that is found
      have hzero : r.logger.libcId % 2 ^ 16 = 0 := by
        by_contra hne
        exact absurd (Logger.isLogFound_filtered hne hfound) (by decide)
      rw [answer, if_pos rfl] at hr₁
      obtain ⟨⟨entry, r₂⟩, hnext, hr₁⟩ := Option.bind_eq_some_iff.mp hr₁
      obtain ⟨e, -, hr₁⟩ := Option.bind_eq_some_iff.mp hr₁
      obtain ⟨hlogger, hallocs⟩ := getNext_counters hnext
      split_ifs at hr₁ with htype
      · obtain ⟨-, rfl⟩ := Prod.mk.inj (Option.some.inj hr₁)
        exact ⟨by rw [hlogger], Nat.le_of_eq hallocs.symm, fun hne => absurd hzero hne⟩
      · have hc := hreal hr₁
        exact ⟨by rw [hc.libcId, hlogger], hallocs ▸ Nat.le_of_lt hc.allocs,
          fun hne => absurd hzero hne⟩
  | false =>
      rw [answer, if_neg Bool.false_ne_true] at hr₁
      have hc := hreal hr₁
      exact ⟨by rw [hc.libcId], Nat.le_of_lt hc.allocs, fun _ => hc.allocs⟩

theorem call_counters {c : Call} {ret addr : ℕ} {r r' : Replay}
    (h : call ret c r = some (addr, r')) :
    r'.logger.libcId = r.logger.libcId + 1 ∧ r.allocs ≤ r'.allocs ∧
      (r.logger.libcId % 2 ^ 16 ≠ 0 → r.allocs < r'.allocs) := by
  cases c with
  | malloc => exact wrapped_counters (fun _ _ => regenerate_counted) h
  | calloc => exact wrapped_counters (fun _ _ => regenerate_counted) h
  | realloc ptr => exact wrapped_counters (fun _ _ => regenerateMoved_counted) h

theorem run_allocs {fresh : ℕ → ℕ} (calls : List Call) : ∀ {r r' : Replay} {addrs : List ℕ},
    run fresh calls r = some (addrs, r') → r.allocs ≤ r'.allocs := by
  induction calls with
  | nil =>
      intro r r' addrs h
      exact Nat.le_of_eq (congrArg Replay.allocs (Prod.mk.inj (Option.some.inj h)).2)
  | cons c calls ih =>
      intro r r' addrs h
      obtain ⟨⟨addr, r₁⟩, hcall, h⟩ := Option.bind_eq_some_iff.mp h
      obtain ⟨⟨addrs', r₂⟩, hrun, h⟩ := Option.bind_eq_some_iff.mp h
      obtain ⟨-, rfl⟩ := Prod.mk.inj (Option.some.inj h)
      exact Nat.le_trans (call_counters hcall).2.1 (ih hrun)

theorem run_replayed {fresh : ℕ → ℕ} {calls : List Call} {r r' : Replay} {addrs : List ℕ}
    (h : run fresh calls r = some (addrs, r')) (hallocs : r'.allocs = 0) :
    calls = [] ∨ (calls.length = 1 ∧ r.logger.libcId % 2 ^ 16 = 0) := by
  have hreal : ∀ {c cs} {s s' : Replay} {as : List ℕ}, run fresh (c :: cs) s = some (as, s') →
      s'.allocs = 0 → s.logger.libcId % 2 ^ 16 = 0 ∧ ∃ s₁ as₁, run fresh cs s₁ = some (as₁, s') ∧
        s₁.logger.libcId = s.logger.libcId + 1 := by
    intro c cs s s' as hrun hzero
    obtain ⟨⟨addr, s₁⟩, hcall, hrun⟩ := Option.bind_eq_some_iff.mp hrun
    obtain ⟨⟨as₁, s₂⟩, hrest, hrun⟩ := Option.bind_eq_some_iff.mp hrun
    obtain ⟨-, rfl⟩ := Prod.mk.inj (Option.some.inj hrun)
    obtain ⟨hid, -, hlt⟩ := call_counters hcall
    refine ⟨?_, s₁, as₁, hrest, hid⟩
    by_contra hne
    have hgrown := hlt hne
    have hle := run_allocs cs hrest
    omega
  match calls with
  | [] => exact .inl rfl
  | [c] => exact .inr ⟨rfl, (hreal h hallocs).1⟩
  | c :: c' :: cs =>
      -- two ids in a row are not both multiples of `2 ^ 16`
      obtain ⟨hfirst, r₁, as₁, hrun, hid⟩ := hreal h hallocs
      obtain ⟨hsecond, -⟩ := hreal hrun hallocs
      omega

end Replay

def LogEntry.key (e : LogEntry) : ℕ × FTID × ℕ := (e.id, e.ftype, e.offset)

theorem map_key_set {es : List LogEntry} {k : ℕ} {e : LogEntry} (hk : es[k]? = some e) :
    (es.set k e.freed).map LogEntry.key = es.map LogEntry.key := by
  rw [List.map_set]
  apply List.ext_getElem?
  intro i
  rw [List.getElem?_set]
  split_ifs with hki hlt
  · subst hki
    rw [List.getElem?_map, hk]
    rfl
  · subst hki
    rw [List.getElem?_eq_none (Nat.le_of_not_lt hlt)]
  · rfl

theorem Logger.record_spec {g g' : Logger} {es : List LogEntry} (h : g.table.Holds es) {c : Call}
    {ret : ℕ} (hrec : g.record ret c = some g') :
    ∃ es', g'.table.Holds es' ∧
      es'.map LogEntry.key = es.map LogEntry.key ++ [(g.libcId, c.ftype, ret)] := by
  have hadded : ∀ ftype, ∃ g₁, g.add (.ofAttr g.libcId ftype kNeedPushed ret) = some g₁ ∧
      g₁.table.Holds (es ++ [.ofAttr g.libcId ftype kNeedPushed ret]) ∧
      g₁.libcId = g.libcId := fun ftype => add_spec h _
  have hkeys : ∀ ftype, (es ++ [LogEntry.ofAttr g.libcId ftype kNeedPushed ret]).map LogEntry.key =
      es.map LogEntry.key ++ [(g.libcId, ftype, ret)] := by
    intro ftype
    rw [List.map_append, List.map_singleton]
    rfl
  cases c with
  | malloc =>
      obtain ⟨g₁, hadd, hholds, -⟩ := hadded .malloc
      simp only [record, malloc, hadd, Option.bind_eq_bind, Option.bind_some] at hrec
      obtain ⟨found, -, hrec⟩ := Option.bind_eq_some_iff.mp hrec
      obtain rfl := Option.some.inj hrec
      exact ⟨_, hholds, hkeys .malloc⟩
  | calloc =>
      obtain ⟨g₁, hadd, hholds, -⟩ := hadded .calloc
      simp only [record, calloc, hadd, Option.bind_eq_bind, Option.bind_some] at hrec
      obtain rfl := Option.some.inj hrec
      exact ⟨_, hholds, hkeys .calloc⟩
  | realloc ptr =>
      obtain ⟨g₁, hadd, hholds, -⟩ := hadded .realloc
      by_cases hr : Reachable (es ++ [.ofAttr g.libcId .realloc kNeedPushed ret]) ptr
      · obtain ⟨k, e, -, hk, -, hfind⟩ := findWithOffset_reachable hholds hr
        obtain ⟨g₂, hmark, hmarked, -⟩ := markFreed_spec hholds hk
        simp only [record, realloc, hadd, hfind, hmark, Option.bind_eq_bind,
          Option.bind_some] at hrec
        split_ifs at hrec with hlast
        obtain rfl := Option.some.inj hrec
        exact ⟨_, hmarked, (map_key_set hk).trans (hkeys .realloc)⟩
      · -- the search for the old block fails
        exfalso
        rcases Nat.lt_or_ge (es ++ [LogEntry.ofAttr g.libcId .realloc kNeedPushed ret]).length
            (2 ^ 32) with hsmall | hbig
        · simp only [record, realloc, hadd, findWithOffset_missed hholds hr hsmall,
            Option.bind_eq_bind, Option.bind_some, if_true] at hrec
          exact absurd hrec (by simp only [reduceCtorEq, not_false_eq_true])
        · simp only [record, realloc, hadd, findWithOffset_endless hholds hr hbig,
            Option.bind_eq_bind, Option.bind_some, Option.bind_none] at hrec
          exact absurd hrec (by simp only [reduceCtorEq, not_false_eq_true])

theorem findReverseOrder_last {t : Table} {es : List LogEntry} {e : LogEntry}
    (h : t.Holds es) (hlast : es.getLast? = some e) :
    findReverseOrder t e.id Attr.knoattr t.tail = some (some e) := by
  have hne : es ≠ [] := by
    rintro rfl
    exact absurd hlast (by simp only [List.getLast?_nil, reduceCtorEq, not_false_eq_true])
  have hpos := List.length_pos_iff.mpr hne
  have hget : es[es.length - 1]? = some e := by rw [← List.getLast?_eq_getElem?, hlast]
  rw [h.tail, show es.length = es.length - 1 + 1 by omega, findReverseOrder,
    entryAt_spec h (by omega), hget]
  simp only [Option.bind_eq_bind, Option.bind_some, if_true]

namespace Replay

theorem call_replayed {g : Logger} {es : List LogEntry} (h : g.table.Holds es) {pos : ℕ}
    {e : LogEntry} {c : Call} (hget : es[pos]? = some e) (hlen : es.length = pos + 1)
    (htype : e.ftype = c.ftype) (hid : e.id % 2 ^ 16 = 0) (ret : ℕ) :
    ∃ r, call ret c (g.reset e.id pos) = some (e.offset, r) ∧ r.allocs = 0 ∧
      r.logger.table = g.table := by
  have hlast : es.getLast? = some e := by
    rw [List.getLast?_eq_getElem?, hlen, Nat.add_sub_cancel, hget]
  have hfound : (g.reset e.id pos).logger.isLogFound = some true := by
    have hfind := findReverseOrder_last h hlast
    simp only [Logger.isLogFound, Logger.reset, hid]
    rw [show (0 : ℕ) = Attr.knoattr from rfl, hfind]
    rfl
  have htail := h.tail
  have hbytes : g.table.size = g.table.growUnit * 32 := h.bytes
  have hfits := h.fits
  have hnext : (g.reset e.id pos).getNext =
      some (some e, { g.reset e.id pos with curPos := pos + 1 }) := by
    have hlt : (g.reset e.id pos).curPos < (g.reset e.id pos).logger.table.tail := by
      show pos < g.table.tail
      omega
    rw [getNext, if_pos hlt]
    show (entryAt g.table (pos % g.table.size)).bind _ = _
    rw [Nat.mod_eq_of_lt (by omega), entryAt_spec h (by omega), hget]
    rfl
  have hwrapped : ∀ regen, wrapped c.ftype regen ret (g.reset e.id pos) =
      some (e.offset, ⟨{ g with libcId := e.id + 1 }, pos + 1, 0⟩) := by
    intro regen
    simp only [wrapped, hfound, answer, if_true, hnext, htype, Option.bind_eq_bind,
      Option.bind_some]
    rfl
  refine ⟨⟨{ g with libcId := e.id + 1 }, pos + 1, 0⟩, ?_, rfl, rfl⟩
  cases c with
  | malloc => exact hwrapped _
  | calloc => exact hwrapped _
  | realloc ptr => exact hwrapped _

end Replay

/-- A scope is replayed exactly when it has no calls, or one whose id is a multiple of `2 ^ 16`. -/
theorem replays_iff {g g' : Logger} {es : List LogEntry} (h : g.table.Holds es)
    {calls : List (Call × ℕ)} (hrec : g.recordCalls calls = some g') (fresh : ℕ → ℕ) :
    ReplaysTo g' g.libcId g.set fresh (calls.map Prod.fst) (calls.map Prod.snd) ↔
      calls = [] ∨ (calls.length = 1 ∧ g.libcId % 2 ^ 16 = 0) := by
  constructor
  · rintro ⟨r, hrun, hallocs, -⟩
    have := Replay.run_replayed hrun hallocs
    rw [List.map_eq_nil_iff, List.length_map] at this
    exact this
  · rintro (rfl | ⟨hone, hid⟩)
    · obtain rfl := Option.some.inj hrec
      exact ⟨_, rfl, rfl, rfl⟩
    · obtain ⟨⟨c, ret⟩, rfl⟩ := List.length_eq_one_iff.mp hone
      have hrec' : g.record ret c = some g' := by
        simpa only [Logger.recordCalls, List.foldlM_cons, List.foldlM_nil, Option.bind_eq_bind,
          Option.pure_def, Option.bind_fun_some] using hrec
      obtain ⟨es', hholds, hkeys⟩ := Logger.record_spec h hrec'
      have hlen : es'.length = es.length + 1 := by
        have := congrArg List.length hkeys
        simpa only [List.length_append, List.length_map, List.length_singleton] using this
      have hget := List.getElem?_eq_getElem (show es.length < es'.length by omega)
      have hkey : (es'[es.length]).key = (g.libcId, c.ftype, ret) := by
        have := congrArg (fun ks => ks[es.length]?) hkeys
        simp only [List.getElem?_map, hget, Option.map_some] at this
        rw [List.getElem?_append_right (by rw [List.length_map]), List.length_map, Nat.sub_self]
          at this
        exact Option.some.inj this
      obtain ⟨hkid, hktype, hkret⟩ := Prod.mk.inj hkey |>.imp id Prod.mk.inj
      obtain ⟨r, hcall, hallocs, htable⟩ := Replay.call_replayed (g := g') hholds hget hlen hktype
        (show (es'[es.length]).id % 2 ^ 16 = 0 by rw [hkid]; exact hid) (fresh 0)
      rw [hkid, hkret] at hcall
      refine ⟨r, ?_, hallocs, by rw [htable]⟩
      rw [Logger.set_spec h]
      simp only [List.map_cons, List.map_nil, Replay.run, Option.bind_eq_bind]
      have hzero : (g'.reset g.libcId es.length).allocs = 0 := rfl
      rw [hzero, hcall]
      rfl

theorem first_call_replays : ∃ g', Logger.create.recordCalls [(.malloc, 16)] = some g' ∧
    ReplaysTo g' 0 0 (fun _ => 48) [.malloc] [16] := by
  obtain ⟨g', hrec⟩ : ∃ g', Logger.create.recordCalls [(.malloc, 16)] = some g' :=
    Option.isSome_iff_exists.mp (by decide +kernel)
  exact ⟨g', hrec, (replays_iff Logger.create_holds hrec _).mpr (.inr ⟨rfl, rfl⟩)⟩

theorem second_call_allocates : ∃ g',
    Logger.create.recordCalls [(.malloc, 16), (.malloc, 32)] = some g' ∧
      (Replay.run (fun _ => 48) [.malloc, .malloc] (g'.reset 0 0)).map
        (fun r => (r.1, r.2.allocs)) = some ([16, 48], 1) ∧
      ¬ ReplaysTo g' 0 0 (fun _ => 48) [.malloc, .malloc] [16, 32] := by
  have hboth : (Logger.create.recordCalls [(.malloc, 16), (.malloc, 32)]).bind (fun g' =>
      (Replay.run (fun _ => 48) [.malloc, .malloc] (g'.reset 0 0)).map
        (fun r => (r.1, r.2.allocs))) = some ([16, 48], 1) := by
    decide +kernel
  obtain ⟨g', hrec, hrun⟩ := Option.bind_eq_some_iff.mp hboth
  refine ⟨g', hrec, hrun, ?_⟩
  rintro ⟨r, hreplay, hallocs, -⟩
  rw [hreplay] at hrun
  have hone : r.allocs = 1 := (Prod.mk.inj (Option.some.inj hrun)).2
  omega

end CDRuntime.LibcLog
