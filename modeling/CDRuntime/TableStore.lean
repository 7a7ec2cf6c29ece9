import CDRuntime.Splice

namespace CDRuntime
open Splice

/-- The union of a 64-bit code with a 48-bit size below 16 bits of attributes. -/
structure Attr where
  code : ℕ
  deriving DecidableEq, Repr

namespace Attr

def karray : ℕ := 0x200
def knested : ℕ := 0x040
def krefer : ℕ := 0x004
def knoattr : ℕ := 0x000

/-- `Attr(size)` fills the whole code, attributes included. -/
def ofSize (size : ℕ) : Attr := ⟨size % 2 ^ 64⟩

def ofAttr (attr size : ℕ) : Attr := ⟨attr * 2 ^ 48 % 2 ^ 64 + size % 2 ^ 48⟩

def size (a : Attr) : ℕ := a.code % 2 ^ 48

def attr (a : Attr) : ℕ := a.code / 2 ^ 48

def check (a : Attr) (attr : ℕ) : Bool := (a.attr &&& attr) == attr

def checkAny (a : Attr) (attr : ℕ) : Bool := (a.attr &&& attr) != 0

/-- `code_ |= (attr << 48)` -/
def set (a : Attr) (attr : ℕ) : Attr := ⟨a.code ||| (attr * 2 ^ 48 % 2 ^ 64)⟩

/-- `code_ &= ~(attr << 48)` -/
def unset (a : Attr) (attr : ℕ) : Attr := ⟨a.code &&& (2 ^ 64 - 1 - attr * 2 ^ 48 % 2 ^ 64)⟩

theorem ofAttr_attr {a n : ℕ} (ha : a < 2 ^ 16) : (ofAttr a n).attr = a := by
  have hlt : n % 2 ^ 48 < 2 ^ 48 := Nat.mod_lt _ (by decide)
  have hcode : a * 2 ^ 48 % 2 ^ 64 = a * 2 ^ 48 := Nat.mod_eq_of_lt (by omega)
  simp only [attr, ofAttr, hcode]
  omega

theorem ofAttr_size (a n : ℕ) : (ofAttr a n).size = n % 2 ^ 48 := by
  simp only [size, ofAttr]
  omega

end Attr

/-- A null pointer is `0`. -/
structure CDEntry where
  id : UInt64
  size_ : Attr
  offset : ℕ
  src : ℕ
  deriving DecidableEq, Repr

def CDEntry.size (e : CDEntry) : ℕ := e.size_.size

class Entry (E : Type) where
  id : E → UInt64
  sizeOf : ℕ
  blank : E

instance : Entry CDEntry where
  id := CDEntry.id
  sizeOf := 32
  blank := ⟨0, .ofSize 0, 0, 0⟩

/-- `size` is in bytes while `growUnit`, `tail` and the block behind `ptr` count entries. `none` is
a run that leaves its block or does not return. -/
structure TableStore (E : Type) where
  size : ℕ
  head : ℕ
  tail : ℕ
  advancePoint : ℕ
  growUnit : ℕ
  allocated : ℕ
  ptr : Option (List E)

namespace TableStore

variable {E : Type} [Entry E]

def baseEntryCnt : ℕ := 128

/-- `AllocateTable(entry_cnt)`; a table that is already allocated keeps its block. -/
def allocateTable (t : TableStore E) (entryCnt : ℕ) : TableStore E :=
  let t := { t with head := 0, tail := t.advancePoint }
  if entryCnt ≠ 0 then
    match t.ptr with
    | none =>
        { t with
          growUnit := entryCnt
          ptr := some (List.replicate entryCnt (Entry.blank : E))
          size := entryCnt * Entry.sizeOf E
          allocated := t.allocated + 1 }
    | some _ => { t with growUnit := entryCnt }
  else t

/-- `TableStore(alloc)` -/
def create (E : Type) [Entry E] (alloc : ℕ) : TableStore E :=
  allocateTable ⟨0, 0, 0, 0, 32, 0, none⟩ alloc

/-- The loop of `NeedRealloc` on `grow_unit_` and `size_`, for at most `fuel` rounds. -/
def growLoop (entrySize need : ℕ) : ℕ → ℕ → ℕ → Option (ℕ × ℕ)
  | 0, _, _ => none
  | fuel + 1, growUnit, size =>
      if size < need * entrySize then
        growLoop entrySize need fuel (growUnit * 2) (growUnit * 2 * entrySize)
      else some (growUnit, size)

/-- The unit doubles in every round, so a loop that has not ended after `tail + cnt + 2` rounds
has a unit of zero and never ends. -/
def needRealloc (t : TableStore E) (cnt : ℕ) : Option (Bool × TableStore E) := do
  let need := t.tail + cnt
  let (growUnit, size) ← growLoop (Entry.sizeOf E) need (need + 2) t.growUnit t.size
  some (decide (t.size < need * Entry.sizeOf E), { t with growUnit, size })

def reallocate (t : TableStore E) : Option (TableStore E) :=
  match t.ptr with
  | some ptr => do
      let used ← load ptr 0 t.tail
      let newptr ← store (List.replicate t.growUnit Entry.blank) 0 used
      some { t with ptr := some newptr, allocated := t.allocated + 1 }
  | none => some (t.allocateTable baseEntryCnt)

/-- `if(NeedRealloc(sizeof(EntryT))) Reallocate();` -/
def makeRoom (t : TableStore E) : Option (TableStore E) := do
  let (grow, t) ← t.needRealloc 1
  if grow then t.reallocate else some t

/-- `Insert` and `InsertEntry` of one entry. -/
def insert (t : TableStore E) (e : E) : Option (TableStore E) := do
  let t ← t.makeRoom
  let ptr ← t.ptr
  let ptr ← store ptr t.tail [e]
  some { t with ptr := some ptr, tail := t.tail + 1 }

/-- The loop of `Find` from the index `i`, a `uint32_t`, for at most `fuel` rounds. -/
def findLoop (t : TableStore E) (id : UInt64) : ℕ → ℕ → Option (Option E)
  | 0, _ => none
  | fuel + 1, i =>
      if i < t.tail then do
        let ptr ← t.ptr
        let e ← ptr[i]?
        if Entry.id e = id then some (some e) else findLoop t id fuel ((i + 1) % 2 ^ 32)
      else some none

/-- The index is all that a round of the loop changes, so a search that has not ended after
`2 ^ 32 + 1` rounds is in a state it has been in before and never ends. -/
def find (t : TableStore E) (id : UInt64) : Option (Option E) :=
  t.findLoop id (2 ^ 32 + 1) 0

/-- The loop of `FindReverseOrder` without attributes, from the index below `i` down. -/
def findReverseLoop (t : TableStore E) (tag : UInt64) : ℕ → Option (Option E)
  | 0 => some none
  | i + 1 => do
      let ptr ← t.ptr
      let e ← ptr[i]?
      if Entry.id e = tag then some (some e) else findReverseLoop t tag i

/-- `FindReverse(id, knoattr)`; the index is an `int64_t` here. -/
def findReverse (t : TableStore E) (tag : UInt64) : Option (Option E) :=
  t.findReverseLoop tag t.tail

/-- `Free(true)`, which keeps the block. -/
def free (t : TableStore E) : TableStore E :=
  { t with tail := 0, advancePoint := 0, allocated := 0 }

def entries (t : TableStore E) : Option (List E) := do
  let ptr ← t.ptr
  load ptr 0 t.tail

/-- An allocated table with the entries `es`. -/
structure Holds (t : TableStore E) (es : List E) : Prop where
  alloc : ∃ ptr, t.ptr = some ptr ∧ ptr.length = t.growUnit ∧ ptr.take t.tail = es
  tail : t.tail = es.length
  bytes : t.size = t.growUnit * Entry.sizeOf E
  unit : 0 < t.growUnit
  fits : t.tail ≤ t.growUnit

theorem create_holds {alloc : ℕ} (h : 0 < alloc) : Holds (create E alloc) [] := by
  have hne : alloc ≠ 0 := by omega
  rw [create, allocateTable, if_pos hne]
  exact ⟨⟨_, rfl, List.length_replicate, List.take_zero⟩, rfl, rfl, h, Nat.zero_le _⟩

theorem growLoop_spec {entrySize : ℕ} (need fuel : ℕ) :
    ∀ growUnit size, size = growUnit * entrySize → 0 < growUnit → need ≤ growUnit + fuel →
      ∃ g, growLoop entrySize need (fuel + 1) growUnit size = some (g, g * entrySize) ∧
        growUnit ≤ g ∧ need * entrySize ≤ g * entrySize := by
  induction fuel with
  | zero =>
      intro growUnit size hsize hpos hneed
      have hcov : need * entrySize ≤ growUnit * entrySize := Nat.mul_le_mul_right _ hneed
      rw [growLoop, if_neg (by rw [hsize]; omega), hsize]
      exact ⟨growUnit, rfl, Nat.le_refl _, hcov⟩
  | succ fuel ih =>
      intro growUnit size hsize hpos hneed
      rw [growLoop]
      split_ifs with hlt
      · -- a unit that covers the need leaves nothing to grow, so this one is below it
        have hlow : growUnit < need := by
          apply Nat.lt_of_not_le
          intro hle
          have := Nat.mul_le_mul_right entrySize hle
          omega
        obtain ⟨g, hg, hle, hcov⟩ := ih (growUnit * 2) _ rfl (by omega) (by omega)
        exact ⟨g, hg, by omega, hcov⟩
      · exact ⟨growUnit, by rw [hsize], Nat.le_refl _, by omega⟩

theorem reallocate_spec {t : TableStore E} {ptr : List E} (hptr : t.ptr = some ptr)
    (hin : t.tail ≤ ptr.length) (hfits : t.tail ≤ t.growUnit) :
    ∃ newptr, t.reallocate = some { t with ptr := some newptr, allocated := t.allocated + 1 } ∧
      newptr.length = t.growUnit ∧ newptr.take t.tail = ptr.take t.tail := by
  have hload : load ptr 0 t.tail = some (ptr.take t.tail) := by
    rw [load_of_le (by omega), slice_zero]
  have hlen : (ptr.take t.tail).length = t.tail := by rw [List.length_take]; omega
  have hroom : 0 + (ptr.take t.tail).length ≤
      (List.replicate t.growUnit (Entry.blank : E)).length := by
    rw [hlen, List.length_replicate]; omega
  refine ⟨splice (List.replicate t.growUnit Entry.blank) 0 (ptr.take t.tail), ?_, ?_, ?_⟩
  · rw [reallocate, hptr]
    simp only [hload, Option.bind_eq_bind, Option.bind_some, store_of_le hroom]
  · rw [splice_length hroom, List.length_replicate]
  · have h := take_splice_end hroom
    rw [hlen, Nat.zero_add, List.take_zero, List.nil_append] at h
    exact h

theorem makeRoom_spec {t : TableStore E} {es : List E} (h : Holds t es)
    (hsize : 0 < Entry.sizeOf E) :
    ∃ t', t.makeRoom = some t' ∧ Holds t' es ∧ t'.tail < t'.growUnit := by
  obtain ⟨ptr, hptr, hlen, htake⟩ := h.alloc
  by_cases hlt : t.size < (t.tail + 1) * Entry.sizeOf E
  · obtain ⟨g, hg, hle, hcov⟩ :=
      growLoop_spec (t.tail + 1) (t.tail + 1 + 1) t.growUnit t.size h.bytes h.unit (by omega)
    have hroom : t.tail + 1 ≤ g := Nat.le_of_mul_le_mul_right hcov hsize
    have hneed : t.needRealloc 1 =
        some (true, { t with growUnit := g, size := g * Entry.sizeOf E }) := by
      simp only [needRealloc, hg, Option.bind_eq_bind, Option.bind_some, hlt, decide_true]
    let grown : TableStore E := { t with growUnit := g, size := g * Entry.sizeOf E }
    have hin : grown.tail ≤ ptr.length := hlen ▸ h.fits
    have hfits : grown.tail ≤ grown.growUnit := Nat.le_of_succ_le hroom
    obtain ⟨newptr, hre, hnewlen, hnewtake⟩ := reallocate_spec (t := grown) hptr hin hfits
    refine ⟨{ grown with ptr := some newptr, allocated := t.allocated + 1 }, ?_, ?_, hroom⟩
    · simp only [makeRoom, hneed, Option.bind_eq_bind, Option.bind_some, if_true]
      exact hre
    · exact ⟨⟨newptr, rfl, hnewlen, hnewtake.trans htake⟩, h.tail, rfl,
        Nat.lt_of_lt_of_le h.unit hle, hfits⟩
  · -- the loop ends at its first test
    have hloop : growLoop (Entry.sizeOf E) (t.tail + 1) (t.tail + 1 + 2) t.growUnit t.size =
        some (t.growUnit, t.size) := by
      rw [growLoop, if_neg hlt]
    have hneed : t.needRealloc 1 = some (false, t) := by
      simp only [needRealloc, hloop, Option.bind_eq_bind, Option.bind_some, hlt, decide_false]
    refine ⟨t, ?_, h, ?_⟩
    · simp only [makeRoom, hneed, Option.bind_eq_bind, Option.bind_some]
      rfl
    · have hbytes := h.bytes
      rw [hbytes] at hlt
      exact Nat.le_of_mul_le_mul_right (Nat.le_of_not_lt hlt) hsize

theorem insert_spec {t : TableStore E} {es : List E} (h : Holds t es)
    (hsize : 0 < Entry.sizeOf E) (e : E) :
    ∃ t', t.insert e = some t' ∧ Holds t' (es ++ [e]) := by
  obtain ⟨t₁, hmake, hholds, hroom⟩ := makeRoom_spec h hsize
  obtain ⟨ptr, hptr, hlen, htake⟩ := hholds.alloc
  have hin : t₁.tail + [e].length ≤ ptr.length := by rw [hlen]; exact hroom
  refine ⟨{ t₁ with ptr := some (splice ptr t₁.tail [e]), tail := t₁.tail + 1 }, ?_, ?_⟩
  · simp only [insert, hmake, hptr, store_of_le hin, Option.bind_eq_bind, Option.bind_some]
  · refine ⟨⟨_, rfl, ?_, ?_⟩, ?_, hholds.bytes, hholds.unit, hroom⟩
    · rw [splice_length hin, hlen]
    · have hend := take_splice_end hin
      rw [htake] at hend
      exact hend
    · simp only [List.length_append, List.length_singleton, hholds.tail]

/-- The entries `es` as a search sees them. An empty table may be without a block. -/
structure Shows (t : TableStore E) (es : List E) : Prop where
  tail : t.tail = es.length
  getElem? : ∀ {i : ℕ}, i < es.length → ∃ ptr, t.ptr = some ptr ∧ ptr[i]? = es[i]?

theorem Holds.shows {t : TableStore E} {es : List E} (h : Holds t es) : Shows t es := by
  obtain ⟨ptr, hptr, -, htake⟩ := h.alloc
  refine ⟨h.tail, fun {i} hi => ⟨ptr, hptr, ?_⟩⟩
  rw [← htake, List.getElem?_take_of_lt (by rw [h.tail]; exact hi)]

theorem findLoop_succ {t : TableStore E} {es : List E} (h : Shows t es) {id : UInt64}
    {fuel i : ℕ} {e : E} (he : es[i]? = some e) :
    t.findLoop id (fuel + 1) i =
      if Entry.id e = id then some (some e) else t.findLoop id fuel ((i + 1) % 2 ^ 32) := by
  have hi : i < es.length := (List.getElem?_eq_some_iff.mp he).1
  obtain ⟨ptr, hptr, hget⟩ := h.getElem? hi
  rw [findLoop, if_pos (by rw [h.tail]; exact hi)]
  simp only [hptr, hget, he, Option.bind_eq_bind, Option.bind_some]

theorem findLoop_found {t : TableStore E} {es : List E} (h : Shows t es) {id : UInt64} {k : ℕ}
    {e : E} (hk : es[k]? = some e) (hid : Entry.id e = id) (hsmall : k < 2 ^ 32)
    (hfirst : ∀ (j : ℕ) e', j < k → es[j]? = some e' → Entry.id e' ≠ id) (fuel : ℕ) :
    ∀ i, i ≤ k → k < i + fuel → t.findLoop id fuel i = some (some e) := by
  induction fuel with
  | zero =>
      intro i hle hlt
      omega
  | succ fuel ih =>
      intro i hle hlt
      have hlen : k < es.length := (List.getElem?_eq_some_iff.mp hk).1
      rcases Nat.eq_or_lt_of_le hle with rfl | hik
      · rw [findLoop_succ h hk, if_pos hid]
      · have hget := List.getElem?_eq_getElem (show i < es.length by omega)
        rw [findLoop_succ h hget, if_neg (hfirst i _ hik hget), Nat.mod_eq_of_lt (by omega)]
        exact ih (i + 1) hik (by omega)

theorem findLoop_absent {t : TableStore E} {es : List E} (h : Shows t es) {id : UInt64}
    (habs : ∀ e ∈ es, Entry.id e ≠ id) (hsmall : es.length < 2 ^ 32) (fuel : ℕ) :
    ∀ i, i ≤ es.length → es.length < i + fuel → t.findLoop id fuel i = some none := by
  induction fuel with
  | zero =>
      intro i hle hlt
      omega
  | succ fuel ih =>
      intro i hle hlt
      rcases Nat.eq_or_lt_of_le hle with rfl | hi
      · rw [findLoop, if_neg (by rw [h.tail]; exact Nat.lt_irrefl _)]
      · have hget := List.getElem?_eq_getElem hi
        rw [findLoop_succ h hget, if_neg (habs _ (List.mem_of_getElem? hget)),
          Nat.mod_eq_of_lt (by omega)]
        exact ih (i + 1) hi (by omega)

theorem findLoop_wraps {t : TableStore E} {es : List E} (h : Shows t es) {id : UInt64}
    (habs : ∀ (j : ℕ) e, j < 2 ^ 32 → es[j]? = some e → Entry.id e ≠ id)
    (hbig : 2 ^ 32 ≤ es.length) (fuel : ℕ) : ∀ i, i < 2 ^ 32 → t.findLoop id fuel i = none := by
  induction fuel with
  | zero => intro i _; rfl
  | succ fuel ih =>
      intro i hi
      have hget := List.getElem?_eq_getElem (Nat.lt_of_lt_of_le hi hbig)
      rw [findLoop_succ h hget, if_neg (habs i _ hi hget)]
      exact ih _ (Nat.mod_lt _ (by decide))

theorem findReverseLoop_spec {t : TableStore E} {es : List E} (h : Shows t es) (tag : UInt64)
    (i : ℕ) : i ≤ es.length →
      t.findReverseLoop tag i = some ((es.take i).reverse.find? fun e => Entry.id e = tag) := by
  induction i with
  | zero => intro _; rfl
  | succ i ih =>
      intro hi
      obtain ⟨ptr, hptr, hget⟩ := h.getElem? (show i < es.length by omega)
      have he := List.getElem?_eq_getElem (show i < es.length by omega)
      rw [findReverseLoop, List.take_add_one, he, Option.toList_some, List.reverse_append,
        List.reverse_singleton, List.singleton_append, List.find?_cons]
      simp only [hptr, hget, he, Option.bind_eq_bind, Option.bind_some]
      by_cases hid : Entry.id es[i] = tag
      · rw [if_pos hid, decide_eq_true hid]
      · rw [if_neg hid, decide_eq_false hid]
        exact ih (by omega)

theorem findReverse_spec {t : TableStore E} {es : List E} (h : Shows t es) (tag : UInt64) :
    t.findReverse tag = some (es.reverse.find? fun e => Entry.id e = tag) := by
  rw [findReverse, h.tail, findReverseLoop_spec h tag es.length (Nat.le_refl _), List.take_length]

theorem entries_spec {t : TableStore E} {es : List E} (h : Holds t es) : t.entries = some es := by
  obtain ⟨ptr, hptr, hlen, htake⟩ := h.alloc
  have hfits := h.fits
  simp only [entries, hptr, Option.bind_eq_bind, Option.bind_some]
  rw [load_of_le (by omega), slice_zero, htake]

theorem find_found {t : TableStore E} {es : List E} (h : Shows t es) {k : ℕ} {e : E}
    (hk : es[k]? = some e) (hsmall : k < 2 ^ 32)
    (hfirst : ∀ (j : ℕ) e', j < k → es[j]? = some e' → Entry.id e' ≠ Entry.id e) :
    t.find (Entry.id e) = some (some e) :=
  findLoop_found h hk rfl hsmall hfirst (2 ^ 32 + 1) 0 (Nat.zero_le _) (by omega)

theorem find_absent {t : TableStore E} {es : List E} (h : Shows t es) {id : UInt64}
    (habs : ∀ e ∈ es, Entry.id e ≠ id) :
    t.find id = if es.length < 2 ^ 32 then some none else none := by
  split_ifs with hsmall
  · exact findLoop_absent h habs hsmall (2 ^ 32 + 1) 0 (Nat.zero_le _) (by omega)
  · exact findLoop_wraps h (fun _ e _ he => habs e (List.mem_of_getElem? he))
      (Nat.le_of_not_lt hsmall) (2 ^ 32 + 1) 0 (by decide)

theorem find_free (t : TableStore E) (id : UInt64) : t.free.find id = some none := by
  rw [find, findLoop]
  exact if_neg (Nat.not_lt_zero 0)

theorem find_beyond {t : TableStore E} {es : List E} (h : Shows t es) {id : UInt64}
    (habs : ∀ (j : ℕ) e, j < 2 ^ 32 → es[j]? = some e → Entry.id e ≠ id)
    (hbig : 2 ^ 32 ≤ es.length) : t.find id = none :=
  findLoop_wraps h habs hbig (2 ^ 32 + 1) 0 (by decide)

end TableStore

end CDRuntime
