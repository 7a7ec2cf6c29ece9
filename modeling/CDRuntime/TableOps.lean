import CDRuntime.Compaction
import CDRuntime.Loop32
import CDRuntime.TableStore

namespace CDRuntime

class AttrEntry (E : Type) extends Entry E where
  size_ : E → Attr
  sizeOf_pos : 0 < sizeOf

instance : AttrEntry CDEntry where
  size_ := CDEntry.size_
  sizeOf_pos := by decide

namespace TableStore
open Splice Loop32 Compaction

section Model

variable {E : Type}

/-- `TableStore(alloc)` where the memory of `size_` held `garbage`. -/
def construct (E : Type) [Entry E] (garbage alloc : ℕ) : TableStore E :=
  allocateTable ⟨garbage, 0, 0, 0, 32, 0, none⟩ alloc

/-- `TableStore(ptr_table, len_in_byte)` where the memory of `ptr_` held `wild`. -/
def wrap [Entry E] (garbage : ℕ) (wild ptrTable : Option (List E)) (len : ℕ) : TableStore E :=
  match ptrTable with
  | some block => ⟨len, 0, 0, 0, if 0 < len then len * 2 else 32, 0, some block⟩
  | none => allocateTable ⟨garbage, 0, 0, 0, 32, 0, wild⟩ baseEntryCnt

/-- `if(NeedRealloc(sizeof(EntryT), cnt)) Reallocate();` -/
def makeRoomFor [Entry E] (t : TableStore E) (cnt : ℕ) : Option (TableStore E) := do
  let (grow, t) ← t.needRealloc cnt
  if grow then t.reallocate else some t

/-- `Insert(newentry, cnt)`; the position is taken modulo the bytes of the table. -/
def insertMany [Entry E] (t : TableStore E) (new : List E) : Option (TableStore E) := do
  let t ← t.makeRoomFor new.length
  if t.size = 0 then none
  else
    let ptr ← t.ptr
    let ptr ← store ptr (t.tail % t.size) new
    some { t with ptr := some ptr, tail := t.tail + new.length }

def insertEntry [Entry E] (t : TableStore E) (e : E) : Option (ℕ × TableStore E) := do
  let t ← t.makeRoom
  if t.size = 0 then none
  else
    let ptr ← t.ptr
    let ptr ← store ptr t.tail [e]
    some (t.tail % t.size, { t with ptr := some ptr, tail := t.tail + 1 })

def init (t : TableStore E) : TableStore E :=
  { t with
    head := 0
    tail := 0
    advancePoint := 0
    growUnit := if 0 < t.size then t.size * 2 else t.growUnit }

def reset (t : TableStore E) (tail : ℕ) : TableStore E := { t with tail, advancePoint := tail }

/-- `Free(reuse)` -/
def freeWith (t : TableStore E) (reuse : Bool) : TableStore E :=
  if reuse then t.free
  else { t.free with size := 0, growUnit := baseEntryCnt, ptr := none }

/-- `ptr_[i].size_.CheckAny(attr) == is_true` -/
def selected [AttrEntry E] (attr : ℕ) (isTrue : Bool) (e : E) : Bool :=
  (AttrEntry.size_ e).checkAny attr == isTrue

/-- One round of `FindWithAttr` in place, on the position of the next copy and the table. -/
def moveRound [AttrEntry E] (attr : ℕ) (isTrue : Bool) (i : ℕ) (s : ℕ × TableStore E) :
    Option (ForInStep (ℕ × TableStore E)) := do
  let ptr ← s.2.ptr
  let e ← ptr[i]?
  if selected attr isTrue e then
    let ptr ← store ptr s.1 [e]
    some (.yield (s.1 + 1, { s.2 with ptr := some ptr }))
  else some (.yield s)

/-- `FindWithAttr(attr, begin, NULL, is_true)` with the tail it returns. -/
def findWithAttr [AttrEntry E] (t : TableStore E) (attr start : ℕ) (isTrue : Bool) :
    Option (ℕ × TableStore E) := do
  let (tail, t) ← loop start t.tail (moveRound attr isTrue) (start, t)
  some (tail, { t with tail })

def copyRound [AttrEntry E] (t : TableStore E) (attr : ℕ) (isTrue : Bool) (i : ℕ)
    (table : TableStore E) : Option (ForInStep (TableStore E)) := do
  let ptr ← t.ptr
  let e ← ptr[i]?
  if selected attr isTrue e then
    let table ← table.insert e
    some (.yield table)
  else some (.yield table)

/-- `FindWithAttr(attr, begin, table, is_true)`: the tail of the other table and that table. -/
def findWithAttrInto [AttrEntry E] (t : TableStore E) (attr start : ℕ) (isTrue : Bool)
    (table : TableStore E) : Option (ℕ × TableStore E) := do
  let table ← loop start t.tail (copyRound t attr isTrue) table
  some (table.tail, table)

end Model

section Keeps

variable {E : Type} [Entry E]

/-- The entries of a table whose block covers `size`. A table without a block is empty. -/
structure Keeps (t : TableStore E) (es : List E) : Prop where
  tail : t.tail = es.length
  unit : 0 < t.growUnit
  room : t.tail * Entry.sizeOf E ≤ t.size
  block : ∀ ptr, t.ptr = some ptr → t.size / Entry.sizeOf E ≤ ptr.length ∧ ptr.take t.tail = es
  null : t.ptr = none → es = [] ∧ t.advancePoint = 0 ∧ t.size < Entry.sizeOf E

/-- A table without a block gets one of `baseEntryCnt` entries; in a table with a block, a
position is taken modulo its bytes. -/
def Takes (t : TableStore E) (cnt : ℕ) : Prop :=
  match t.ptr with
  | none => 0 < cnt ∧ cnt ≤ baseEntryCnt
  | some _ => 0 < cnt ∨ 0 < t.size

variable {t : TableStore E} {es : List E}

omit [Entry E] in
theorem takes_one (t : TableStore E) : t.Takes 1 := by
  rw [Takes]
  split
  · exact ⟨by decide, by decide⟩
  · exact Or.inl (by decide)

theorem Holds.keeps (h : t.Holds es) (hsize : 0 < Entry.sizeOf E) : t.Keeps es := by
  obtain ⟨ptr, hptr, hlen, htake⟩ := h.alloc
  refine ⟨h.tail, h.unit, ?_, ?_, ?_⟩
  · rw [h.bytes]
    exact Nat.mul_le_mul_right _ h.fits
  · intro ptr' hptr'
    obtain rfl := Option.some.inj (hptr.symm.trans hptr')
    rw [h.bytes, Nat.mul_div_cancel _ hsize, hlen]
    exact ⟨Nat.le_refl _, htake⟩
  · intro hnull
    rw [hptr] at hnull
    cases hnull

theorem keeps_nil (htail : t.tail = 0) (hunit : 0 < t.growUnit)
    (hblock : ∀ ptr, t.ptr = some ptr → t.size / Entry.sizeOf E ≤ ptr.length)
    (hnull : t.ptr = none → t.advancePoint = 0 ∧ t.size < Entry.sizeOf E) : t.Keeps [] := by
  refine ⟨htail, hunit, ?_, ?_, fun hptr => ⟨rfl, hnull hptr⟩⟩
  · rw [htail, Nat.zero_mul]
    exact Nat.zero_le _
  · intro ptr hptr
    rw [htail]
    exact ⟨hblock ptr hptr, List.take_zero⟩

theorem Keeps.fits (h : t.Keeps es) (hsize : 0 < Entry.sizeOf E) {ptr : List E}
    (hptr : t.ptr = some ptr) : t.tail ≤ ptr.length :=
  Nat.le_trans ((Nat.le_div_iff_mul_le hsize).mpr h.room) (h.block ptr hptr).1

theorem Keeps.shows (h : t.Keeps es) : t.Shows es := by
  refine ⟨h.tail, fun {i} hi => ?_⟩
  cases hptr : t.ptr with
  | none =>
      rw [(h.null hptr).1] at hi
      exact absurd hi (Nat.not_lt_zero i)
  | some ptr =>
      refine ⟨ptr, rfl, ?_⟩
      rw [← (h.block ptr hptr).2, List.getElem?_take_of_lt (by rw [h.tail]; exact hi)]

theorem free_keeps (h : t.Keeps es) : t.free.Keeps [] :=
  keeps_nil rfl h.unit (fun ptr hptr => (h.block ptr hptr).1) fun hnull => ⟨rfl, (h.null hnull).2.2⟩

theorem growLoop_grows {entrySize need growUnit size : ℕ} (hlt : size < need * entrySize)
    (hpos : 0 < growUnit) :
    ∃ g, growLoop entrySize need (need + 2) growUnit size = some (g, g * entrySize) ∧
      growUnit ≤ g ∧ need * entrySize ≤ g * entrySize := by
  obtain ⟨g, hg, hle, hcov⟩ :=
    growLoop_spec need need (growUnit * 2) (growUnit * 2 * entrySize) rfl (by omega) (by omega)
  refine ⟨g, ?_, by omega, hcov⟩
  rw [growLoop, if_pos hlt]
  exact hg

theorem makeRoomFor_spec (h : t.Keeps es) (hsize : 0 < Entry.sizeOf E) {cnt : ℕ}
    (hcnt : t.Takes cnt) :
    ∃ t' ptr, t.makeRoomFor cnt = some t' ∧ t'.ptr = some ptr ∧ t'.Keeps es ∧
      (t'.tail + cnt) * Entry.sizeOf E ≤ t'.size ∧ (0 < cnt ∨ 0 < t'.size) := by
  by_cases hlt : t.size < (t.tail + cnt) * Entry.sizeOf E
  · obtain ⟨g, hg, hle, hcov⟩ := growLoop_grows hlt h.unit
    let grown : TableStore E := { t with growUnit := g, size := g * Entry.sizeOf E }
    have hneed : t.needRealloc cnt = some (true, grown) := by
      simp only [needRealloc, hg, Option.bind_eq_bind, Option.bind_some, hlt, decide_true, grown]
    have hgpos : 0 < g := Nat.lt_of_lt_of_le h.unit hle
    have hgt : t.tail + cnt ≤ g := Nat.le_of_mul_le_mul_right hcov hsize
    cases hptr : t.ptr with
    | some ptr =>
        have hfits : grown.tail ≤ grown.growUnit := Nat.le_trans (Nat.le_add_right _ _) hgt
        obtain ⟨newptr, hre, hlen, htake⟩ :=
          reallocate_spec (t := grown) hptr (h.fits hsize hptr) hfits
        refine ⟨{ grown with ptr := some newptr, allocated := t.allocated + 1 }, newptr, ?_, rfl,
          ⟨h.tail, hgpos, Nat.mul_le_mul_right _ hfits, ?_,
            fun hnull => absurd hnull (Option.some_ne_none _)⟩, hcov,
          Or.inr (Nat.mul_pos hgpos hsize)⟩
        · simp only [makeRoomFor, hneed, Option.bind_eq_bind, Option.bind_some, if_true]
          exact hre
        · intro ptr' hptr'
          obtain rfl := Option.some.inj hptr'
          refine ⟨?_, htake.trans (h.block ptr hptr).2⟩
          rw [hlen]
          exact Nat.le_of_eq (Nat.mul_div_cancel _ hsize)
    | none =>
        -- the unit that was computed is dropped here
        obtain ⟨rfl, hadv, -⟩ := h.null hptr
        rw [Takes, hptr] at hcnt
        let fresh : TableStore E :=
          { grown with
            head := 0, tail := 0, growUnit := baseEntryCnt, allocated := t.allocated + 1
            ptr := some (List.replicate baseEntryCnt Entry.blank)
            size := baseEntryCnt * Entry.sizeOf E }
        have hre : grown.reallocate = some fresh := by
          simp [reallocate, allocateTable, grown, fresh, hptr, hadv, baseEntryCnt]
        have hkeeps : fresh.Keeps [] := by
          refine keeps_nil (t := fresh) rfl (show 0 < baseEntryCnt by decide) ?_
            fun hnull => absurd hnull (Option.some_ne_none _)
          intro ptr' hptr'
          obtain rfl := Option.some.inj hptr'
          rw [List.length_replicate]
          exact Nat.le_of_eq (Nat.mul_div_cancel _ hsize)
        refine ⟨fresh, List.replicate baseEntryCnt Entry.blank, ?_, rfl, hkeeps, ?_, Or.inl hcnt.1⟩
        · simp only [makeRoomFor, hneed, Option.bind_eq_bind, Option.bind_some, if_true]
          exact hre
        · show (0 + cnt) * Entry.sizeOf E ≤ baseEntryCnt * Entry.sizeOf E
          rw [Nat.zero_add]
          exact Nat.mul_le_mul_right _ hcnt.2
  · -- there is room already, and so there is a block
    have hloop : growLoop (Entry.sizeOf E) (t.tail + cnt) (t.tail + cnt + 2) t.growUnit t.size =
        some (t.growUnit, t.size) := by
      rw [growLoop, if_neg hlt]
    have hneed : t.needRealloc cnt = some (false, t) := by
      simp only [needRealloc, hloop, Option.bind_eq_bind, Option.bind_some, hlt, decide_false]
    have hmake : t.makeRoomFor cnt = some t := by
      simp only [makeRoomFor, hneed, Option.bind_eq_bind, Option.bind_some]
      rfl
    cases hptr : t.ptr with
    | some ptr =>
        rw [Takes, hptr] at hcnt
        exact ⟨t, ptr, hmake, hptr, h, Nat.le_of_not_lt hlt, hcnt⟩
    | none =>
        obtain ⟨rfl, -, hsmall⟩ := h.null hptr
        rw [Takes, hptr] at hcnt
        have hone : 1 * Entry.sizeOf E ≤ (t.tail + cnt) * Entry.sizeOf E :=
          Nat.mul_le_mul_right _ (by omega)
        omega

/-- Entries that are stored behind the last one where there is room. -/
theorem Keeps.append (h : t.Keeps es) (hsize : 0 < Entry.sizeOf E) {ptr new : List E}
    (hptr : t.ptr = some ptr) (hroom : (t.tail + new.length) * Entry.sizeOf E ≤ t.size) :
    store ptr t.tail new = some (splice ptr t.tail new) ∧
      Keeps { t with ptr := some (splice ptr t.tail new), tail := t.tail + new.length }
        (es ++ new) := by
  obtain ⟨hblock, htake⟩ := h.block ptr hptr
  have hin : t.tail + new.length ≤ ptr.length :=
    Nat.le_trans ((Nat.le_div_iff_mul_le hsize).mpr hroom) hblock
  refine ⟨store_of_le hin, ?_, h.unit, hroom, ?_, fun hnull => nomatch hnull⟩
  · rw [List.length_append, h.tail]
  · intro ptr' hptr'
    obtain rfl := Option.some.inj hptr'
    refine ⟨?_, ?_⟩
    · rw [splice_length hin]
      exact hblock
    · rw [take_splice_end hin, htake]

theorem tail_mod {cnt : ℕ} (hsize : 0 < Entry.sizeOf E)
    (hroom : (t.tail + cnt) * Entry.sizeOf E ≤ t.size) (hcnt : 0 < cnt) :
    t.tail % t.size = t.tail := by
  have hle : t.tail + cnt ≤ (t.tail + cnt) * Entry.sizeOf E := Nat.le_mul_of_pos_right _ hsize
  exact Nat.mod_eq_of_lt (by omega)

theorem insertMany_spec (h : t.Keeps es) (hsize : 0 < Entry.sizeOf E) {new : List E}
    (hnew : t.Takes new.length) : ∃ t', t.insertMany new = some t' ∧ t'.Keeps (es ++ new) := by
  obtain ⟨t₁, ptr, hmake, hptr, hkeeps, hroom, hpos⟩ := makeRoomFor_spec h hsize hnew
  obtain ⟨hstore, happ⟩ := hkeeps.append hsize hptr hroom
  have hstore' : store ptr (t₁.tail % t₁.size) new = some (splice ptr t₁.tail new) := by
    cases new with
    | nil =>
        have hle : t₁.tail % t₁.size + ([] : List E).length ≤ ptr.length :=
          Nat.le_trans (Nat.mod_le _ _) (hkeeps.fits hsize hptr)
        rw [store_of_le hle, splice_nil, splice_nil]
    | cons e new => rw [tail_mod hsize hroom (Nat.succ_pos _), hstore]
  have hne : ¬ t₁.size = 0 := by
    rcases hpos with hcnt | hbytes
    · have hle := Nat.le_mul_of_pos_right (t₁.tail + new.length) hsize
      omega
    · omega
  refine ⟨_, ?_, happ⟩
  simp only [insertMany, hmake, hptr, hstore', if_neg hne, Option.bind_eq_bind, Option.bind_some]

theorem makeRoom_eq (t : TableStore E) : t.makeRoom = t.makeRoomFor 1 := rfl

theorem insert_keeps (h : t.Keeps es) (hsize : 0 < Entry.sizeOf E) (e : E) :
    ∃ t', t.insert e = some t' ∧ t'.Keeps (es ++ [e]) := by
  obtain ⟨t₁, ptr, hmake, hptr, hkeeps, hroom, -⟩ := makeRoomFor_spec h hsize t.takes_one
  obtain ⟨hstore, happ⟩ := hkeeps.append hsize hptr (show (t₁.tail + [e].length) * _ ≤ _ from hroom)
  refine ⟨_, ?_, happ⟩
  simp only [insert, makeRoom_eq, hmake, hptr, hstore, Option.bind_eq_bind, Option.bind_some,
    List.length_singleton]

theorem insertEntry_spec (h : t.Keeps es) (hsize : 0 < Entry.sizeOf E) (e : E) :
    ∃ t', t.insertEntry e = some (es.length, t') ∧ t'.Keeps (es ++ [e]) := by
  obtain ⟨t₁, ptr, hmake, hptr, hkeeps, hroom, -⟩ := makeRoomFor_spec h hsize t.takes_one
  obtain ⟨hstore, happ⟩ := hkeeps.append hsize hptr (show (t₁.tail + [e].length) * _ ≤ _ from hroom)
  have hne : ¬ t₁.size = 0 := by
    have hle := Nat.le_mul_of_pos_right (t₁.tail + 1) hsize
    omega
  have hpos : t₁.tail % t₁.size = es.length :=
    (tail_mod hsize hroom (by decide)).trans hkeeps.tail
  refine ⟨_, ?_, happ⟩
  simp only [insertEntry, makeRoom_eq, hmake, hptr, hstore, if_neg hne, hpos, Option.bind_eq_bind,
    Option.bind_some, List.length_singleton]

theorem reallocate_allocated {t' : TableStore E} (h : t.reallocate = some t') :
    t.allocated ≤ t'.allocated := by
  rw [reallocate] at h
  cases hptr : t.ptr with
  | some ptr =>
      rw [hptr] at h
      obtain ⟨used, -, h⟩ := Option.bind_eq_some_iff.mp h
      obtain ⟨newptr, -, h⟩ := Option.bind_eq_some_iff.mp h
      obtain rfl := Option.some.inj h
      exact Nat.le_succ _
  | none =>
      rw [hptr] at h
      obtain rfl := Option.some.inj h
      rw [allocateTable, if_pos (by decide)]
      simp only [hptr]
      exact Nat.le_succ _

theorem reallocate_advancePoint {t' : TableStore E} (h : t.reallocate = some t') :
    t'.advancePoint = t.advancePoint := by
  rw [reallocate] at h
  cases hptr : t.ptr with
  | some ptr =>
      rw [hptr] at h
      obtain ⟨used, -, h⟩ := Option.bind_eq_some_iff.mp h
      obtain ⟨newptr, -, h⟩ := Option.bind_eq_some_iff.mp h
      exact Option.some.inj h ▸ rfl
  | none =>
      rw [hptr] at h
      obtain rfl := Option.some.inj h
      rw [allocateTable, if_pos (by decide)]
      simp only [hptr]

theorem insert_advancePoint {e : E} {t' : TableStore E} (h : t.insert e = some t') :
    t'.advancePoint = t.advancePoint := by
  obtain ⟨t₁, hmake, h⟩ := Option.bind_eq_some_iff.mp h
  obtain ⟨ptr, -, h⟩ := Option.bind_eq_some_iff.mp h
  obtain ⟨ptr', -, h⟩ := Option.bind_eq_some_iff.mp h
  obtain rfl := Option.some.inj h
  show t₁.advancePoint = t.advancePoint
  obtain ⟨⟨grow, t₂⟩, hneed, hmake⟩ := Option.bind_eq_some_iff.mp hmake
  obtain ⟨⟨unit, size⟩, -, hneed⟩ := Option.bind_eq_some_iff.mp hneed
  obtain ⟨-, rfl⟩ := Prod.mk.inj (Option.some.inj hneed)
  cases grow with
  | true =>
      simp only [if_true] at hmake
      exact reallocate_advancePoint (t := { t with growUnit := unit, size }) hmake
  | false => exact Option.some.inj hmake ▸ rfl

theorem makeRoomFor_allocated {cnt : ℕ} {t' : TableStore E} (h : t.makeRoomFor cnt = some t') :
    t.allocated ≤ t'.allocated := by
  obtain ⟨⟨grow, t₁⟩, hneed, h⟩ := Option.bind_eq_some_iff.mp h
  obtain ⟨⟨unit, size⟩, -, hneed⟩ := Option.bind_eq_some_iff.mp hneed
  obtain ⟨-, rfl⟩ := Prod.mk.inj (Option.some.inj hneed)
  cases grow with
  | true =>
      simp only [if_true] at h
      exact reallocate_allocated (t := { t with growUnit := unit, size }) h
  | false => exact Option.some.inj h ▸ Nat.le_refl _

theorem insertMany_allocated {new : List E} {t' : TableStore E} (h : t.insertMany new = some t') :
    t.allocated ≤ t'.allocated := by
  obtain ⟨t₁, hmake, h⟩ := Option.bind_eq_some_iff.mp h
  have hle := makeRoomFor_allocated hmake
  by_cases hzero : t₁.size = 0
  · rw [if_pos hzero] at h
    cases h
  · rw [if_neg hzero] at h
    obtain ⟨ptr, -, h⟩ := Option.bind_eq_some_iff.mp h
    obtain ⟨ptr', -, h⟩ := Option.bind_eq_some_iff.mp h
    exact Option.some.inj h ▸ hle

theorem insertEntry_allocated {e : E} {i : ℕ} {t' : TableStore E}
    (h : t.insertEntry e = some (i, t')) : t.allocated ≤ t'.allocated := by
  obtain ⟨t₁, hmake, h⟩ := Option.bind_eq_some_iff.mp h
  have hle := makeRoomFor_allocated (makeRoom_eq t ▸ hmake)
  by_cases hzero : t₁.size = 0
  · rw [if_pos hzero] at h
    cases h
  · rw [if_neg hzero] at h
    obtain ⟨ptr, -, h⟩ := Option.bind_eq_some_iff.mp h
    obtain ⟨ptr', -, h⟩ := Option.bind_eq_some_iff.mp h
    exact (Prod.mk.inj (Option.some.inj h)).2 ▸ hle

theorem insert_allocated {e : E} {t' : TableStore E} (h : t.insert e = some t') :
    t.allocated ≤ t'.allocated := by
  obtain ⟨t₁, hmake, h⟩ := Option.bind_eq_some_iff.mp h
  have hle := makeRoomFor_allocated (makeRoom_eq t ▸ hmake)
  obtain ⟨ptr, -, h⟩ := Option.bind_eq_some_iff.mp h
  obtain ⟨ptr', -, h⟩ := Option.bind_eq_some_iff.mp h
  exact Option.some.inj h ▸ hle

end Keeps

section FindWithAttr

variable {E : Type} [AttrEntry E] {t : TableStore E} {es : List E}

/-- The entries with the attribute, or those without it. -/
def withAttr (attr : ℕ) (isTrue : Bool) (es : List E) : List E := es.filter (selected attr isTrue)

def keptFrom (attr start : ℕ) (isTrue : Bool) (es : List E) : List E :=
  es.take start ++ withAttr attr isTrue (es.drop start)

theorem moveRound_spec {len attr start i dst : ℕ} {isTrue : Bool} {block : List E}
    (hs : start ≤ i) (hi : i < es.length)
    (h : Compacted (selected attr isTrue) es len start i dst block) :
    ∃ dst' block', moveRound attr isTrue i (dst, { t with ptr := some block }) =
        some (.yield (dst', { t with ptr := some block' })) ∧
      Compacted (selected attr isTrue) es len start (i + 1) dst' block' := by
  have hget := List.getElem?_eq_getElem hi
  have hread := h.read hget
  by_cases hc : selected attr isTrue es[i]
  · obtain ⟨hdst, hkeep⟩ := h.keep hs hget hc
    refine ⟨dst + 1, block.set dst es[i], ?_, hkeep⟩
    simp only [moveRound, hread, Option.bind_eq_bind, Option.bind_some, if_pos hc,
      store_of_le (show dst + [es[i]].length ≤ block.length from hdst), splice_singleton _ hdst]
  · refine ⟨dst, block, ?_, h.skip hs hget hc⟩
    simp only [moveRound, hread, Option.bind_eq_bind, Option.bind_some, if_neg hc]

theorem findWithAttr_block (attr : ℕ) (isTrue : Bool) {start : ℕ} {ptr : List E}
    (hptr : t.ptr = some ptr) (htail : t.tail = es.length) (htake : ptr.take t.tail = es)
    (hsmall : t.tail < 2 ^ 32) (hs : start ≤ t.tail) :
    ∃ block, t.findWithAttr attr start isTrue =
        some ((keptFrom attr start isTrue es).length,
          { t with ptr := some block, tail := (keptFrom attr start isTrue es).length }) ∧
      block.length = ptr.length ∧
      block.take (keptFrom attr start isTrue es).length = keptFrom attr start isTrue es := by
  have hin : es.length ≤ ptr.length := by
    rw [← htake, List.length_take]
    exact Nat.min_le_right _ _
  have hlen : start ≤ es.length := htail ▸ hs
  have h0 := compacted_start (p := selected attr isTrue) (htail ▸ htake) hlen
  obtain ⟨⟨dst, t'⟩, hloop, block, rfl, hdone⟩ := loop_invariant (s := (start, t))
    (fun i (s : ℕ × TableStore E) => ∃ block, s.2 = { t with ptr := some block } ∧
      Compacted (selected attr isTrue) es ptr.length start i s.1 block) hsmall hs
    ⟨ptr, (by show t = _; rw [← hptr]), h0⟩ (by
      rintro i ⟨dst, t'⟩ hsi hi ⟨block, rfl, hc⟩
      obtain ⟨dst', block', hround, hc'⟩ := moveRound_spec (t := t) hsi (htail ▸ hi) hc
      exact ⟨_, hround, block', rfl, hc'⟩)
  rw [htail] at hdone
  obtain ⟨hfront, hdst⟩ := hdone.finish hin
  refine ⟨block, ?_, hdone.length, ?_⟩
  · rw [findWithAttr, hloop, keptFrom, withAttr, ← hdst]
    rfl
  · rw [keptFrom, withAttr, ← hdst]
    exact hfront

theorem keptFrom_length_le (attr start : ℕ) (isTrue : Bool) (es : List E) :
    (keptFrom attr start isTrue es).length ≤ es.length := by
  have hle := List.length_filter_le (selected attr isTrue) (es.drop start)
  rw [List.length_drop] at hle
  rw [keptFrom, withAttr, List.length_append, List.length_take]
  omega

theorem findWithAttr_spec (h : t.Keeps es) (attr : ℕ) (isTrue : Bool)
    {start : ℕ} (hsmall : t.tail < 2 ^ 32) (hs : start ≤ t.tail) :
    ∃ t', t.findWithAttr attr start isTrue = some (t'.tail, t') ∧
      t'.Keeps (keptFrom attr start isTrue es) := by
  cases hptr : t.ptr with
  | none =>
      obtain ⟨rfl, -⟩ := h.null hptr
      have htail : t.tail = 0 := h.tail
      have hstart : start = 0 := by omega
      refine ⟨t, ?_, ?_⟩
      · rw [findWithAttr, loop_past (by rw [htail]; exact Nat.zero_le _), hstart, ← htail]
        rfl
      · rw [keptFrom, List.take_nil, List.drop_nil]
        exact h
  | some ptr =>
      obtain ⟨hblock, htake⟩ := h.block ptr hptr
      obtain ⟨block, hrun, hlen, hkept⟩ :=
        findWithAttr_block attr isTrue hptr h.tail htake hsmall hs
      have hle := keptFrom_length_le attr start isTrue es
      refine ⟨{ t with ptr := some block, tail := (keptFrom attr start isTrue es).length }, hrun,
        rfl, h.unit, ?_, ?_, fun hnull => nomatch hnull⟩
      · exact Nat.le_trans (Nat.mul_le_mul_right _ (h.tail ▸ hle)) h.room
      · intro ptr' hptr'
        obtain rfl := Option.some.inj hptr'
        exact ⟨hlen ▸ hblock, hkept⟩

theorem copyRound_spec (h : t.Shows es) {attr start i : ℕ} {isTrue : Bool}
    {table : TableStore E} {fs : List E} (hs : start ≤ i) (hi : i < es.length)
    (hc : table.Keeps (fs ++ seen (selected attr isTrue) es start i)) :
    ∃ table', copyRound t attr isTrue i table = some (.yield table') ∧
      table'.Keeps (fs ++ seen (selected attr isTrue) es start (i + 1)) := by
  have hget := List.getElem?_eq_getElem hi
  obtain ⟨ptr, hptr, hread⟩ := h.getElem? hi
  rw [seen_succ hs hget]
  simp only [copyRound, hptr, hread, hget, Option.bind_eq_bind, Option.bind_some]
  split_ifs with hsel
  · obtain ⟨table', hins, hkeeps⟩ := insert_keeps hc AttrEntry.sizeOf_pos es[i]
    rw [List.append_assoc] at hkeeps
    exact ⟨table', by rw [hins, Option.bind_some], hkeeps⟩
  · rw [List.append_nil]
    exact ⟨table, rfl, hc⟩

theorem findWithAttrInto_spec (h : t.Shows es) (attr : ℕ) (isTrue : Bool) (start : ℕ)
    (hsmall : t.tail < 2 ^ 32) {table : TableStore E} {fs : List E}
    (htable : table.Keeps fs) :
    ∃ table', t.findWithAttrInto attr start isTrue table = some (table'.tail, table') ∧
      table'.Keeps (fs ++ withAttr attr isTrue (es.drop (start % 2 ^ 32))) := by
  have hfinish : ∀ table', loop start t.tail (copyRound t attr isTrue) table = some table' →
      t.findWithAttrInto attr start isTrue table = some (table'.tail, table') := by
    intro table' hloop
    simp only [findWithAttrInto, hloop, Option.bind_eq_bind, Option.bind_some]
  by_cases hle : start % 2 ^ 32 ≤ t.tail
  · have hloop : loop start t.tail (copyRound t attr isTrue) table =
        loop (start % 2 ^ 32) t.tail (copyRound t attr isTrue) table := by
      rw [loop, loop, Nat.mod_mod]
    obtain ⟨table', hrun, hkeeps⟩ := loop_invariant
      (fun i (table : TableStore E) =>
        table.Keeps (fs ++ seen (selected attr isTrue) es (start % 2 ^ 32) i))
      hsmall hle (by
        rw [seen_start, List.append_nil]
        exact htable)
      fun i table hsi hi => copyRound_spec h hsi (h.tail ▸ hi)
    rw [h.tail, seen_end] at hkeeps
    exact ⟨table', hfinish table' (hloop.trans hrun), hkeeps⟩
  · have hnil : es.drop (start % 2 ^ 32) = [] := by
      apply List.drop_eq_nil_of_le
      rw [← h.tail]
      exact Nat.le_of_not_le hle
    refine ⟨table, hfinish table (loop_past (Nat.le_of_not_le hle) table), ?_⟩
    rw [hnil, withAttr, List.filter_nil, List.append_nil]
    exact htable

end FindWithAttr

end TableStore

end CDRuntime
