import CDRuntime.Preserve

namespace CDRuntime

namespace TableStore
open Splice

/-- How often a table with room for `a` entries has grown when it has `n` of them. -/
def grown (a : ℕ) : ℕ → ℕ
  | 0 => 0
  | n + 1 => if n < a * 2 ^ grown a n then grown a n else grown a n + 1

variable {E : Type} [Entry E] {t t' : TableStore E} {es : List E} {e : E}

theorem insert_grows (h : t.Holds es) (hsize : 0 < Entry.sizeOf E) (hins : t.insert e = some t')
    {a : ℕ} (hunit : t.growUnit = a * 2 ^ grown a es.length)
    (halloc : t.allocated = grown a es.length + 1) :
    t'.growUnit = a * 2 ^ grown a (es.length + 1) ∧
      t'.allocated = grown a (es.length + 1) + 1 := by
  obtain ⟨ptr, hptr, hlen, -⟩ := h.alloc
  have htail := h.tail
  have hpos : 0 < t.growUnit := h.unit
  rw [grown, ← hunit]
  by_cases hroom : es.length < t.growUnit
  · have henough : ¬ t.size < (t.tail + 1) * Entry.sizeOf E := by
      rw [h.bytes, htail, Nat.not_lt]
      exact Nat.mul_le_mul_right _ hroom
    have hmake : t.makeRoom = some t := by
      rw [makeRoom, needRealloc, growLoop, if_neg henough]
      simp [henough]
    simp only [insert, hmake, Option.bind_eq_bind, Option.bind_some] at hins
    obtain ⟨ptr₁, -, hins⟩ := Option.bind_eq_some_iff.mp hins
    obtain ⟨ptr₂, -, hins⟩ := Option.bind_eq_some_iff.mp hins
    obtain rfl := Option.some.inj hins
    rw [if_pos hroom]
    exact ⟨hunit, halloc⟩
  · have hfits := h.fits
    have hfull : t.tail = t.growUnit := by omega
    have hshort : t.size < (t.tail + 1) * Entry.sizeOf E := by
      rw [h.bytes, hfull, Nat.add_mul]
      omega
    have henough : ¬ t.growUnit * 2 * Entry.sizeOf E < (t.tail + 1) * Entry.sizeOf E := by
      rw [Nat.not_lt, hfull]
      exact Nat.mul_le_mul_right _ (by omega)
    have hloop : growLoop (Entry.sizeOf E) (t.tail + 1) (t.tail + 1 + 2) t.growUnit t.size =
        some (t.growUnit * 2, t.growUnit * 2 * Entry.sizeOf E) := by
      rw [growLoop, if_pos hshort, growLoop, if_neg henough]
    let grownTable : TableStore E :=
      { t with growUnit := t.growUnit * 2, size := t.growUnit * 2 * Entry.sizeOf E }
    obtain ⟨newptr, hre, -⟩ := reallocate_spec (t := grownTable) hptr
      (show t.tail ≤ ptr.length by omega) (show t.tail ≤ t.growUnit * 2 by omega)
    have hmake : t.makeRoom =
        some { grownTable with ptr := some newptr, allocated := t.allocated + 1 } := by
      simp only [makeRoom, needRealloc, hloop, hshort, decide_true, Option.bind_eq_bind,
        Option.bind_some, if_true]
      exact hre
    simp only [insert, hmake, Option.bind_eq_bind, Option.bind_some] at hins
    obtain ⟨ptr₂, -, hins⟩ := Option.bind_eq_some_iff.mp hins
    obtain rfl := Option.some.inj hins
    rw [if_neg hroom, Nat.pow_succ, ← Nat.mul_assoc, ← hunit, halloc]
    exact ⟨rfl, rfl⟩

end TableStore

namespace Preserve
open Cells Packer TableStore RemoteEntries

/-- What a call leaves in the table: an array or a member of an object, a reference, or an object
behind its members, of which it covers `before` bytes, with the table of that time. -/
inductive Item where
  | plain (id : UInt64) (remote array : Bool) (src len : ℕ) (mem : Cells UInt8)
  | refer (id : UInt64) (remote nested : Bool) (size offset : ℕ) (refId : UInt64)
  | object (id : UInt64) (remote : Bool) (members : List Member) (mem : Cells UInt8) (before : ℕ)
      (table : List UInt8)

namespace Item

def id : Item → UInt64
  | plain id .. => id
  | refer id .. => id
  | object id .. => id

def bit (b : Bool) (attr : ℕ) : ℕ := if b then attr else 0

def attr : Item → ℕ
  | plain _ remote array .. => bit remote Attr.kremote ||| bit array Attr.karray
  | refer _ remote nested .. => bit remote Attr.kremote ||| Attr.krefer ||| bit nested Attr.knested
  | object _ remote .. => bit remote Attr.kremote ||| Attr.knested

def bytes : Item → List UInt8
  | plain _ _ _ src len mem => readOut mem src len
  | refer .. => []
  | object _ _ _ _ _ table => table

def size : Item → ℕ
  | plain _ _ _ _ len _ => len
  | refer _ _ _ size .. => size
  | object _ _ _ _ before table => before + table.length

def src (off : ℕ) : Item → ℕ
  | plain _ _ _ src .. => src
  | refer _ _ _ _ _ refId => refId.toNat
  | object .. => off

/-- A part of length zero is not written. -/
def offset (off : ℕ) : Item → ℕ
  | plain _ _ array _ len _ => if len = 0 then bit array invalidNum else off
  | refer _ _ _ _ offset _ => offset
  | object _ _ _ _ before _ => off - before

/-- The entry, when the bytes of the item are at `off`. -/
def entry (off : ℕ) (it : Item) : CDEntry :=
  ⟨it.id, .ofAttr it.attr it.size, it.offset off, it.src off⟩

/-- A reference has no data of its own. -/
def mem? : Item → Option (Cells UInt8)
  | plain _ _ _ _ _ mem => some mem
  | refer .. => none
  | object _ _ _ mem _ _ => some mem

def isArray : Item → Bool
  | plain _ _ array .. => array
  | _ => false

/-- The data is not null, and its length fits in the field of the entry. -/
def Sized : Item → Prop
  | plain _ _ _ src len _ => src ≠ 0 ∧ len < 2 ^ 48
  | _ => True

theorem attr_lt (it : Item) : it.attr < 2 ^ 16 := by
  cases it with
  | plain _ remote array =>
      exact (by decide : ∀ remote array,
        bit remote Attr.kremote ||| bit array Attr.karray < 2 ^ 16) remote array
  | refer _ remote nested =>
      exact (by decide : ∀ remote nested,
        bit remote Attr.kremote ||| Attr.krefer ||| bit nested Attr.knested < 2 ^ 16) remote nested
  | object _ remote =>
      exact (by decide : ∀ remote, bit remote Attr.kremote ||| Attr.knested < 2 ^ 16) remote

theorem entry_attr (off : ℕ) (it : Item) : (it.entry off).size_.attr = it.attr :=
  Attr.ofAttr_attr it.attr_lt

theorem check_krefer (off : ℕ) (it : Item) :
    (it.entry off).size_.check Attr.krefer = it.mem?.isNone := by
  rw [Attr.check, entry_attr]
  cases it with
  | plain _ remote array =>
      exact (by decide : ∀ remote array, ((bit remote Attr.kremote ||| bit array Attr.karray) &&&
        Attr.krefer == Attr.krefer) = false) remote array
  | refer _ remote nested =>
      exact (by decide : ∀ remote nested, ((bit remote Attr.kremote ||| Attr.krefer |||
        bit nested Attr.knested) &&& Attr.krefer == Attr.krefer) = true) remote nested
  | object _ remote =>
      exact (by decide : ∀ remote, ((bit remote Attr.kremote ||| Attr.knested) &&&
        Attr.krefer == Attr.krefer) = false) remote

theorem not_nested (off : ℕ) (id : UInt64) (remote array : Bool) (src len : ℕ) (mem : Cells UInt8) :
    ((plain id remote array src len mem).entry off).size_.check Attr.knested = false := by
  rw [Attr.check, entry_attr]
  exact (by decide : ∀ remote array, ((bit remote Attr.kremote ||| bit array Attr.karray) &&&
    Attr.knested == Attr.knested) = false) remote array

theorem entry_size {off : ℕ} {it : Item} (h : it.size < 2 ^ 48) : (it.entry off).size = it.size :=
  (Attr.ofAttr_size _ _).trans (Nat.mod_eq_of_lt h)

end Item

abbrev Directory (dir : Packer) (items : List Item) : Prop := Stored Item.entry Item.bytes dir items

theorem entry_reads {dir : Packer} {pre post : List Item} {id : UInt64} {remote array : Bool}
    {src len : ℕ} {mem : Cells UInt8}
    (h : Directory dir (pre ++ .plain id remote array src len mem :: post)) :
    dir.data.getDataVolatile len ((Item.plain id remote array src len mem).entry
      (dir.data.writtenLen + (pre.flatMap Item.bytes).length)).offset =
        some (readOut mem src len) := by
  have hlen : (readOut mem src len).length = len := readOut_length _ _ _
  rw [Item.entry, Item.offset]
  split_ifs with h0
  · subst h0
    rfl
  · have hread := h.read (Nat.le_of_eq hlen.symm)
    rw [Item.bytes, List.take_of_length_le (Nat.le_of_eq hlen)] at hread
    exact hread

theorem layout_ids (off : ℕ) (items : List Item) :
    (layout Item.entry Item.bytes off items).map Entry.id = items.map Item.id := by
  apply layout_id
  intro off it
  rfl

theorem id_of_layout {off : ℕ} {items : List Item} {e : CDEntry}
    (he : e ∈ layout Item.entry Item.bytes off items) : ∃ it ∈ items, it.id = Entry.id e := by
  have hid : Entry.id e ∈ items.map Item.id := by
    rw [← layout_ids off]
    exact List.mem_map_of_mem he
  exact List.mem_map.mp hid

theorem layout_newest (off : ℕ) (pre : List Item) {post : List Item} {it : Item} {tag : UInt64}
    (hid : it.id = tag) (hpost : ∀ it' ∈ post, it'.id ≠ tag) :
    (layout Item.entry Item.bytes off (pre ++ it :: post)).reverse.find?
      (fun e => Entry.id e = tag) = some (it.entry (off + (pre.flatMap Item.bytes).length)) := by
  have hlater : ∀ off', (layout Item.entry Item.bytes off' post).reverse.find?
      (fun e => Entry.id e = tag) = none := by
    intro off'
    rw [List.find?_eq_none]
    intro e he
    obtain ⟨it', hit', heq⟩ := id_of_layout (List.mem_reverse.mp he)
    simpa [← heq] using hpost it' hit'
  have hown : Entry.id (it.entry (off + (pre.flatMap Item.bytes).length)) = tag := hid
  rw [layout_append, layout, List.reverse_append, List.reverse_cons, List.append_assoc,
    List.find?_append, hlater, Option.none_or, List.singleton_append, List.find?_cons,
    decide_eq_true hown]

theorem layout_none (off : ℕ) {items : List Item} {tag : UInt64} (h : ∀ it ∈ items, it.id ≠ tag) :
    (layout Item.entry Item.bytes off items).reverse.find? (fun e => Entry.id e = tag) = none := by
  rw [List.find?_eq_none]
  intro e he
  obtain ⟨it, hit, heq⟩ := id_of_layout (List.mem_reverse.mp he)
  simpa [← heq] using h it hit

theorem find_first {dir : Packer} {pre post : List Item} {it : Item}
    (h : Directory dir (pre ++ it :: post)) (hpre : ∀ it' ∈ pre, it'.id ≠ it.id)
    (hsmall : pre.length < 2 ^ 32) :
    dir.table.find it.id =
      some (some (it.entry (dir.data.writtenLen + (pre.flatMap Item.bytes).length))) := by
  have hget : (layout Item.entry Item.bytes dir.data.writtenLen (pre ++ it :: post))[pre.length]? =
      some (it.entry (dir.data.writtenLen + (pre.flatMap Item.bytes).length)) :=
    layout_getElem? dir.data.writtenLen pre post it
  refine TableStore.find_found h.table.shows hget hsmall ?_
  intro j e' hj he' heq
  rw [layout_append, List.getElem?_append_left (by rw [layout_length]; exact hj)] at he'
  obtain ⟨it', hit', hid⟩ := id_of_layout (List.mem_of_getElem? he')
  exact hpre it' hit' (hid.trans heq)

/-- A directory that had room for `a` entries and no data before `base` when its CD began. -/
structure Kept (base a : ℕ) (dir : Packer) (items : List Item) : Prop where
  stored : Directory dir items
  base : dir.data.writtenLen = base
  unit : dir.table.growUnit = a * 2 ^ grown a items.length
  allocated : dir.table.allocated = grown a items.length + 1
  advancePoint : dir.table.advancePoint = 0
  sized : ∀ it ∈ items, it.Sized

def place (base : ℕ) (items : List Item) : ℕ := base + (items.flatMap Item.bytes).length

theorem Kept.used {base a : ℕ} {dir : Packer} {items : List Item} (h : Kept base a dir items) :
    dir.data.used = place base items := by
  rw [DataStore.used, h.stored.data.tail, h.base, place, Nat.add_comm]

theorem Kept.inserted {base a : ℕ} {dir dir₁ : Packer} {items : List Item} {it : Item}
    {t : TableStore CDEntry} (h : Kept base a dir items) (htable : dir₁.table = dir.table)
    (hbase : dir₁.data.writtenLen = base) {e : CDEntry} (hins : dir₁.table.insert e = some t)
    (hstored : Directory { dir₁ with table := t } (items ++ [it])) (hit : it.Sized) :
    Kept base a { dir₁ with table := t } (items ++ [it]) := by
  have hlen : (layout Item.entry Item.bytes dir.data.writtenLen items).length = items.length :=
    layout_length _ _
  have hunit := h.unit
  have halloc := h.allocated
  rw [← hlen] at hunit halloc
  rw [htable] at hins
  have hgrows := insert_grows h.stored.table entrySize_pos hins hunit halloc
  rw [hlen] at hgrows
  refine ⟨hstored, hbase, ?_, ?_, (insert_advancePoint hins).trans h.advancePoint, ?_⟩
  · rw [List.length_append, List.length_singleton]
    exact hgrows.1
  · rw [List.length_append, List.length_singleton]
    exact hgrows.2
  · intro it' hit'
    rcases List.mem_append.mp hit' with hold | hnew
    · exact h.sized it' hold
    · exact List.mem_singleton.mp hnew ▸ hit

/-- An item whose bytes are written before its entry is inserted. -/
theorem Kept.written {base a : ℕ} {dir : Packer} {items : List Item} (h : Kept base a dir items)
    (it : Item) (hit : it.Sized) :
    ∃ dir₁ t, dir.writeData it.bytes = some (place base items, dir₁) ∧
      dir₁.table.insert (it.entry (place base items)) = some t ∧
      Kept base a { dir₁ with table := t } (items ++ [it]) := by
  obtain ⟨dir₁, t, hwrite, hins, hstored⟩ := h.stored.written it
  obtain ⟨dir₂, hwrite₂, htable, -, -, hwl⟩ := writeData_holds h.stored.data h.stored.ftype it.bytes
  obtain ⟨-, rfl⟩ := Prod.mk.inj (Option.some.inj (hwrite.symm.trans hwrite₂))
  rw [h.base] at hwrite hins hwl
  exact ⟨dir₁, t, hwrite, hins, h.inserted htable hwl hins hstored hit⟩

/-- An item without bytes. -/
theorem Kept.listed {base a : ℕ} {dir : Packer} {items : List Item} (h : Kept base a dir items)
    {it : Item} (hnil : it.bytes = []) (hit : it.Sized) :
    ∃ t, dir.table.insert (it.entry (place base items)) = some t ∧
      Kept base a { dir with table := t } (items ++ [it]) := by
  obtain ⟨t, hins, hstored⟩ := h.stored.listed hnil
  rw [h.base] at hins
  exact ⟨t, hins, h.inserted rfl h.base hins hstored hit⟩

def tableBytes (base : ℕ) (items : List Item) : List UInt8 :=
  CDEntry.layout.encAll (layout Item.entry Item.bytes base items)

/-- The table is appended from its first entry on. -/
theorem Kept.currBytes {base a : ℕ} {dir : Packer} {items : List Item} (h : Kept base a dir items) :
    dir.table.currBytes = some (tableBytes base items) := by
  have htab := h.stored.table
  rw [h.base] at htab
  obtain ⟨ptr, hptr, -, htake⟩ := htab.alloc
  have hsize : dir.table.size ≠ 0 := by
    rw [htab.bytes]
    exact Nat.ne_of_gt (Nat.mul_pos htab.unit entrySize_pos)
  have hsplit : CDEntry.layout.encAll ptr =
      tableBytes base items ++ CDEntry.layout.encAll (ptr.drop dir.table.tail) := by
    rw [tableBytes, ← htake, Layout.encAll, Layout.encAll, Layout.encAll, ← List.flatMap_append,
      List.take_append_drop]
  have hlen : (tableBytes base items).length = dir.table.tail * Entry.sizeOf CDEntry := by
    rw [tableBytes, Layout.encAll_length, CDEntry.layout_size, htab.tail, Nat.mul_comm]
  rw [TableStore.currBytes, h.advancePoint, if_neg (by omega), hptr]
  simp only [Option.bind_eq_bind, Option.bind_some, Nat.zero_mod, Nat.zero_mul, Nat.sub_zero]
  rw [hsplit, ← hlen, Splice.load_of_le (by rw [List.length_append]; omega), Splice.slice_zero,
    List.take_left]

def Member.item (mem : Cells UInt8) (m : Member) : Item := .plain m.id false false m.data m.len mem

def Call.parts (c : Call) (mem : Cells UInt8) : List Item :=
  if c.serdes then c.members.map (Member.item mem) else []

/-- The item of the data as a whole, in a directory with the items `old`. -/
def Call.whole (base : ℕ) (c : Call) (mem : Cells UInt8) (id : UInt64) (old : List Item) : Item :=
  if c.serdes then .object id c.coop c.members mem ((c.parts mem).flatMap Item.bytes).length
    (tableBytes base old)
  else .plain id c.coop true c.data c.len mem

/-- What preserving by copy adds to a directory with the items `old`. -/
def Call.items (base : ℕ) (c : Call) (mem : Cells UInt8) (id : UInt64) (old : List Item) :
    List Item :=
  c.parts mem ++ [c.whole base mem id (old ++ c.parts mem)]

/-- Pointers that are not null, and lengths that the field of an entry has room for. -/
structure Call.Fits (c : Call) : Prop where
  data : c.data ≠ 0
  len : c.len < 2 ^ 48
  members : ∀ m ∈ c.members, m.data ≠ 0 ∧ m.len < 2 ^ 48

theorem Member.item_entry (mem : Cells UInt8) (m : Member) (off : ℕ) :
    (m.item mem).entry off = ⟨m.id, .ofAttr 0 m.len, if m.len = 0 then 0 else off, m.data⟩ := by
  have hattr : (m.item mem).attr = 0 :=
    (by decide : Item.bit false Attr.kremote ||| Item.bit false Attr.karray = 0)
  rw [Item.entry, hattr]
  rfl

theorem addMember_spec {base a : ℕ} {dir : Packer} {items : List Item} (h : Kept base a dir items)
    {m : Member} (hdata : m.data ≠ 0) (hlen : m.len < 2 ^ 48) (mem : Cells UInt8) :
    ∃ dir', addMember mem dir m = some dir' ∧ Kept base a dir' (items ++ [m.item mem]) := by
  have hsize : (Attr.ofAttr 0 m.len).size = m.len :=
    (Attr.ofAttr_size _ _).trans (Nat.mod_eq_of_lt hlen)
  have hsized : (m.item mem).Sized := ⟨hdata, hlen⟩
  by_cases h0 : m.len = 0
  · have hnil : (m.item mem).bytes = [] := by
      show readOut mem m.data m.len = []
      rw [h0]
      rfl
    obtain ⟨t, hins, hkept⟩ := h.listed hnil hsized
    rw [Member.item_entry, if_pos h0] at hins
    refine ⟨_, ?_, hkept⟩
    rw [addMember, hsize, if_neg (not_not.mpr h0)]
    simp only [Option.bind_eq_bind, Option.bind_some, hins]
  · obtain ⟨dir₁, t, hwrite, hins, hkept⟩ := h.written (m.item mem) hsized
    have hbytes : (m.item mem).bytes = readOut mem m.data m.len := rfl
    rw [Member.item_entry, if_neg h0] at hins
    refine ⟨_, ?_, hkept⟩
    rw [addMember, hsize, if_pos h0, ← hbytes, hwrite]
    simp only [Option.bind_eq_bind, Option.bind_some, hins]

theorem preserveObject_spec {base a : ℕ} {members : List Member} (mem : Cells UInt8) :
    ∀ {dir : Packer} {items : List Item}, Kept base a dir items →
    (∀ m ∈ members, m.data ≠ 0 ∧ m.len < 2 ^ 48) →
    ∃ dir', preserveObject dir mem members = some dir' ∧
      Kept base a dir' (items ++ members.map (Member.item mem)) := by
  induction members with
  | nil =>
      intro dir items h _
      rw [List.map_nil, List.append_nil]
      exact ⟨dir, rfl, h⟩
  | cons m members ih =>
      intro dir items h hm
      obtain ⟨hfirst, hrest⟩ := List.forall_mem_cons.mp hm
      obtain ⟨dir₁, hadd, hkept₁⟩ := addMember_spec h hfirst.1 hfirst.2 mem
      obtain ⟨dir', hobject, hkept⟩ := ih hkept₁ hrest
      rw [List.append_assoc, List.singleton_append] at hkept
      refine ⟨dir', ?_, hkept⟩
      rw [preserveObject, List.foldlM_cons, hadd]
      exact hobject

theorem preserveArray_spec {base a : ℕ} {dir : Packer} {items : List Item}
    (h : Kept base a dir items) {c : Call} (hc : c.Fits) (mem : Cells UInt8) (id : UInt64)
    (hserdes : c.serdes = false) :
    ∃ dir', preserveCopy dir mem c id = some dir' ∧
      Kept base a dir' (items ++ [.plain id c.coop true c.data c.len mem]) := by
  set it : Item := .plain id c.coop true c.data c.len mem with hdef
  have hentry : ∀ off, it.entry off =
      ⟨id, .ofAttr (c.remote ||| Attr.karray) c.len, if c.len = 0 then invalidNum else off,
        c.data⟩ := fun _ => rfl
  have hsize : CDEntry.size ⟨id, .ofAttr (c.remote ||| Attr.karray) c.len, 0, c.data⟩ = c.len :=
    (Attr.ofAttr_size _ _).trans (Nat.mod_eq_of_lt hc.len)
  have hsized : it.Sized := ⟨hc.data, hc.len⟩
  by_cases h0 : c.len = 0
  · have hnil : it.bytes = [] := by
      show readOut mem c.data c.len = []
      rw [h0]
      rfl
    obtain ⟨t, hins, hkept⟩ := h.listed hnil hsized
    rw [hentry, if_pos h0] at hins
    refine ⟨_, ?_, hkept⟩
    rw [preserveCopy, hserdes, if_neg (by decide), addEntry, hsize, if_neg (fun hne => hne.2 h0)]
    simp only [Option.bind_eq_bind, Option.bind_some, hins]
  · obtain ⟨dir₁, t, hwrite, hins, hkept⟩ := h.written it hsized
    have hbytes : it.bytes = readOut mem c.data c.len := rfl
    rw [hentry, if_neg h0] at hins
    refine ⟨_, ?_, hkept⟩
    rw [preserveCopy, hserdes, if_neg (by decide), addEntry, hsize, if_pos ⟨hc.data, h0⟩, ← hbytes,
      hwrite]
    simp only [Option.bind_eq_bind, Option.bind_some, hins]

theorem appendTable_spec {base a : ℕ} {dir : Packer} {items : List Item}
    (h : Kept base a dir items) {it : Item} (hbytes : it.bytes = tableBytes base items)
    (hit : it.Sized) :
    ∃ dir₁ t, appendTable dir = some dir₁ ∧
      dir₁.data.used = place base items + it.bytes.length ∧
      dir₁.table.insert (it.entry (place base items)) = some t ∧
      Kept base a { dir₁ with table := t } (items ++ [it]) := by
  rw [appendTable, h.currBytes, ← hbytes]
  simp only [Option.bind_eq_bind, Option.bind_some]
  by_cases hnil : it.bytes = []
  · obtain ⟨t, hins, hkept⟩ := h.listed hnil hit
    rw [if_neg (not_not.mpr hnil), hnil]
    exact ⟨dir, t, rfl, h.used, hins, hkept⟩
  · obtain ⟨dir₁, t, hwrite, hins, hkept⟩ := h.written it hit
    rw [if_pos hnil, hwrite]
    refine ⟨dir₁, t, rfl, ?_, hins, hkept⟩
    have hused : dir₁.data.used = place base (items ++ [it]) := hkept.used
    rw [hused, place, place, List.flatMap_append, List.flatMap_singleton, List.length_append,
      Nat.add_assoc]

theorem preserveCopy_spec {base a : ℕ} {dir : Packer} {items : List Item}
    (h : Kept base a dir items) {c : Call} (hc : c.Fits) (mem : Cells UInt8) (id : UInt64) :
    ∃ dir', preserveCopy dir mem c id = some dir' ∧
      Kept base a dir' (items ++ c.items base mem id items) := by
  rw [Call.items, Call.whole, Call.parts]
  cases hserdes : c.serdes with
  | false => exact preserveArray_spec h hc mem id hserdes
  | true =>
      rw [if_pos rfl, if_pos rfl]
      set parts := c.members.map (Member.item mem) with hparts
      set it : Item := .object id c.coop c.members mem (parts.flatMap Item.bytes).length
        (tableBytes base (items ++ parts)) with hdef
      obtain ⟨dir₁, hobject, hkept₁⟩ := preserveObject_spec mem h hc.members
      obtain ⟨dir₂, t, happend, hused, hins, hkept⟩ :=
        appendTable_spec hkept₁ (show it.bytes = tableBytes base (items ++ parts) from rfl) trivial
      have hplace : place base (items ++ parts) =
          place base items + (parts.flatMap Item.bytes).length := by
        rw [place, place, List.flatMap_append, List.length_append, Nat.add_assoc]
      have hentry : it.entry (place base (items ++ parts)) =
          ⟨id, .ofAttr (c.remote ||| Attr.knested) (dir₂.data.used - dir.data.used),
            dir.data.used, dir₁.data.used⟩ := by
        rw [hused, h.used, hkept₁.used, hplace, Item.entry, Item.offset, Item.size, Item.src]
        simp only [hdef, Item.bytes]
        rw [Nat.add_sub_cancel, Nat.add_assoc, Nat.add_sub_cancel_left]
        rfl
      rw [hentry] at hins
      rw [List.append_assoc] at hkept
      refine ⟨{ dir₂ with table := t }, ?_, hkept⟩
      rw [preserveCopy, hserdes, if_pos rfl, hobject]
      simp only [Option.bind_eq_bind, Option.bind_some, happend, hins]

end Preserve

end CDRuntime
