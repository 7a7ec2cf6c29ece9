import CDRuntime.TableStore
import Mathlib.Data.Nat.Bitwise

namespace CDRuntime.Attr

def koutput : ℕ := 0x100
def ktable : ℕ := 0x080
def ktmpshared : ℕ := 0x020
def kshare : ℕ := 0x010
def kremote : ℕ := 0x008
def kdirty : ℕ := 0x002
def kinvalid : ℕ := 0x001

inductive Name where
  | invalid | dirty | refer | remote | share | tmpshared | nested | table | output
  deriving DecidableEq, Repr

namespace Name

def mask : Name → ℕ
  | invalid => kinvalid
  | dirty => kdirty
  | refer => krefer
  | remote => kremote
  | share => kshare
  | tmpshared => ktmpshared
  | nested => knested
  | table => ktable
  | output => koutput

def fields : List Name :=
  [output, table, nested, tmpshared, share, remote, refer, dirty, invalid]

/-- The position of a bit-field, behind `size_:48` and `reserved_:7`. -/
def bit (x : Name) : ℕ := 48 + 7 + fields.idxOf x

/-- `attr_.x_` -/
def field (x : Name) (a : Attr) : Bool := a.code.testBit x.bit

/-- `attr_.x_ = v` -/
def assign (x : Name) (v : Bool) (a : Attr) : Attr :=
  if v then ⟨a.code ||| 2 ^ x.bit⟩ else ⟨a.code &&& (2 ^ 64 - 1 - 2 ^ x.bit)⟩

def index : Name → ℕ
  | invalid => 0
  | dirty => 1
  | refer => 2
  | remote => 3
  | share => 4
  | tmpshared => 5
  | nested => 6
  | table => 7
  | output => 8

end Name

/-- `attr_.size_ = size` -/
def setSize (a : Attr) (size : ℕ) : Attr := ⟨a.code / 2 ^ 48 * 2 ^ 48 + size % 2 ^ 48⟩

def tableEntry (a : Attr) (tableSize : ℕ) : Attr := Name.table.assign true (a.setSize tableSize)

def Checks (a : Attr) (x : Name) : Prop := a.check x.mask = x.field a

/-- `b` has the size of `a` and, but for `x`, its attributes in both views. -/
structure SameBut (a b : Attr) (x : Name) : Prop where
  size : b.size = a.size
  field : ∀ y : Name, y ≠ x → y.field b = y.field a
  check : ∀ y : Name, y ≠ x → b.check y.mask = a.check y.mask

def Sets (a : Attr) (x : Name) : Prop :=
  x.field (a.set x.mask) = true ∧ SameBut a (a.set x.mask) x

def Unsets (a : Attr) (x : Name) : Prop :=
  x.field (a.unset x.mask) = false ∧ SameBut a (a.unset x.mask) x

/-- The assignment makes `Check(kX)` true and leaves the other checks alone. -/
def Assigns (a : Attr) (x : Name) : Prop :=
  (x.assign true a).check x.mask = true ∧
    ∀ y : Name, y ≠ x → (x.assign true a).check y.mask = a.check y.mask

/-- A search by mask recognises the entry of a table chunk under `ktable` only. -/
def TableTagged (a : Attr) (tableSize : ℕ) : Prop :=
  ∀ x : Name, (a.tableEntry tableSize).checkAny x.mask = true ↔ x = .table

def ReadsBack (attr size : ℕ) : Prop :=
  (ofAttr attr size).attr = attr ∧ (ofAttr attr size).size = size % 2 ^ 48

theorem Name.mask_eq (x : Name) : x.mask = 2 ^ x.index := by cases x <;> rfl

theorem Name.index_lt (x : Name) : x.index < 9 := by cases x <;> decide

theorem Name.index_inj {x y : Name} (h : x.index = y.index) : x = y := by
  cases x <;> cases y <;> first | rfl | exact absurd h (by decide)

theorem Name.bit_eq (x : Name) : x.bit = 63 - x.index := by cases x <;> decide

theorem and_mask (a : Attr) (x : Name) :
    a.attr &&& x.mask = (a.code.testBit (48 + x.index)).toNat * 2 ^ x.index := by
  rw [Name.mask_eq, Nat.and_two_pow, attr, Nat.testBit_div_two_pow, Nat.add_comm]

theorem check_mask (a : Attr) (x : Name) : a.check x.mask = a.code.testBit (48 + x.index) := by
  have hpos : 0 < 2 ^ x.index := Nat.two_pow_pos _
  rw [check, and_mask, Name.mask_eq]
  cases a.code.testBit (48 + x.index) with
  | false => rw [Bool.toNat_false, Nat.zero_mul]; exact beq_false_of_ne (Nat.ne_of_lt hpos)
  | true => rw [Bool.toNat_true, Nat.one_mul]; exact beq_self_eq_true _

theorem checkAny_mask (a : Attr) (x : Name) :
    a.checkAny x.mask = a.code.testBit (48 + x.index) := by
  have hpos : 0 < 2 ^ x.index := Nat.two_pow_pos _
  rw [checkAny, and_mask]
  cases a.code.testBit (48 + x.index) with
  | false => rw [Bool.toNat_false, Nat.zero_mul]; rfl
  | true => rw [Bool.toNat_true, Nat.one_mul]; exact bne_iff_ne.mpr (Nat.ne_of_gt hpos)

theorem field_eq (a : Attr) (x : Name) : x.field a = a.code.testBit (63 - x.index) := by
  rw [Name.field, Name.bit_eq]

theorem shift_mask (x : Name) : x.mask * 2 ^ 48 % 2 ^ 64 = 2 ^ (48 + x.index) := by
  cases x <;> rfl

theorem testBit_set (a : Attr) (x : Name) (k : ℕ) :
    (a.set x.mask).code.testBit k = (a.code.testBit k || decide (48 + x.index = k)) := by
  rw [set, shift_mask, Nat.testBit_or, Nat.testBit_two_pow]

theorem testBit_assign (a : Attr) (x : Name) (k : ℕ) :
    (x.assign true a).code.testBit k = (a.code.testBit k || decide (63 - x.index = k)) := by
  rw [Name.assign, if_pos rfl, Name.bit_eq, Nat.testBit_or, Nat.testBit_two_pow]

theorem testBit_without {j : ℕ} (hj : j < 64) (k : ℕ) :
    (2 ^ 64 - 1 - 2 ^ j).testBit k = (decide (k < 64) && !decide (j = k)) := by
  have hlt : 2 ^ j < 2 ^ 64 := Nat.pow_lt_pow_right (by decide) hj
  rw [Nat.sub_sub, Nat.add_comm, Nat.testBit_two_pow_sub_succ hlt, Nat.testBit_two_pow]

theorem testBit_unset (a : Attr) (x : Name) (k : ℕ) :
    (a.unset x.mask).code.testBit k =
      (a.code.testBit k && (decide (k < 64) && !decide (48 + x.index = k))) := by
  have hx := x.index_lt
  rw [unset, shift_mask, Nat.testBit_and, testBit_without (by omega)]

theorem testBit_clear (a : Attr) (x : Name) (k : ℕ) :
    (x.assign false a).code.testBit k =
      (a.code.testBit k && (decide (k < 64) && !decide (63 - x.index = k))) := by
  rw [Name.assign, if_neg (by decide), Name.bit_eq, Nat.testBit_and, testBit_without (by omega)]

theorem size_congr {a b : Attr} (h : ∀ k < 48, a.code.testBit k = b.code.testBit k) :
    a.size = b.size := by
  apply Nat.eq_of_testBit_eq
  intro k
  rw [size, size, Nat.testBit_mod_two_pow, Nat.testBit_mod_two_pow]
  by_cases hk : k < 48
  · rw [h k hk]
  · rw [decide_eq_false hk, Bool.false_and, Bool.false_and]

theorem size_set (a : Attr) (x : Name) : (a.set x.mask).size = a.size := by
  apply size_congr
  intro k hk
  rw [testBit_set, decide_eq_false (show ¬ 48 + x.index = k by omega), Bool.or_false]

theorem size_unset (a : Attr) (x : Name) : (a.unset x.mask).size = a.size := by
  apply size_congr
  intro k hk
  rw [testBit_unset, decide_eq_false (show ¬ 48 + x.index = k by omega),
    decide_eq_true (show k < 64 by omega), Bool.not_false, Bool.and_true, Bool.and_true]

theorem size_assign (a : Attr) (x : Name) (v : Bool) : (x.assign v a).size = a.size := by
  have hx := x.index_lt
  apply size_congr
  intro k hk
  cases v with
  | false =>
      rw [testBit_clear, decide_eq_false (show ¬ 63 - x.index = k by omega),
        decide_eq_true (show k < 64 by omega), Bool.not_false, Bool.and_true, Bool.and_true]
  | true =>
      rw [testBit_assign, decide_eq_false (show ¬ 63 - x.index = k by omega), Bool.or_false]

section Agreement

variable (a : Attr) (x : Name)

theorem checks_iff : a.Checks x ↔
    a.code.testBit (48 + x.index) = a.code.testBit (63 - x.index) := by
  rw [Checks, check_mask, field_eq]

theorem sets_iff : a.Sets x ↔
    a.code.testBit (63 - x.index) = true ∧
      ∀ y : Name, 63 - y.index = 48 + x.index → a.code.testBit (48 + x.index) = true := by
  have hx := x.index_lt
  have hown : x.field (a.set x.mask) = a.code.testBit (63 - x.index) := by
    rw [field_eq, testBit_set, decide_eq_false (by omega), Bool.or_false]
  rw [Sets, hown]
  refine and_congr_right fun _ => ⟨fun h y hy => ?_, fun h => ⟨a.size_set x, fun y _ => ?_, ?_⟩⟩
  · have hne : y ≠ x := by
      rintro rfl
      omega
    have hfield := h.field y hne
    rw [field_eq, field_eq, testBit_set, decide_eq_true hy.symm, Bool.or_true] at hfield
    rw [← hy]
    exact hfield.symm
  · rw [field_eq, field_eq, testBit_set]
    by_cases hy : 63 - y.index = 48 + x.index
    · rw [hy, h y hy, Bool.true_or]
    · rw [decide_eq_false (Ne.symm hy), Bool.or_false]
  · intro y hne
    have hidx := mt Name.index_inj hne
    rw [check_mask, check_mask, testBit_set,
      decide_eq_false (show ¬ 48 + x.index = 48 + y.index by omega), Bool.or_false]

theorem unsets_iff : a.Unsets x ↔
    a.code.testBit (63 - x.index) = false ∧
      ∀ y : Name, 63 - y.index = 48 + x.index → a.code.testBit (48 + x.index) = false := by
  have hx := x.index_lt
  have hown : x.field (a.unset x.mask) = a.code.testBit (63 - x.index) := by
    rw [field_eq, testBit_unset, decide_eq_true (by omega), decide_eq_false (by omega),
      Bool.not_false, Bool.and_true, Bool.and_true]
  rw [Unsets, hown]
  refine and_congr_right fun _ => ⟨fun h y hy => ?_, fun h => ⟨a.size_unset x, fun y _ => ?_, ?_⟩⟩
  · have hne : y ≠ x := by
      rintro rfl
      omega
    have hfield := h.field y hne
    rw [field_eq, field_eq, testBit_unset, decide_eq_true hy.symm, Bool.not_true, Bool.and_false,
      Bool.and_false] at hfield
    rw [← hy]
    exact hfield.symm
  · rw [field_eq, field_eq, testBit_unset, decide_eq_true (show 63 - y.index < 64 by omega),
      Bool.true_and]
    by_cases hy : 63 - y.index = 48 + x.index
    · rw [hy, h y hy, Bool.false_and]
    · rw [decide_eq_false (Ne.symm hy), Bool.not_false, Bool.and_true]
  · intro y hne
    have hy := y.index_lt
    have hidx := mt Name.index_inj hne
    rw [check_mask, check_mask, testBit_unset,
      decide_eq_true (show 48 + y.index < 64 by omega),
      decide_eq_false (show ¬ 48 + x.index = 48 + y.index by omega), Bool.not_false,
      Bool.and_true, Bool.and_true]

theorem assigns_iff : a.Assigns x ↔
    a.code.testBit (48 + x.index) = true ∧
      ∀ y : Name, 48 + y.index = 63 - x.index → a.code.testBit (48 + y.index) = true := by
  have hx := x.index_lt
  have hown : (x.assign true a).check x.mask = a.code.testBit (48 + x.index) := by
    rw [check_mask, testBit_assign, decide_eq_false (by omega), Bool.or_false]
  rw [Assigns, hown]
  apply and_congr_right
  intro _
  constructor
  · intro h y hy
    have hne : y ≠ x := by
      rintro rfl
      omega
    have hcheck := h y hne
    rw [check_mask, check_mask, testBit_assign, decide_eq_true hy.symm, Bool.or_true] at hcheck
    exact hcheck.symm
  · intro h y _
    rw [check_mask, check_mask, testBit_assign]
    by_cases hy : 48 + y.index = 63 - x.index
    · rw [h y hy, Bool.true_or]
    · rw [decide_eq_false (Ne.symm hy), Bool.or_false]

end Agreement

theorem readsBack_iff (attr size : ℕ) : ReadsBack attr size ↔ attr < 2 ^ 16 := by
  have hsize : size % 2 ^ 48 < 2 ^ 48 := Nat.mod_lt _ (by decide)
  have hattr : (ofAttr attr size).attr = attr % 2 ^ 16 := by
    simp only [Attr.attr, ofAttr]
    omega
  rw [ReadsBack, hattr, Nat.mod_eq_iff_lt (by decide), and_iff_left (ofAttr_size attr size)]

theorem not_tableTagged (a : Attr) (tableSize : ℕ) : ¬ a.TableTagged tableSize := by
  intro h
  have hout : (a.tableEntry tableSize).checkAny Name.output.mask = true := by
    rw [checkAny_mask, tableEntry, testBit_assign]
    exact Bool.or_true _
  exact absurd ((h .output).mp hout) (by decide)

/-- The mask of an attribute and its bit-field are two bits of the code. Each operation keeps to
its attribute exactly on the codes where this makes no difference; the size is left alone in any
case, and the entry of a table chunk is never found under `ktable` alone. -/
theorem views_agree_iff (a : Attr) (x : Name) :
    (a.Checks x ↔ a.code.testBit (48 + x.index) = a.code.testBit (63 - x.index)) ∧
    (a.Sets x ↔ a.code.testBit (63 - x.index) = true ∧
      ∀ y : Name, 63 - y.index = 48 + x.index → a.code.testBit (48 + x.index) = true) ∧
    (a.Unsets x ↔ a.code.testBit (63 - x.index) = false ∧
      ∀ y : Name, 63 - y.index = 48 + x.index → a.code.testBit (48 + x.index) = false) ∧
    (a.Assigns x ↔ a.code.testBit (48 + x.index) = true ∧
      ∀ y : Name, 48 + y.index = 63 - x.index → a.code.testBit (48 + y.index) = true) ∧
    (∀ tableSize, ¬ a.TableTagged tableSize) ∧
    ((a.set x.mask).size = a.size ∧ (a.unset x.mask).size = a.size ∧
      ∀ v, (x.assign v a).size = a.size) ∧
    ∀ attr size, ReadsBack attr size ↔ attr < 2 ^ 16 :=
  ⟨a.checks_iff x, a.sets_iff x, a.unsets_iff x, a.assigns_iff x, a.not_tableTagged,
    ⟨a.size_set x, a.size_unset x, a.size_assign x⟩, readsBack_iff⟩

theorem invalid_field_unchecked : ¬ (⟨2 ^ 63⟩ : Attr).Checks .invalid := by
  unfold Checks
  decide

end CDRuntime.Attr
