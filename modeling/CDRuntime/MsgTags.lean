import CDRuntime.CDID
import CDRuntime.Parts
import Mathlib.Data.Nat.Log

namespace CDRuntime.MsgTags
open Parts

/-- `cd::max_tag_bit` and the positions derived from it. -/
structure TagBits where
  maxTagBit : Int32
  maxTagLevelBit : Int32
  maxTagRankBit : Int32
  maxTagTaskBit : Int32
  deriving DecidableEq, Repr

/-- `(predefined_max_tag_bits >> cnt) & 0x1` -/
def tagBitAt (wide : UInt64 → UInt64) (predefinedMaxTagBits : UInt64) (cnt : ℕ) : UInt64 :=
  (if cnt < 64 then predefinedMaxTagBits >>> UInt64.ofNat cnt else wide predefinedMaxTagBits) &&& 1

/-- The loop over `cnt`, down to zero. -/
def findTagBit (wide : UInt64 → UInt64) (predefinedMaxTagBits : UInt64) : ℕ → Option ℕ
  | 0 => if tagBitAt wide predefinedMaxTagBits 0 ≠ 0 then some 0 else none
  | cnt + 1 =>
      if tagBitAt wide predefinedMaxTagBits (cnt + 1) ≠ 0 then some (cnt + 1)
      else findTagBit wide predefinedMaxTagBits cnt

/-- The part of `Initialize` on tags, where `MPI_TAG_UB` is `v`. The first test of its loop shifts
by the width of the operand, which is undefined; `wide` is what it gives. -/
def initTagBits (wide : UInt64 → UInt64) (v : Int32) : TagBits :=
  let predefinedMaxTagBits := (v + 1).toInt64.toUInt64
  let maxTagBit := Int32.ofNat ((findTagBit wide predefinedMaxTagBits 64).getD 0)
  let maxTagLevelBit := 6
  let maxTagRankBit := maxTagBit - maxTagLevelBit - 1
  { maxTagBit := maxTagBit
    maxTagLevelBit := maxTagLevelBit
    maxTagRankBit := maxTagRankBit
    maxTagTaskBit := maxTagRankBit / 2 }

def tagMask (x : Int32) : Int32 := ((2 : Int32) <<< (x - 1)) - 1

def genMsgTag (bits : TagBits) (tag : UInt64) : UInt32 :=
  (tag &&& (tagMask bits.maxTagBit).toInt64.toUInt64).toUInt32

/-- `CDID::GenMsgTagForSameCD`; the message type is not used. -/
def genMsgTagForSameCD (bits : TagBits) (cd : CDID) (_msgType taskInColor : Int32) : UInt32 :=
  let level := cd.cdName.level
  let rankInLevel := cd.cdName.rankInLevel
  let tag := level <<< bits.maxTagRankBit.toUInt32 |||
    rankInLevel <<< bits.maxTagTaskBit.toUInt32 ||| taskInColor.toUInt32
  let tag := tag &&& (tagMask bits.maxTagBit).toUInt32
  tag ||| ((1 : Int32) <<< (bits.maxTagBit - 1)).toUInt32

structure Fits (B : ℕ) (cd : CDID) (taskInColor : Int32) : Prop where
  level : cd.cdName.level.toNat < 64
  rank : cd.cdName.rankInLevel.toNat < 2 ^ (B - 7 - (B - 7) / 2)
  nonneg : 0 ≤ taskInColor.toInt
  task : taskInColor.toInt.toNat < 2 ^ ((B - 7) / 2)

/-- What the tags are for, when the limit is `v` and `t` is the tag of an entry. -/
structure TagsLegal (bits : TagBits) (v : ℕ) (t : UInt64) : Prop where
  maxTagBit : bits.maxTagBit.toInt = Nat.log 2 (v + 1)
  injective : ∀ cd cd' msgType msgType' task task', Fits bits.maxTagBit.toInt.toNat cd task →
    Fits bits.maxTagBit.toInt.toNat cd' task' →
    genMsgTagForSameCD bits cd msgType task = genMsgTagForSameCD bits cd' msgType' task' →
    cd.cdName.level = cd'.cdName.level ∧ cd.cdName.rankInLevel = cd'.cdName.rankInLevel ∧
      task = task'
  sameCD : ∀ cd msgType task, Fits bits.maxTagBit.toInt.toNat cd task →
    (genMsgTagForSameCD bits cd msgType task).toNat ≤ v
  apart : ∀ cd msgType task, Fits bits.maxTagBit.toInt.toNat cd task →
    genMsgTagForSameCD bits cd msgType task ≠ genMsgTag bits t
  entry : (genMsgTag bits t).toNat ≤ v

theorem tagBitAt_toNat (wide : UInt64 → UInt64) (bits : UInt64) {cnt : ℕ} (h : cnt < 64) :
    (tagBitAt wide bits cnt).toNat = bits.toNat / 2 ^ cnt % 2 := by
  rw [tagBitAt, if_pos h, UInt64.toNat_and, UInt64.toNat_shiftRight, Nat.shiftRight_eq_div_pow]
  have hcnt : (UInt64.ofNat cnt).toNat % 64 = cnt := by
    rw [UInt64.toNat_ofNat']
    omega
  rw [hcnt]
  exact Nat.and_one_is_mod _

theorem findTagBit_eq (wide : UInt64 → UInt64) (bits : UInt64) {b : ℕ} (hlow : 2 ^ b ≤ bits.toNat)
    (hhigh : bits.toNat < 2 ^ (b + 1)) (cnt : ℕ) (hcnt : cnt < 64) (hb : b ≤ cnt) :
    findTagBit wide bits cnt = some b := by
  have hat : ∀ c < 64, b ≤ c → (tagBitAt wide bits c ≠ 0 ↔ c = b) := by
    intro c hc hbc
    rw [ne_eq, ← UInt64.toNat_inj, tagBitAt_toNat wide bits hc]
    by_cases heq : c = b
    · subst heq
      have hone : bits.toNat / 2 ^ c = 1 := by
        rw [Nat.pow_succ] at hhigh
        exact Nat.div_eq_of_lt_le (by omega) (by omega)
      simp [hone]
    · have hzero : bits.toNat / 2 ^ c = 0 := by
        apply Nat.div_eq_of_lt
        exact lt_of_lt_of_le hhigh (Nat.pow_le_pow_right (by decide) (by omega))
      simp [hzero, heq]
  induction cnt with
  | zero =>
      obtain rfl := Nat.le_zero.mp hb
      rw [findTagBit, if_pos ((hat 0 hcnt hb).mpr rfl)]
  | succ cnt ih =>
      rw [findTagBit]
      by_cases heq : cnt + 1 = b
      · rw [if_pos ((hat _ hcnt hb).mpr heq), heq]
      · rw [if_neg fun h => heq ((hat _ hcnt hb).mp h)]
        exact ih (by omega) (by omega)

def positions (B : ℕ) : TagBits where
  maxTagBit := Int32.ofNat B
  maxTagLevelBit := 6
  maxTagRankBit := Int32.ofNat (B - 7)
  maxTagTaskBit := Int32.ofNat ((B - 7) / 2)

theorem positions_of_bit {B : ℕ} (hlow : 15 ≤ B) (hhigh : B ≤ 30) :
    Int32.ofNat B - 6 - 1 = Int32.ofNat (B - 7) ∧
      Int32.ofNat (B - 7) / 2 = Int32.ofNat ((B - 7) / 2) := by
  have hall : ∀ B < 31, 15 ≤ B → Int32.ofNat B - 6 - 1 = Int32.ofNat (B - 7) ∧
      Int32.ofNat (B - 7) / 2 = Int32.ofNat ((B - 7) / 2) := by decide
  exact hall B (by omega) hlow

theorem initTagBits_eq (wide : UInt64 → UInt64) {v : ℕ} (hlow : 32767 ≤ v) (hv : v + 1 < 2 ^ 31) :
    (wide (UInt64.ofNat (v + 1)) &&& 1 = 0 →
      initTagBits wide (Int32.ofNat v) = positions (Nat.log 2 (v + 1))) ∧
    (wide (UInt64.ofNat (v + 1)) &&& 1 ≠ 0 →
      (initTagBits wide (Int32.ofNat v)).maxTagBit = 64) := by
  have hlimit : (Int32.ofNat v + 1).toInt64.toUInt64 = UInt64.ofNat (v + 1) := by
    have hadd : Int32.ofNat v + 1 = Int32.ofNat (v + 1) := (Int32.ofNat_add v 1).symm
    rw [hadd, Int32.toInt64_ofNat' (by rw [Int32.toInt_maxValue]; omega), Int64.toUInt64_ofNat']
  have hfirst : tagBitAt wide (UInt64.ofNat (v + 1)) 64 = wide (UInt64.ofNat (v + 1)) &&& 1 := rfl
  constructor
  · intro hwide
    have htoNat : (UInt64.ofNat (v + 1)).toNat = v + 1 := by
      rw [UInt64.toNat_ofNat']
      omega
    have hbit := (Nat.log_eq_iff (b := 2) (m := Nat.log 2 (v + 1)) (n := v + 1)
      (.inr ⟨by decide, by omega⟩)).mp rfl
    have hB : 15 ≤ Nat.log 2 (v + 1) := Nat.le_log_of_pow_le (by decide) (by omega)
    have hB' : Nat.log 2 (v + 1) < 31 := Nat.log_lt_of_lt_pow (by omega) hv
    have hfind : findTagBit wide (UInt64.ofNat (v + 1)) 64 = some (Nat.log 2 (v + 1)) := by
      rw [findTagBit, hfirst, if_neg (not_not_intro hwide)]
      apply findTagBit_eq wide _ _ _ 63 (by decide) (by omega)
      · rw [htoNat]
        exact hbit.1
      · rw [htoNat]
        exact hbit.2
    obtain ⟨hrank, htask⟩ := positions_of_bit hB (by omega)
    simp only [initTagBits, hlimit, hfind, Option.getD_some, hrank, htask]
    rfl
  · intro hwide
    have hfind : findTagBit wide (UInt64.ofNat (v + 1)) 64 = some 64 := by
      rw [findTagBit, hfirst, if_pos hwide]
    simp only [initTagBits, hlimit, hfind, Option.getD_some]
    rfl

theorem initTagBits_overflow (wide : UInt64 → UInt64) :
    63 ≤ (initTagBits wide (Int32.ofNat (2 ^ 31 - 1))).maxTagBit.toInt := by
  have hlimit : (Int32.ofNat (2 ^ 31 - 1) + 1).toInt64.toUInt64 = 0xFFFFFFFF80000000 := by decide
  have htop : findTagBit wide 0xFFFFFFFF80000000 63 = some 63 :=
    findTagBit_eq wide _ (by decide) (by decide) 63 (by decide) (Nat.le_refl _)
  simp only [initTagBits, hlimit]
  rw [findTagBit, htop]
  split <;> decide

theorem fields_or (level : ℕ) {rank task R T : ℕ} (htask : task < 2 ^ T)
    (hrank : rank < 2 ^ (R - T)) (hT : T ≤ R) :
    level <<< R ||| rank <<< T ||| task = 2 ^ R * level + (2 ^ T * rank + task) := by
  have hlow := parts_lt hrank htask
  rw [← Nat.pow_add, Nat.add_sub_cancel' hT] at hlow
  rw [Nat.or_assoc, Nat.shiftLeft_eq, Nat.shiftLeft_eq, Nat.mul_comm rank, Nat.mul_comm level,
    ← Nat.two_pow_add_eq_or_of_lt htask, ← Nat.two_pow_add_eq_or_of_lt hlow]

theorem fields_lt {B : ℕ} (hlow : 15 ≤ B) {cd : CDID} {task : Int32} (h : Fits B cd task) :
    2 ^ ((B - 7) / 2) * cd.cdName.rankInLevel.toNat + task.toInt.toNat < 2 ^ (B - 7) ∧
    2 ^ (B - 7) * cd.cdName.level.toNat +
      (2 ^ ((B - 7) / 2) * cd.cdName.rankInLevel.toNat + task.toInt.toNat) < 2 ^ (B - 1) := by
  have hhigh : 2 ^ (B - 7) * 64 = 2 ^ (B - 1) := by
    rw [show B - 1 = B - 7 + 6 by omega, Nat.pow_add]
  have hrank := parts_lt h.rank h.task
  rw [← Nat.pow_add, Nat.add_sub_cancel' (Nat.div_le_self _ _)] at hrank
  refine ⟨hrank, ?_⟩
  rw [← hhigh]
  exact parts_lt h.level hrank

section Tags

variable {B : ℕ} (hlow : 15 ≤ B) (hhigh : B ≤ 30)

include hlow hhigh

theorem tagMask_toNat : (tagMask (Int32.ofNat B)).toUInt32.toNat = 2 ^ B - 1 ∧
    (tagMask (Int32.ofNat B)).toInt64.toUInt64.toNat = 2 ^ B - 1 ∧
    ((1 : Int32) <<< (Int32.ofNat B - 1)).toUInt32.toNat = 2 ^ (B - 1) := by
  have hall : ∀ B < 31, 15 ≤ B → (tagMask (Int32.ofNat B)).toUInt32.toNat = 2 ^ B - 1 ∧
      (tagMask (Int32.ofNat B)).toInt64.toUInt64.toNat = 2 ^ B - 1 ∧
      ((1 : Int32) <<< (Int32.ofNat B - 1)).toUInt32.toNat = 2 ^ (B - 1) := by decide
  exact hall B (by omega) hlow

theorem genMsgTag_toNat (t : UInt64) : (genMsgTag (positions B) t).toNat = t.toNat % 2 ^ B := by
  have hmask := (tagMask_toNat hlow hhigh).2.1
  have hlt : t.toNat % 2 ^ B < 2 ^ 32 := by
    apply lt_of_lt_of_le (Nat.mod_lt _ (Nat.two_pow_pos B))
    exact Nat.pow_le_pow_right (by decide) (by omega)
  rw [genMsgTag, UInt64.toNat_toUInt32, UInt64.toNat_and]
  show (t.toNat &&& (tagMask (Int32.ofNat B)).toInt64.toUInt64.toNat) % 2 ^ 32 = _
  rw [hmask, Nat.and_two_pow_sub_one_eq_mod, Nat.mod_eq_of_lt hlt]

theorem genMsgTagForSameCD_toNat {cd : CDID} {msgType task : Int32} (h : Fits B cd task) :
    (genMsgTagForSameCD (positions B) cd msgType task).toNat =
      2 ^ (B - 1) + (2 ^ (B - 7) * cd.cdName.level.toNat +
        (2 ^ ((B - 7) / 2) * cd.cdName.rankInLevel.toNat + task.toInt.toNat)) := by
  obtain ⟨hmask, -, hbit⟩ := tagMask_toNat hlow hhigh
  have hT : (B - 7) / 2 ≤ B - 7 := Nat.div_le_self _ _
  have htask : task.toUInt32.toNat = task.toInt.toNat := by
    rw [Int32.toNat_toUInt32_of_le (Int32.le_iff_toInt_le.mpr h.nonneg)]
    rfl
  have hsize : 2 ^ (B - 1) = 2 ^ (B - 7) * 64 := by
    rw [show B - 1 = B - 7 + 6 by omega, Nat.pow_add]
  have hword : 2 ^ (B - 1) ≤ 2 ^ 29 := Nat.pow_le_pow_right (by decide) (by omega)
  -- a field that fits is not cut off by its shift
  have hlevel : (cd.cdName.level <<< UInt32.ofNat (B - 7)).toNat =
      cd.cdName.level.toNat <<< (B - 7) := by
    have hcount : (UInt32.ofNat (B - 7)).toNat % 32 = B - 7 := by
      rw [UInt32.toNat_ofNat']
      omega
    rw [UInt32.toNat_shiftLeft, hcount, Nat.mod_eq_of_lt]
    rw [Nat.shiftLeft_eq, Nat.mul_comm]
    have := Nat.mul_lt_mul_of_pos_left h.level (Nat.two_pow_pos (B - 7))
    omega
  have hrank : (cd.cdName.rankInLevel <<< UInt32.ofNat ((B - 7) / 2)).toNat =
      cd.cdName.rankInLevel.toNat <<< ((B - 7) / 2) := by
    have hcount : (UInt32.ofNat ((B - 7) / 2)).toNat % 32 = (B - 7) / 2 := by
      rw [UInt32.toNat_ofNat']
      omega
    rw [UInt32.toNat_shiftLeft, hcount, Nat.mod_eq_of_lt]
    rw [Nat.shiftLeft_eq, Nat.mul_comm]
    have hlt := Nat.mul_lt_mul_of_pos_left h.rank (Nat.two_pow_pos ((B - 7) / 2))
    rw [← Nat.pow_add, Nat.add_sub_cancel' hT] at hlt
    omega
  have hfields := fields_or cd.cdName.level.toNat h.task h.rank hT
  have hsum := (fields_lt hlow h).2
  have hor : 2 ^ (B - 1) + (2 ^ (B - 7) * cd.cdName.level.toNat +
      (2 ^ ((B - 7) / 2) * cd.cdName.rankInLevel.toNat + task.toInt.toNat)) =
      (2 ^ (B - 7) * cd.cdName.level.toNat +
        (2 ^ ((B - 7) / 2) * cd.cdName.rankInLevel.toNat + task.toInt.toNat)) ||| 2 ^ (B - 1) := by
    have := Nat.two_pow_add_eq_or_of_lt hsum 1
    rw [Nat.mul_one] at this
    rw [this, Nat.or_comm]
  rw [hor]
  show ((cd.cdName.level <<< UInt32.ofNat (B - 7) |||
    cd.cdName.rankInLevel <<< UInt32.ofNat ((B - 7) / 2) ||| task.toUInt32) &&&
      (tagMask (Int32.ofNat B)).toUInt32 |||
        ((1 : Int32) <<< (Int32.ofNat B - 1)).toUInt32).toNat = _
  rw [UInt32.toNat_or, UInt32.toNat_and, UInt32.toNat_or, UInt32.toNat_or, hlevel, hrank, htask,
    hmask, hbit, hfields, Nat.and_two_pow_sub_one_eq_mod, Nat.mod_eq_of_lt]
  exact lt_of_lt_of_le hsum (Nat.pow_le_pow_right (by decide) (Nat.sub_le B 1))

theorem exists_fits {y : ℕ} (hy : y < 2 ^ (B - 1)) : ∃ cd task, Fits B cd task ∧
    2 ^ (B - 7) * cd.cdName.level.toNat +
      (2 ^ ((B - 7) / 2) * cd.cdName.rankInLevel.toNat + task.toInt.toNat) = y := by
  have hT : (B - 7) / 2 ≤ B - 7 := Nat.div_le_self _ _
  have hword : 2 ^ (B - 7) ≤ 2 ^ 23 := Nat.pow_le_pow_right (by decide) (by omega)
  rw [show B - 1 = B - 7 + 6 by omega, Nat.pow_add] at hy
  obtain ⟨level, low, hlevel, hlow', rfl⟩ := exists_parts (Nat.two_pow_pos _) hy
  have hlow'' := hlow'
  rw [← Nat.add_sub_cancel' hT, Nat.pow_add] at hlow''
  obtain ⟨rank, task, hrank, htask, rfl⟩ := exists_parts (Nat.two_pow_pos _) hlow''
  have hrank' : rank < 2 ^ 32 := by
    apply lt_of_lt_of_le hrank
    exact Nat.pow_le_pow_right (by decide) (by omega)
  have htask' : task < 2 ^ 31 := by
    apply lt_of_lt_of_le htask
    exact Nat.pow_le_pow_right (by decide) (by omega)
  have hlevel' : level < 2 ^ 32 := by omega
  have hl : (UInt32.ofNat level).toNat = level := UInt32.toNat_ofNat_of_lt' hlevel'
  have hr : (UInt32.ofNat rank).toNat = rank := UInt32.toNat_ofNat_of_lt' hrank'
  have ht : (Int32.ofNat task).toInt = task := Int32.toInt_ofNat_of_lt htask'
  refine ⟨⟨⟨UInt32.ofNat level, 0, UInt32.ofNat rank, 0⟩, default, 0, 0, 0⟩, Int32.ofNat task,
    ⟨?_, ?_, ?_, ?_⟩, ?_⟩
  · rw [hl]
    exact hlevel
  · rw [hr]
    exact hrank
  · rw [ht]
    exact Int.natCast_nonneg task
  · rw [ht]
    exact htask
  · rw [hl, hr, ht]
    rfl

theorem apart_iff (t : UInt64) :
    (∀ cd msgType task, Fits B cd task →
      genMsgTagForSameCD (positions B) cd msgType task ≠ genMsgTag (positions B) t) ↔
    t.toNat.testBit (B - 1) = false := by
  have hsplit : t.toNat % 2 ^ B =
      t.toNat % 2 ^ (B - 1) + 2 ^ (B - 1) * (t.toNat / 2 ^ (B - 1) % 2) := by
    rw [show B = B - 1 + 1 by omega, Nat.pow_succ, Nat.mod_mul]
    rfl
  rw [Nat.testBit_eq_decide_div_mod_eq, decide_eq_false_iff_not]
  constructor
  · intro hapart hset
    obtain ⟨cd, task, hfits, hy⟩ := exists_fits hlow hhigh
      (Nat.mod_lt t.toNat (Nat.two_pow_pos (B - 1)))
    apply hapart cd 0 task hfits
    rw [← UInt32.toNat_inj, genMsgTagForSameCD_toNat hlow hhigh hfits, genMsgTag_toNat hlow hhigh,
      hsplit, hset, hy]
    omega
  · intro hclear cd msgType task hfits heq
    have hzero : t.toNat / 2 ^ (B - 1) % 2 = 0 := by omega
    have hval := congrArg UInt32.toNat heq
    rw [genMsgTagForSameCD_toNat hlow hhigh hfits, genMsgTag_toNat hlow hhigh, hsplit, hzero,
      Nat.mul_zero, Nat.add_zero] at hval
    have := Nat.mod_lt t.toNat (Nat.two_pow_pos (B - 1))
    omega

theorem positions_legal {v : ℕ} (hv : 2 ^ B ≤ v + 1) (hB : B = Nat.log 2 (v + 1)) (t : UInt64)
    (hclear : t.toNat.testBit (B - 1) = false) : TagsLegal (positions B) v t := by
  have hbit : (positions B).maxTagBit.toInt = B := Int32.toInt_ofNat_of_lt (by omega)
  have hwidth : (positions B).maxTagBit.toInt.toNat = B := by rw [hbit, Int.toNat_natCast]
  have htop : 2 ^ (B - 1) * 2 = 2 ^ B := by
    rw [← Nat.pow_succ]
    congr 1
    omega
  constructor
  · rw [hbit, hB]
  · rw [hwidth]
    intro cd cd' msgType msgType' task task' h h' heq
    have hval := congrArg UInt32.toNat heq
    rw [genMsgTagForSameCD_toNat hlow hhigh h, genMsgTagForSameCD_toNat hlow hhigh h'] at hval
    obtain ⟨hlevel, hrest⟩ := parts_injective (fields_lt hlow h).1 (fields_lt hlow h').1
      (Nat.add_left_cancel hval)
    obtain ⟨hrank, htask⟩ := parts_injective h.task h'.task hrest
    refine ⟨UInt32.toNat_inj.mp hlevel, UInt32.toNat_inj.mp hrank, Int32.toInt.inj ?_⟩
    have hnonneg := h.nonneg
    have hnonneg' := h'.nonneg
    omega
  · rw [hwidth]
    intro cd msgType task h
    rw [genMsgTagForSameCD_toNat hlow hhigh h]
    have := (fields_lt hlow h).2
    omega
  · rw [hwidth]
    exact (apart_iff hlow hhigh t).mpr hclear
  · rw [genMsgTag_toNat hlow hhigh]
    have := Nat.mod_lt t.toNat (Nat.two_pow_pos B)
    omega

end Tags

/-- The tags are legal and apart exactly when the limit can be increased, the first test of the
loop reads no bit, and the tag of the entry leaves the bit of the tags of a CD clear. -/
theorem tagsLegal_iff (wide : UInt64 → UInt64) (v : ℕ) (hlow : 32767 ≤ v) (hhigh : v ≤ 2 ^ 31 - 1)
    (t : UInt64) :
    TagsLegal (initTagBits wide (Int32.ofNat v)) v t ↔
      v < 2 ^ 31 - 1 ∧ wide (UInt64.ofNat (v + 1)) &&& 1 = 0 ∧
        t.toNat.testBit (Nat.log 2 (v + 1) - 1) = false := by
  have hB : 15 ≤ Nat.log 2 (v + 1) := Nat.le_log_of_pow_le (by decide) (by omega)
  constructor
  · intro h
    have hmax : v ≠ 2 ^ 31 - 1 := by
      rintro rfl
      have hbit := h.maxTagBit
      have hover := initTagBits_overflow wide
      rw [hbit] at hover
      exact absurd hover (by decide)
    have hv : v + 1 < 2 ^ 31 := by omega
    have hB' : Nat.log 2 (v + 1) < 31 := Nat.log_lt_of_lt_pow (by omega) hv
    obtain ⟨hfound, hmissed⟩ := initTagBits_eq wide hlow hv
    have hwide : wide (UInt64.ofNat (v + 1)) &&& 1 = 0 := by
      by_contra hset
      have hbit := h.maxTagBit
      rw [hmissed hset] at hbit
      have hlog : (Nat.log 2 (v + 1) : ℤ) = 64 := hbit.symm
      omega
    refine ⟨by omega, hwide, ?_⟩
    have hapart := h.apart
    rw [hfound hwide] at hapart
    have hwidth : (positions (Nat.log 2 (v + 1))).maxTagBit.toInt.toNat = Nat.log 2 (v + 1) := by
      have hbit : (positions (Nat.log 2 (v + 1))).maxTagBit.toInt = Nat.log 2 (v + 1) :=
        Int32.toInt_ofNat_of_lt (by omega)
      rw [hbit, Int.toNat_natCast]
    rw [hwidth] at hapart
    exact (apart_iff hB (by omega) t).mp hapart
  · rintro ⟨hv, hwide, hclear⟩
    have hv : v + 1 < 2 ^ 31 := by omega
    have hB' : Nat.log 2 (v + 1) < 31 := Nat.log_lt_of_lt_pow (by omega) hv
    rw [(initTagBits_eq wide hlow hv).1 hwide]
    exact positions_legal hB (by omega) (Nat.pow_log_le_self 2 (by omega)) rfl t hclear

theorem first_test_masked (v : ℕ) : id (UInt64.ofNat (v + 1)) &&& 1 = 0 ↔ v % 2 = 1 := by
  rw [id, ← UInt64.toNat_inj, UInt64.toNat_and, UInt64.toNat_ofNat']
  show (v + 1) % 2 ^ 64 &&& 1 = 0 ↔ v % 2 = 1
  rw [Nat.and_one_is_mod]
  omega

theorem smallest_limit_legal : TagsLegal (initTagBits id (Int32.ofNat 32767)) 32767 5 :=
  (tagsLegal_iff id 32767 (by decide) (by decide) 5).mpr
    ⟨by decide, (first_test_masked 32767).mpr (by decide), by decide⟩

theorem tags_collide : ¬ TagsLegal (initTagBits id (Int32.ofNat 32767)) 32767 16384 ∧
    ¬ TagsLegal (initTagBits id (Int32.ofNat (2 ^ 31 - 1))) (2 ^ 31 - 1) 0 := by
  constructor
  · intro h
    have hfits : Fits (initTagBits id (Int32.ofNat 32767)).maxTagBit.toInt.toNat default 0 := by
      constructor <;> decide
    exact h.apart default 0 0 hfits (by decide)
  · intro h
    have hbit := h.maxTagBit
    have hover := initTagBits_overflow id
    rw [hbit] at hover
    exact absurd hover (by decide)

end CDRuntime.MsgTags
