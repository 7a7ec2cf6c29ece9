import CDRuntime.DataStore

namespace CDRuntime
open Cells

namespace DataStore

theorem growTo_spec (need fuel : ℕ) :
    ∀ size growUnit, 0 < size → 0 < growUnit → need ≤ size + fuel →
      ∃ size' growUnit', growTo need (fuel + 1) size growUnit = some (size', growUnit') ∧
        need ≤ size' ∧ size ≤ size' ∧ 0 < growUnit' := by
  induction fuel with
  | zero =>
      intro size growUnit hsize hunit hneed
      rw [Nat.add_zero] at hneed
      exact ⟨size, growUnit, by rw [growTo, if_pos hneed], hneed, Nat.le_refl _, hunit⟩
  | succ fuel ih =>
      intro size growUnit hsize hunit hneed
      rw [growTo]
      split_ifs with hfit hlinear hdouble
      · exact ⟨size, growUnit, rfl, hfit, Nat.le_refl _, hunit⟩
      · obtain ⟨s', g', heq, hcov, hle, hpos⟩ :=
          ih (size + growUnit) (growUnit + growUnit) (by omega) (by omega) (by omega)
        exact ⟨s', g', heq, hcov, by omega, hpos⟩
      · obtain ⟨s', g', heq, hcov, hle, hpos⟩ :=
          ih (size * 2) (size * 2) (by omega) (by omega) (by omega)
        exact ⟨s', g', heq, hcov, by omega, hpos⟩
      · obtain ⟨s', g', heq, hcov, hle, hpos⟩ :=
          ih (size * 4) (size * 4) (by omega) (by omega) (by omega)
        exact ⟨s', g', heq, hcov, by omega, hpos⟩

/-- A buffer that has never been flushed and holds `bytes` from its start on. -/
structure Holds (s : DataStore) (bytes : List UInt8) : Prop where
  alloc : ∃ ptr, s.ptr = some ptr ∧ ∀ i x, bytes[i]? = some x → ptr i = x
  size : 0 < s.size
  unit : 0 < s.growUnit
  head : s.head = 0
  tail : s.tail = bytes.length
  fits : s.tail ≤ s.size

theorem copyRing_keeps {ptr new : Cells UInt8} {size tail i : ℕ} (hfits : tail ≤ size)
    (hi : i < tail) : copyRing ptr new size 0 tail i = ptr i := by
  have hcell : copyIn new 0 (readOut ptr 0 tail) (0 + i) = ptr (0 + i) :=
    copyIn_at _ (readOut_getElem? ptr hi)
  rw [Nat.zero_add] at hcell
  have hpos : 0 < tail := by omega
  by_cases hwrap : tail % size ≤ 0 % size
  · -- the tail has wrapped to zero: the buffer is full and the second piece is empty
    have hfull : tail = size := by
      by_contra hne
      rw [Nat.mod_eq_of_lt (by omega), Nat.zero_mod] at hwrap
      omega
    have hnil : copyIn (copyIn new 0 (readOut ptr 0 size)) 0 (readOut ptr 0 (tail - size)) i =
        copyIn new 0 (readOut ptr 0 size) i := by
      apply copyIn_after
      rw [readOut_length]
      omega
    rw [copyRing, if_pos hpos, if_pos hwrap]
    simp only [Nat.zero_mod, Nat.sub_zero]
    rw [hnil, ← hfull, hcell]
  · rw [copyRing, if_pos hpos, if_neg hwrap]
    simp only [Nat.zero_mod, Nat.sub_zero]
    exact hcell

theorem reallocate_holds {s : DataStore} {bytes : List UInt8} (h : Holds s bytes) (len : ℕ) :
    ∃ s', s.reallocate len = some s' ∧ Holds s' bytes ∧ bytes.length + len ≤ s'.size ∧
      s'.writtenLen = s.writtenLen ∧ s'.ftype = s.ftype ∧ s'.mode = s.mode := by
  obtain ⟨ptr, hptr, hcells⟩ := h.alloc
  have hused : s.bufUsed = bytes.length := by rw [bufUsed, h.head, h.tail, Nat.sub_zero]
  obtain ⟨size', unit', hgrow, hcov, hle, hunit⟩ :=
    growTo_spec (len + s.bufUsed) (len + s.bufUsed) s.size s.growUnit h.size h.unit (by omega)
  have hre : s.reallocate len = some { s with
      size := size', growUnit := unit'
      ptr := some (copyRing ptr (fun _ => 0) s.size s.head s.tail)
      allocated := s.allocated + 1 } := by
    simp only [reallocate, hgrow, hptr, Option.bind_eq_bind, Option.bind_some]
  refine ⟨_, hre, ⟨⟨_, rfl, ?_⟩, ?_, hunit, h.head, h.tail, ?_⟩, ?_, rfl, rfl, rfl⟩
  · intro i x hx
    have hi : i < s.tail := by
      rw [h.tail]
      exact (List.getElem?_eq_some_iff.mp hx).1
    rw [h.head, copyRing_keeps h.fits hi, hcells i x hx]
  · exact Nat.lt_of_lt_of_le h.size hle
  · exact Nat.le_trans h.fits hle
  · show bytes.length + len ≤ size'
    omega

theorem writeMem_holds {s : DataStore} {bytes xs : List UInt8} (h : Holds s bytes)
    (hroom : bytes.length + xs.length ≤ s.size) :
    ∃ s', s.writeMem xs = some (bytes.length + s.writtenLen, s') ∧ Holds s' (bytes ++ xs) ∧
      s'.writtenLen = s.writtenLen ∧ s'.ftype = s.ftype ∧ s'.mode = s.mode := by
  obtain ⟨ptr, hptr, hcells⟩ := h.alloc
  have hsize0 : ¬ s.size = 0 := Nat.ne_of_gt h.size
  have hret : s.used = bytes.length + s.writtenLen := by rw [used, h.tail]
  by_cases hnil : xs = []
  · subst hnil
    refine ⟨s, ?_, by rwa [List.append_nil], rfl, rfl, rfl⟩
    rw [writeMem, copyToBuffer, if_pos rfl, hret]
    rfl
  · have hpos : 0 < xs.length := List.length_pos_iff.mpr hnil
    have hoff : s.tail % s.size = bytes.length := by
      rw [h.tail, Nat.mod_eq_of_lt (by omega)]
    have hcopy : s.copyToBuffer xs = some { s with ptr := some (copyIn ptr bytes.length xs) } := by
      rw [copyToBuffer, if_neg hnil, if_neg hsize0, hptr]
      simp only [Option.bind_eq_bind, Option.bind_some, hoff]
      rw [if_neg (by omega)]
    refine ⟨{ s with ptr := some (copyIn ptr bytes.length xs), tail := s.tail + xs.length },
      ?_, ⟨⟨_, rfl, ?_⟩, h.size, h.unit, h.head, ?_, ?_⟩, rfl, rfl, rfl⟩
    · rw [writeMem, hcopy, hret]
      rfl
    · intro i x hx
      rw [List.getElem?_append] at hx
      split_ifs at hx with hi
      · rw [copyIn_before _ _ hi, hcells i x hx]
      · obtain ⟨j, rfl⟩ := Nat.exists_eq_add_of_le (Nat.le_of_not_lt hi)
        rw [Nat.add_sub_cancel_left] at hx
        exact copyIn_at _ hx
    · simp only [List.length_append, h.tail]
    · show s.tail + xs.length ≤ s.size
      rw [h.tail]
      exact hroom

theorem writeCacheMode_holds {s : DataStore} {bytes xs : List UInt8} (h : Holds s bytes) :
    ∃ s', s.writeCacheMode xs = some (bytes.length + s.writtenLen, s') ∧ Holds s' (bytes ++ xs) ∧
      s'.writtenLen = s.writtenLen ∧ s'.ftype = s.ftype ∧ s'.mode = s.mode := by
  have hused : s.bufUsed = bytes.length := by rw [bufUsed, h.head, h.tail, Nat.sub_zero]
  rw [writeCacheMode, hused]
  by_cases hgrow : s.size < xs.length + bytes.length
  · obtain ⟨s₁, hre, hholds, hroom, hwl, hft, hmode⟩ := reallocate_holds h xs.length
    obtain ⟨s₂, hwrite, hholds₂, hwl₂, hft₂, hmode₂⟩ := writeMem_holds hholds hroom
    refine ⟨s₂, ?_, hholds₂, hwl₂.trans hwl, hft₂.trans hft, hmode₂.trans hmode⟩
    rw [if_pos hgrow, hre, ← hwl]
    exact hwrite
  · rw [if_neg hgrow]
    exact writeMem_holds h (by omega)

theorem copyFromBuffer_holds {s : DataStore} {pre xs post : List UInt8}
    (h : Holds s (pre ++ (xs ++ post))) (hpos : 0 < xs.length) :
    s.copyFromBuffer xs.length pre.length = some xs := by
  obtain ⟨ptr, hptr, hcells⟩ := h.alloc
  have hlen : pre.length + xs.length ≤ s.size := by
    have := h.fits
    rw [h.tail, List.length_append, List.length_append] at this
    omega
  have hoff : pre.length % s.size = pre.length := Nat.mod_eq_of_lt (by omega)
  have hread : readOut ptr pre.length xs.length = xs := by
    apply readOut_eq
    intro i x hx
    apply hcells
    have hi : i < xs.length := (List.getElem?_eq_some_iff.mp hx).1
    rw [List.getElem?_append_right (by omega), Nat.add_sub_cancel_left,
      List.getElem?_append_left hi, hx]
  rw [copyFromBuffer, if_neg (by omega), if_neg (by omega), hptr]
  simp only [Option.bind_eq_bind, Option.bind_some, hoff]
  rw [if_neg (by omega), hread]

end DataStore

end CDRuntime
