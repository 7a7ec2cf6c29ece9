import Mathlib.Algebra.Group.Nat.Defs
import Mathlib.Data.List.Basic

namespace CDRuntime.Splice

variable {α : Type*}

/-- Cells `[pos, pos + n)`. -/
def slice (b : List α) (pos n : ℕ) : List α := (b.drop pos).take n

/-- The block after `xs` has been copied over the cells from `pos` on. -/
def splice (b : List α) (pos : ℕ) (xs : List α) : List α :=
  b.take pos ++ (xs ++ b.drop (pos + xs.length))

/-- `memcpy` out of a block, which is the list of its cells; undefined outside of it. -/
def load (b : List α) (pos n : ℕ) : Option (List α) :=
  if pos + n ≤ b.length then some (slice b pos n) else none

/-- `memcpy` into a block. -/
def store (b : List α) (pos : ℕ) (xs : List α) : Option (List α) :=
  if pos + xs.length ≤ b.length then some (splice b pos xs) else none

theorem load_of_le {b : List α} {pos n : ℕ} (h : pos + n ≤ b.length) :
    load b pos n = some (slice b pos n) := if_pos h

theorem store_of_le {b xs : List α} {pos : ℕ} (h : pos + xs.length ≤ b.length) :
    store b pos xs = some (splice b pos xs) := if_pos h

theorem le_of_load {b xs : List α} {pos n : ℕ} (h : load b pos n = some xs) :
    pos + n ≤ b.length := by
  by_contra hlt
  rw [load, if_neg hlt] at h
  cases h

theorem slice_length {b : List α} {pos n : ℕ} (h : pos + n ≤ b.length) :
    (slice b pos n).length = n := by
  simp only [slice, List.length_take, List.length_drop]
  omega

theorem splice_length {b xs : List α} {pos : ℕ} (h : pos + xs.length ≤ b.length) :
    (splice b pos xs).length = b.length := by
  simp only [splice, List.length_append, List.length_take, List.length_drop]
  omega

theorem slice_zero (b : List α) (n : ℕ) : slice b 0 n = b.take n := rfl

theorem slice_take {b : List α} {pos n m : ℕ} (h : pos + n ≤ m) :
    slice (b.take m) pos n = slice b pos n := by
  simp only [slice, List.drop_take, List.take_take]
  congr 1
  omega

theorem slice_append_left {b c : List α} {pos n : ℕ} (h : pos + n ≤ b.length) :
    slice (b ++ c) pos n = slice b pos n := by
  simp only [slice]
  rw [List.drop_append_of_le_length (by omega), List.take_append_of_le_length]
  rw [List.length_drop]
  omega

theorem slice_append_right {b c : List α} {n : ℕ} :
    slice (b ++ c) b.length n = c.take n := by
  simp only [slice, List.drop_left]

theorem splice_nil (b : List α) (pos : ℕ) : splice b pos [] = b := by
  simp [splice]

theorem slice_splice_same {b xs : List α} {pos : ℕ} (h : pos + xs.length ≤ b.length) :
    slice (splice b pos xs) pos xs.length = xs := by
  have hp : (b.take pos).length = pos := by rw [List.length_take]; omega
  rw [slice, splice, List.drop_append, hp, Nat.sub_self, List.drop_eq_nil_of_le (by omega)]
  exact List.take_left

theorem slice_splice_before {b xs : List α} {pos p n : ℕ}
    (h : pos + xs.length ≤ b.length) (hp : p + n ≤ pos) :
    slice (splice b pos xs) p n = slice b p n := by
  have hl : p + n ≤ (b.take pos).length := by rw [List.length_take]; omega
  rw [splice, slice_append_left hl]
  simp only [slice, List.drop_take, List.take_take]
  congr 1
  omega

theorem slice_splice_after {b xs : List α} {pos p n : ℕ}
    (h : pos + xs.length ≤ b.length) (hp : pos + xs.length ≤ p) :
    slice (splice b pos xs) p n = slice b p n := by
  have ht : (b.take pos).length = pos := by rw [List.length_take]; omega
  obtain ⟨k, rfl⟩ := Nat.exists_eq_add_of_le hp
  simp only [slice, splice]
  congr 1
  rw [List.drop_append, ht, List.drop_eq_nil_of_le (by rw [ht]; omega), List.nil_append,
    List.drop_append, List.drop_eq_nil_of_le (by omega), List.nil_append, List.drop_drop]
  congr 1
  omega

/-- Appending at the end of the used prefix extends the prefix. -/
theorem take_splice_end {b xs : List α} {pos : ℕ} (h : pos + xs.length ≤ b.length) :
    (splice b pos xs).take (pos + xs.length) = b.take pos ++ xs := by
  have ht : (b.take pos).length = pos := by rw [List.length_take]; omega
  rw [splice, List.take_append, ht, List.take_of_length_le (by rw [ht]; omega)]
  congr 1
  rw [Nat.add_sub_cancel_left]
  exact List.take_left

theorem splice_zero {b c : List α} : splice c 0 b = b ++ c.drop b.length := by
  simp [splice]

theorem splice_singleton {b : List α} {pos : ℕ} (x : α) (h : pos < b.length) :
    splice b pos [x] = b.set pos x := by
  rw [List.set_eq_take_append_cons_drop, if_pos h, splice]
  simp

theorem splice_append_mid {a b c xs : List α} {k : ℕ} (h : k + xs.length ≤ b.length) :
    splice (a ++ (b ++ c)) (a.length + k) xs = a ++ (splice b k xs ++ c) := by
  simp only [splice, List.append_assoc]
  rw [List.take_append, List.drop_append, Nat.add_sub_cancel_left,
    List.take_of_length_le (by omega), List.drop_eq_nil_of_le (by omega), List.nil_append,
    List.take_append_of_le_length (by omega), List.append_assoc,
    show a.length + k + xs.length - a.length = k + xs.length by omega,
    List.drop_append_of_le_length h]

theorem take_splice {b xs : List α} {pos n : ℕ} (hn : pos + xs.length ≤ n)
    (hb : n ≤ b.length) : (splice b pos xs).take n = splice (b.take n) pos xs := by
  have hfit : pos + xs.length ≤ (b.take n).length := by
    rw [List.length_take]
    omega
  have h := splice_append_mid (a := []) (c := b.drop n) hfit
  rw [List.nil_append, List.take_append_drop, List.length_nil, Nat.zero_add, List.nil_append] at h
  have hlen : (splice (b.take n) pos xs).length = n := by
    rw [splice_length hfit, List.length_take]
    omega
  rw [h, List.take_left' hlen]

end CDRuntime.Splice
