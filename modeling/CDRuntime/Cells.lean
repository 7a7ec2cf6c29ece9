import Mathlib.Algebra.Group.Nat.Defs
import Mathlib.Data.List.Basic

namespace CDRuntime

/-- A buffer or a file whose cells are read and written by position. -/
abbrev Cells (α : Type*) := ℕ → α

namespace Cells

variable {α : Type*}

def copyIn (m : Cells α) (pos : ℕ) (xs : List α) : Cells α :=
  fun i => if pos ≤ i then (xs[i - pos]?).getD (m i) else m i

def readOut (m : Cells α) (pos n : ℕ) : List α := (List.range n).map fun i => m (pos + i)

theorem copyIn_at (m : Cells α) {pos i : ℕ} {xs : List α} {x : α} (h : xs[i]? = some x) :
    copyIn m pos xs (pos + i) = x := by
  rw [copyIn, if_pos (Nat.le_add_right _ _), Nat.add_sub_cancel_left, h, Option.getD_some]

theorem copyIn_before (m : Cells α) {pos i : ℕ} (xs : List α) (h : i < pos) :
    copyIn m pos xs i = m i := by
  rw [copyIn, if_neg (by omega)]

theorem copyIn_after (m : Cells α) {pos i : ℕ} {xs : List α} (h : pos + xs.length ≤ i) :
    copyIn m pos xs i = m i := by
  rw [copyIn, if_pos (by omega), List.getElem?_eq_none (by omega), Option.getD_none]

/-- A copy changes nothing outside its range. -/
theorem copyIn_off (m : Cells α) {pos i : ℕ} {xs : List α}
    (h : ¬ (pos ≤ i ∧ i < pos + xs.length)) : copyIn m pos xs i = m i := by
  rcases Nat.lt_or_ge i pos with hlt | hge
  · exact copyIn_before m xs hlt
  · exact copyIn_after m (Nat.le_of_not_lt fun hlt => h ⟨hge, hlt⟩)

theorem readOut_length (m : Cells α) (pos n : ℕ) : (readOut m pos n).length = n := by
  rw [readOut, List.length_map, List.length_range]

theorem readOut_getElem? (m : Cells α) {pos n i : ℕ} (h : i < n) :
    (readOut m pos n)[i]? = some (m (pos + i)) := by
  rw [readOut, List.getElem?_map, List.getElem?_range h, Option.map_some]

theorem copyIn_readOut (m m' : Cells α) (pos cell n i : ℕ) :
    copyIn m pos (readOut m' cell n) i =
      if pos ≤ i ∧ i < pos + n then m' (cell + (i - pos)) else m i := by
  split_ifs with hin
  · obtain ⟨k, rfl⟩ := Nat.exists_eq_add_of_le hin.1
    rw [copyIn_at m (readOut_getElem? m' (by omega)), Nat.add_sub_cancel_left]
  · apply copyIn_off
    rw [readOut_length]
    exact hin

theorem readOut_congr {m m' : Cells α} {pos pos' n : ℕ}
    (h : ∀ i < n, m (pos + i) = m' (pos' + i)) : readOut m pos n = readOut m' pos' n := by
  rw [readOut, readOut]
  apply List.map_congr_left
  intro i hi
  exact h i (List.mem_range.mp hi)

theorem readOut_eq {m : Cells α} {pos : ℕ} {xs : List α}
    (h : ∀ i x, xs[i]? = some x → m (pos + i) = x) : readOut m pos xs.length = xs := by
  apply List.ext_getElem?
  intro i
  by_cases hi : i < xs.length
  · rw [readOut_getElem? m hi, List.getElem?_eq_getElem hi, h i _ (List.getElem?_eq_getElem hi)]
  · rw [List.getElem?_eq_none (by rw [readOut_length]; omega), List.getElem?_eq_none (by omega)]

end Cells

theorem mod_ne_of_lt {a b n : ℕ} (hab : a < b) (hn : b < a + n) : a % n ≠ b % n := by
  intro h
  have hdvd : n ∣ b - a := Nat.dvd_of_mod_eq_zero (Nat.sub_mod_eq_zero_of_mod_eq h.symm)
  have := Nat.le_of_dvd (by omega) hdvd
  omega

/-- No wrap between a position and one that stays inside the same turn. -/
theorem add_mod_of_fits {a j n : ℕ} (h : a % n + j < n) : (a + j) % n = a % n + j := by
  rw [Nat.add_mod, Nat.mod_eq_of_lt (by omega : j < n), Nat.mod_eq_of_lt h]

/-- The position after one wrap. -/
theorem add_mod_of_wraps {a j n : ℕ} (h : n ≤ a % n + j) (hj : a % n + j < n + n) :
    (a + j) % n = a % n + j - n := by
  have hlt : a % n < n := Nat.mod_lt _ (by omega)
  rw [← Nat.mod_add_mod, Nat.mod_eq_sub_mod h, Nat.mod_eq_of_lt (by omega)]

end CDRuntime
