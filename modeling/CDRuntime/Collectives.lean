import Mathlib.Data.Fintype.Lattice
import Mathlib.Data.Nat.Notation
import Mathlib.Tactic.ByContra

namespace CDRuntime.Collectives

variable {ι : Type*} {left left' : ι → ℕ} {inside inside' : ι → Prop} {i j : ι}

/-- Processes that go through the same collective operations and leave one only after all have
entered it: `left i` are behind process `i`, and `inside i` says that it has entered the next one.
-/
structure Meeting (left : ι → ℕ) (inside : ι → Prop) : Prop where
  ahead : ∀ i j, left j < left i → left i = left j + 1 ∧ inside j

/-- All processes have entered the operation that `k` others precede. -/
def Entered (left : ι → ℕ) (inside : ι → Prop) (k : ℕ) : Prop :=
  ∀ j, k < left j ∨ left j = k ∧ inside j

theorem Meeting.start (h : ∀ i, left i = 0) : Meeting left inside := by
  constructor
  intro i j hlt
  rw [h i] at hlt
  exact (Nat.not_lt_zero _ hlt).elim

theorem Meeting.le_of_outside (h : Meeting left inside) (hi : ¬ inside i) (j : ι) :
    left j ≤ left i := by
  by_contra hlt
  exact hi (h.ahead j i (Nat.lt_of_not_le hlt)).2

theorem Meeting.le_succ (h : Meeting left inside) (i j : ι) : left i ≤ left j + 1 := by
  rcases Nat.lt_or_ge (left j) (left i) with hlt | hle
  · exact Nat.le_of_eq (h.ahead i j hlt).1
  · exact Nat.le_succ_of_le hle

/-- A process outside the operations works, and may enter one. -/
theorem Meeting.work (h : Meeting left inside) (hi : ¬ inside i) (hleft : ∀ j, left' j = left j)
    (hinside : ∀ j, j ≠ i → inside j → inside' j) : Meeting left' inside' := by
  constructor
  intro a b hlt
  rw [hleft a, hleft b] at hlt ⊢
  obtain ⟨heq, hb⟩ := h.ahead a b hlt
  refine ⟨heq, hinside b ?_ hb⟩
  rintro rfl
  exact hi hb

/-- A process leaves an operation that all have entered. -/
theorem Meeting.leave (h : Meeting left inside) (hall : Entered left inside (left i))
    (hself : left' i = left i + 1) (hother : ∀ j, j ≠ i → left' j = left j)
    (hinside : ∀ j, j ≠ i → inside j → inside' j) : Meeting left' inside' := by
  constructor
  intro a b hlt
  by_cases ha : a = i
  · subst ha
    have hb : b ≠ a := by
      rintro rfl
      exact Nat.lt_irrefl _ hlt
    rw [hself, hother b hb] at hlt ⊢
    rcases hall b with hahead | ⟨heq, hin⟩
    · exact (Nat.not_lt_of_le (Nat.le_of_lt_succ hlt) hahead).elim
    · exact ⟨by rw [heq], hinside b hb hin⟩
  · rw [hother a ha] at hlt ⊢
    by_cases hb : b = i
    · subst hb
      rw [hself] at hlt
      exact (Nat.not_lt_of_le (h.le_succ a b) hlt).elim
    · rw [hother b hb] at hlt ⊢
      obtain ⟨heq, hin⟩ := h.ahead a b hlt
      exact ⟨heq, hinside b hb hin⟩

theorem Meeting.entered_of_behind (h : Meeting left inside) (hlt : left i < left j) :
    Entered left inside (left i) := by
  intro x
  have hle := h.le_succ j x
  rcases Nat.lt_or_ge (left i) (left x) with hahead | hbehind
  · exact Or.inl hahead
  · have heq : left x = left i := by omega
    exact Or.inr ⟨heq, (h.ahead j x (by omega)).2⟩

theorem exists_entered [Finite ι] [Nonempty ι] (hall : ∀ i, inside i) :
    ∃ i, Entered left inside (left i) := by
  obtain ⟨i, hi⟩ := Finite.exists_min left
  exact ⟨i, fun j => (Nat.lt_or_eq_of_le (hi j)).imp_right fun heq => ⟨heq.symm, hall j⟩⟩

theorem foldr_min_le_of_mem {z a : ℕ} {l : List ℕ} (h : a ∈ l) : l.foldr min z ≤ a := by
  induction l with
  | nil => cases h
  | cons b l ih =>
      rcases List.mem_cons.mp h with rfl | h
      · exact Nat.min_le_left _ _
      · exact Nat.le_trans (Nat.min_le_right _ _) (ih h)

theorem foldr_min_le_base (z : ℕ) (l : List ℕ) : l.foldr min z ≤ z := by
  induction l with
  | nil => exact Nat.le_refl _
  | cons b l ih => exact Nat.le_trans (Nat.min_le_right _ _) ih

theorem le_foldr_min {z a : ℕ} {l : List ℕ} (hz : a ≤ z) (h : ∀ b ∈ l, a ≤ b) :
    a ≤ l.foldr min z := by
  induction l with
  | nil => exact hz
  | cons b l ih =>
      refine Nat.le_min.mpr ⟨h b List.mem_cons_self, ih fun c hc => ?_⟩
      exact h c (List.mem_cons_of_mem _ hc)

theorem le_foldr_max_of_mem {a : ℕ} {l : List ℕ} (h : a ∈ l) : a ≤ l.foldr max 0 := by
  induction l with
  | nil => cases h
  | cons b l ih =>
      rcases List.mem_cons.mp h with rfl | h
      · exact Nat.le_max_left _ _
      · exact Nat.le_trans (ih h) (Nat.le_max_right _ _)

theorem foldr_max_le {m : ℕ} {l : List ℕ} (h : ∀ b ∈ l, b ≤ m) : l.foldr max 0 ≤ m := by
  induction l with
  | nil => exact Nat.zero_le _
  | cons b l ih =>
      refine Nat.max_le.mpr ⟨h b List.mem_cons_self, ih fun c hc => ?_⟩
      exact h c (List.mem_cons_of_mem _ hc)

end CDRuntime.Collectives
