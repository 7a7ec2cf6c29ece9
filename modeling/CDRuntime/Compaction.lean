import CDRuntime.Splice

namespace CDRuntime.Compaction
open Splice

variable {α : Type*} {p : α → Bool} {xs : List α}

/-- The elements of the kind from `start` up to `i`. -/
def seen (p : α → Bool) (xs : List α) (start i : ℕ) : List α :=
  ((xs.drop start).take (i - start)).filter p

theorem seen_start (p : α → Bool) (xs : List α) (start : ℕ) : seen p xs start start = [] := by
  rw [seen, Nat.sub_self, List.take_zero, List.filter_nil]

theorem seen_end (p : α → Bool) (xs : List α) (start : ℕ) :
    seen p xs start xs.length = (xs.drop start).filter p := by
  rw [seen, ← List.length_drop, List.take_length]

theorem seen_succ {start i : ℕ} {x : α} (hs : start ≤ i) (hx : xs[i]? = some x) :
    seen p xs start (i + 1) = seen p xs start i ++ if p x then [x] else [] := by
  have htake : (xs.drop start).take (i + 1 - start) = (xs.drop start).take (i - start) ++ [x] := by
    rw [show i + 1 - start = i - start + 1 by omega, List.take_add_one, List.getElem?_drop,
      show start + (i - start) = i by omega, hx, Option.toList_some]
  rw [seen, htake, List.filter_append, List.filter_singleton, seen]
  cases p x <;> rfl

/-- What the pass has done to a block when it looks at the element `i`. -/
structure Compacted (p : α → Bool) (xs : List α) (len start i dst : ℕ) (block : List α) :
    Prop where
  length : block.length = len
  front : block.take dst = xs.take start ++ seen p xs start i
  behind : dst ≤ i
  rest : ∀ j, i ≤ j → j < xs.length → block[j]? = xs[j]?

theorem compacted_start {block : List α} (hblock : block.take xs.length = xs) {start : ℕ}
    (hs : start ≤ xs.length) : Compacted p xs block.length start start start block := by
  refine ⟨rfl, ?_, Nat.le_refl _, ?_⟩
  · rw [seen_start, List.append_nil]
    conv_rhs => rw [← hblock]
    rw [List.take_take, Nat.min_eq_left hs]
  · intro j _ hj
    conv_rhs => rw [← hblock]
    rw [List.getElem?_take_of_lt hj]

namespace Compacted

variable {len start i dst : ℕ} {block : List α} {x : α}

theorem read (h : Compacted p xs len start i dst block) (hx : xs[i]? = some x) :
    block[i]? = some x :=
  (h.rest i (Nat.le_refl _) (List.getElem?_eq_some_iff.mp hx).1).trans hx

/-- The element is kept. -/
theorem keep (h : Compacted p xs len start i dst block) (hs : start ≤ i) (hx : xs[i]? = some x)
    (hp : p x = true) :
    dst < block.length ∧ Compacted p xs len start (i + 1) (dst + 1) (block.set dst x) := by
  have hi := (List.getElem?_eq_some_iff.mp (h.read hx)).1
  have hdst : dst < block.length := Nat.lt_of_le_of_lt h.behind hi
  refine ⟨hdst, ?_, ?_, Nat.succ_le_succ h.behind, ?_⟩
  · rw [List.length_set]
    exact h.length
  · have hend := take_splice_end (show dst + [x].length ≤ block.length from hdst)
    rw [splice_singleton _ hdst, h.front] at hend
    rw [seen_succ hs hx, if_pos hp, ← List.append_assoc]
    exact hend
  · -- the copy goes to a place that has been looked at
    intro j hj hjl
    have hne : dst ≠ j := Nat.ne_of_lt (Nat.lt_of_le_of_lt h.behind hj)
    rw [List.getElem?_set_ne hne]
    exact h.rest j (Nat.le_of_succ_le hj) hjl

/-- The element is passed over. -/
theorem skip (h : Compacted p xs len start i dst block) (hs : start ≤ i) (hx : xs[i]? = some x)
    (hp : ¬ p x = true) : Compacted p xs len start (i + 1) dst block := by
  refine ⟨h.length, ?_, Nat.le_succ_of_le h.behind, fun j hj => h.rest j (Nat.le_of_succ_le hj)⟩
  rw [seen_succ hs hx, if_neg hp, List.append_nil]
  exact h.front

theorem finish (h : Compacted p xs len start xs.length dst block) (hlen : xs.length ≤ len) :
    block.take dst = xs.take start ++ (xs.drop start).filter p ∧
      dst = (xs.take start ++ (xs.drop start).filter p).length := by
  have hfront := h.front
  rw [seen_end] at hfront
  refine ⟨hfront, ?_⟩
  rw [← hfront, List.length_take, h.length]
  exact (Nat.min_eq_left (Nat.le_trans h.behind hlen)).symm

end Compacted

end CDRuntime.Compaction
