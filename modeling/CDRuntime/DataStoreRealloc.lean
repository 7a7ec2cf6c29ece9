import CDRuntime.DataStoreGrowing
import Mathlib.Logic.Function.Iterate

namespace CDRuntime
open Cells

namespace DataStore

/-- One round of the growth of `size_` and `grow_unit_`. -/
def growStep (s : ℕ × ℕ) : ℕ × ℕ :=
  if twoGigabyte < s.1 then (s.1 + s.2, s.2 + s.2)
  else if 0x10000000 < s.1 then (s.1 * 2, s.1 * 2)
  else (s.1 * 4, s.1 * 4)

def grownSize (size growUnit n : ℕ) : ℕ := (growStep^[n] (size, growUnit)).1

def FirstCovering (need size growUnit size' : ℕ) : Prop :=
  ∃ n, grownSize size growUnit n = size' ∧ need ≤ size' ∧
    ∀ m < n, grownSize size growUnit m < need

/-- The growth ends: none is needed, or the size can still change. -/
def CanGrow (s : DataStore) (len : ℕ) : Prop :=
  len + s.bufUsed ≤ s.size ∨ s.size ≤ twoGigabyte ∨ 0 < s.growUnit

/-- After `Reallocate(len)` the buffered bytes are where they are looked for, whatever they are. -/
def KeepsBytes (s : DataStore) (len : ℕ) : Prop :=
  ∀ ptr : Cells UInt8, ∃ s' ptr', ({ s with ptr := some ptr }).reallocate len = some s' ∧
    s'.ptr = some ptr' ∧ len + s.bufUsed ≤ s'.size ∧ s'.head = s.head ∧ s'.tail = s.tail ∧
    (∀ i, s.head ≤ i → i < s.tail → ptr' (i % s'.size) = ptr (i % s.size)) ∧
    ∀ pos n, s.head ≤ pos → pos + n ≤ s.tail →
      s'.copyFromBuffer n pos = ({ s with ptr := some ptr }).copyFromBuffer n pos

/-- The buffered bytes lie in one turn of the ring, and a turn of the larger ring starts there
too. -/
def SameTurn (s : DataStore) (size' : ℕ) : Prop :=
  s.head / s.size = (s.tail - 1) / s.size ∧ size' ∣ s.head / s.size * s.size

theorem FirstCovering.unique {need size growUnit a b : ℕ} (ha : FirstCovering need size growUnit a)
    (hb : FirstCovering need size growUnit b) : a = b := by
  obtain ⟨n, rfl, hn, hbelow⟩ := ha
  obtain ⟨m, rfl, hm, hbelow'⟩ := hb
  rcases Nat.lt_trichotomy n m with h | rfl | h
  · exact absurd hn (Nat.not_le_of_lt (hbelow' n h))
  · rfl
  · exact absurd hm (Nat.not_le_of_lt (hbelow m h))

section CopyRing

variable {ptr new : Cells UInt8} {size head tail : ℕ}

end CopyRing

theorem copyFromBuffer_eq {s : DataStore} {ptr : Cells UInt8} (hptr : s.ptr = some ptr)
    (hpos : 0 < s.size) {n : ℕ} (hn : n ≤ s.size) (pos : ℕ) :
    s.copyFromBuffer n pos = some ((List.range n).map fun k => ptr ((pos + k) % s.size)) := by
  have hlt := Nat.mod_lt pos hpos
  by_cases hz : n = 0
  · rw [hz, copyFromBuffer, if_pos rfl]
    rfl
  · rw [copyFromBuffer, if_neg hz, if_neg (Nat.ne_of_gt hpos), hptr]
    simp only [Option.bind_eq_bind, Option.bind_some]
    split_ifs with hwrap
    · -- two pieces of the list
      obtain ⟨rest, hrest⟩ := Nat.exists_eq_add_of_le (Nat.le_of_lt hwrap)
      congr 1
      rw [hrest, Nat.add_sub_cancel_left, List.range_add, List.map_append, List.map_map]
      congr 1
      · apply List.map_congr_left
        intro k hk
        rw [add_mod_of_fits (by have := List.mem_range.mp hk; omega)]
      · apply List.map_congr_left
        intro k hk
        have hk := List.mem_range.mp hk
        simp only [Function.comp_apply]
        rw [add_mod_of_wraps (by omega) (by omega)]
        congr 1
        omega
    · congr 1
      apply List.map_congr_left
      intro k hk
      rw [add_mod_of_fits (by have := List.mem_range.mp hk; omega)]

section Reallocate

variable {s : DataStore} {len : ℕ}

end Reallocate

def chunkRing (head tail : ℕ) : DataStore :=
  { size := chunkAlignment, head, tail, growUnit := chunkAlignment, allocated := 1
    writtenLen := chunkAlignment, mode := {}, ftype := .posixFile, ptr := some fun _ => 0 }

end DataStore

end CDRuntime
