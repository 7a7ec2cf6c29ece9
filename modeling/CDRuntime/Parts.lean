import Mathlib.Algebra.Group.Nat.Defs
import Mathlib.Data.Nat.Basic

namespace CDRuntime.Parts

variable {a b c d k m n : ℕ}

theorem parts_lt (ha : a < k) (hb : b < m) : m * a + b < m * k := by
  calc m * a + b < m * a + m := Nat.add_lt_add_left hb _
    _ = m * (a + 1) := (Nat.mul_succ m a).symm
    _ ≤ m * k := Nat.mul_le_mul_left m ha

theorem parts_injective (hb : b < m) (hd : d < m) (h : m * a + b = m * c + d) :
    a = c ∧ b = d := by
  have hm : 0 < m := Nat.zero_lt_of_lt hb
  obtain ⟨hdiv, hmod⟩ := (Nat.div_mod_unique hm).mpr ⟨Nat.add_comm b (m * a), hb⟩
  obtain ⟨hdiv', hmod'⟩ := (Nat.div_mod_unique hm).mpr ⟨Nat.add_comm d (m * c), hd⟩
  rw [h] at hdiv hmod
  exact ⟨hdiv.symm.trans hdiv', hmod.symm.trans hmod'⟩

theorem exists_parts (hm : 0 < m) (hn : n < m * k) : ∃ a b, a < k ∧ b < m ∧ n = m * a + b :=
  ⟨n / m, n % m, Nat.div_lt_of_lt_mul hn, Nat.mod_lt n hm, (Nat.div_add_mod n m).symm⟩

end CDRuntime.Parts
