import Mathlib.Algebra.Group.Nat.Defs

namespace CDRuntime.Loop32

variable {σ : Type*}

/-- At most `fuel` rounds from the index `i` on; `.done` is a `break`. -/
def rounds (n : ℕ) (body : ℕ → σ → Option (ForInStep σ)) : ℕ → ℕ → σ → Option σ
  | 0, _, _ => none
  | fuel + 1, i, s =>
      if i < n then do
        match ← body i s with
        | .done s => some s
        | .yield s => rounds n body fuel ((i + 1) % 2 ^ 32) s
      else some s

/-- A loop that has not ended after `2 ^ 32 + 1` rounds has seen every index below `n`. When its
body does not break, or is a search that leaves the state alone, it never ends. -/
def loop (start n : ℕ) (body : ℕ → σ → Option (ForInStep σ)) (s : σ) : Option σ :=
  rounds n body (2 ^ 32 + 1) (start % 2 ^ 32) s

variable {n : ℕ} {body : ℕ → σ → Option (ForInStep σ)}

theorem rounds_yield {fuel i : ℕ} {s s' : σ} (hi : i < n) (hb : body i s = some (.yield s')) :
    rounds n body (fuel + 1) i s = rounds n body fuel ((i + 1) % 2 ^ 32) s' := by
  rw [rounds, if_pos hi]
  simp only [hb, Option.bind_eq_bind, Option.bind_some]

theorem rounds_done {fuel i : ℕ} {s s' : σ} (hi : i < n) (hb : body i s = some (.done s')) :
    rounds n body (fuel + 1) i s = some s' := by
  rw [rounds, if_pos hi]
  simp only [hb, Option.bind_eq_bind, Option.bind_some]

theorem loop_past {start : ℕ} (hle : n ≤ start % 2 ^ 32) (s : σ) :
    loop start n body s = some s := by
  rw [loop, rounds, if_neg (Nat.not_lt.mpr hle)]

theorem rounds_invariant {I : ℕ → σ → Prop} {start : ℕ} (hn : n < 2 ^ 32)
    (hstep : ∀ i s, start ≤ i → i < n → I i s → ∃ s', body i s = some (.yield s') ∧ I (i + 1) s')
    (fuel : ℕ) : ∀ i s, start ≤ i → i ≤ n → n < i + fuel → I i s →
      ∃ s', rounds n body fuel i s = some s' ∧ I n s' := by
  induction fuel with
  | zero =>
      intro i s _ hle hlt
      omega
  | succ fuel ih =>
      intro i s hstart hle hlt hI
      rcases Nat.eq_or_lt_of_le hle with rfl | hi
      · exact ⟨s, by rw [rounds, if_neg (Nat.lt_irrefl _)], hI⟩
      · obtain ⟨s', hb, hI'⟩ := hstep i s hstart hi hI
        rw [rounds_yield hi hb, Nat.mod_eq_of_lt (by omega)]
        exact ih (i + 1) s' (by omega) hi (by omega) hI'

/-- The rule for a loop without a `break` whose bound fits in 32 bits. -/
theorem loop_invariant {start : ℕ} {s : σ} (I : ℕ → σ → Prop) (hn : n < 2 ^ 32) (hle : start ≤ n)
    (h0 : I start s)
    (hstep : ∀ i s, start ≤ i → i < n → I i s → ∃ s', body i s = some (.yield s') ∧ I (i + 1) s') :
    ∃ s', loop start n body s = some s' ∧ I n s' := by
  rw [loop, Nat.mod_eq_of_lt (by omega)]
  exact rounds_invariant hn hstep _ start s (Nat.le_refl _) hle (by omega) h0

theorem rounds_found {s s' : σ} {k : ℕ} (hk : k < n) (hsmall : k < 2 ^ 32)
    (hdone : body k s = some (.done s')) (hskip : ∀ i, i < k → body i s = some (.yield s))
    (fuel : ℕ) : ∀ i, i ≤ k → k < i + fuel → rounds n body fuel i s = some s' := by
  induction fuel with
  | zero =>
      intro i hle hlt
      omega
  | succ fuel ih =>
      intro i hle hlt
      rcases Nat.eq_or_lt_of_le hle with rfl | hi
      · exact rounds_done hk hdone
      · rw [rounds_yield (by omega) (hskip i hi), Nat.mod_eq_of_lt (by omega)]
        exact ih (i + 1) hi (by omega)

theorem loop_found {s s' : σ} {k : ℕ} (hk : k < n) (hsmall : k < 2 ^ 32)
    (hdone : body k s = some (.done s')) (hskip : ∀ i, i < k → body i s = some (.yield s)) :
    loop 0 n body s = some s' :=
  rounds_found hk hsmall hdone hskip _ 0 (Nat.zero_le _) (by omega)

theorem rounds_endless (P : σ → Prop) (hn : 2 ^ 32 ≤ n)
    (hstep : ∀ i s r, i < 2 ^ 32 → P s → body i s = some r → ∃ s', r = .yield s' ∧ P s')
    (fuel : ℕ) : ∀ i s, i < 2 ^ 32 → P s → rounds n body fuel i s = none := by
  induction fuel with
  | zero => intro i s _ _; rfl
  | succ fuel ih =>
      intro i s hi hs
      cases hb : body i s with
      | none =>
          rw [rounds, if_pos (by omega)]
          simp only [hb, Option.bind_eq_bind, Option.bind_none]
      | some r =>
          obtain ⟨s', rfl, hs'⟩ := hstep i s r hi hs hb
          rw [rounds_yield (by omega) hb]
          exact ih _ s' (Nat.mod_lt _ (by decide)) hs'

theorem loop_endless {start : ℕ} {s : σ} (P : σ → Prop) (hn : 2 ^ 32 ≤ n) (hs : P s)
    (hstep : ∀ i s r, i < 2 ^ 32 → P s → body i s = some r → ∃ s', r = .yield s' ∧ P s') :
    loop start n body s = none :=
  rounds_endless P hn hstep _ _ s (Nat.mod_lt _ (by decide)) hs

end CDRuntime.Loop32
