import Mathlib.Algebra.Group.Nat.Defs
import Mathlib.Data.List.Basic

namespace CDRuntime.Runs

variable {σ α : Type*} (step : σ → α → Option σ)

/-- The state after a run, when all its steps are enabled: `step s a = none` means that `a` is not.
-/
def run (s : σ) : List α → Option σ
  | [] => some s
  | a :: as => (step s a).bind fun s' => run s' as

/-- `P` holds in every state that the run reaches. -/
def Always (P : σ → Prop) (s : σ) : List α → Prop
  | [] => P s
  | a :: as => P s ∧ ∀ s', step s a = some s' → Always P s' as

/-- `G` holds of every step that the run takes. -/
def Guarded (G : σ → α → Prop) (s : σ) : List α → Prop
  | [] => True
  | a :: as => ∀ s', step s a = some s' → G s a ∧ Guarded G s' as

/-- `G` holds of every step that the run tries, enabled or not. -/
def Attempted (G : σ → α → Prop) (s : σ) : List α → Prop
  | [] => True
  | a :: as => G s a ∧ ∀ s', step s a = some s' → Attempted G s' as

def shown {β : Type*} (event : σ → α → Option β) (s : σ) : List α → List β
  | [] => []
  | a :: as => (step s a).elim [] fun s' => (event s a).toList ++ shown event s' as

variable {step}

theorem run_append (as bs : List α) :
    ∀ s, run step s (as ++ bs) = (run step s as).bind fun s' => run step s' bs := by
  induction as with
  | nil => intro s; rfl
  | cons a as ih =>
      intro s
      rw [List.cons_append, run, run]
      cases step s a with
      | none => rfl
      | some s' => rw [Option.bind_some, Option.bind_some, ih]

theorem run_concat (s : σ) (as : List α) (a : α) :
    run step s (as ++ [a]) = (run step s as).bind fun s' => step s' a := by
  rw [run_append]
  congr 1
  funext s'
  exact Option.bind_fun_some _

theorem Always.head {P : σ → Prop} {s : σ} {as : List α} (h : Always step P s as) : P s := by
  cases as with
  | nil => exact h
  | cons a as => exact h.1

/-- What every state of a run satisfies, its last state satisfies. -/
theorem Always.last {P : σ → Prop} (as : List α) :
    ∀ s s', Always step P s as → run step s as = some s' → P s' := by
  induction as with
  | nil =>
      intro s s' h hrun
      exact Option.some.inj hrun ▸ h
  | cons a as ih =>
      intro s s' h hrun
      obtain ⟨s₁, hstep, hrest⟩ := Option.bind_eq_some_iff.mp hrun
      exact ih s₁ s' (h.2 s₁ hstep) hrest

/-- The last step that a run tries. -/
theorem Attempted.last {G : σ → α → Prop} (as : List α) (a : α) :
    ∀ s s', Attempted step G s (as ++ [a]) → run step s as = some s' → G s' a := by
  induction as with
  | nil =>
      intro s s' h hrun
      exact Option.some.inj hrun ▸ h.1
  | cons b as ih =>
      intro s s' h hrun
      obtain ⟨s₁, hstep, hrest⟩ := Option.bind_eq_some_iff.mp hrun
      exact ih s₁ s' (h.2 s₁ hstep) hrest

theorem Guarded.of_append {G : σ → α → Prop} (as bs : List α) :
    ∀ s s', Guarded step G s (as ++ bs) → run step s as = some s' → Guarded step G s' bs := by
  induction as with
  | nil =>
      intro s s' h hrun
      exact Option.some.inj hrun ▸ h
  | cons a as ih =>
      intro s s' h hrun
      obtain ⟨s₁, hstep, hrest⟩ := Option.bind_eq_some_iff.mp hrun
      exact ih s₁ s' (h s₁ hstep).2 hrest

theorem Guarded.append_left {G : σ → α → Prop} (as bs : List α) :
    ∀ s, Guarded step G s (as ++ bs) → Guarded step G s as := by
  induction as with
  | nil => intro s _; trivial
  | cons a as ih => intro s h s' hs'; exact ⟨(h s' hs').1, ih s' (h s' hs').2⟩

/-- Whether a run is guarded can be decided by taking its steps. -/
instance decidableGuarded {G : σ → α → Prop} [∀ s a, Decidable (G s a)] :
    ∀ s as, Decidable (Guarded step G s as)
  | _, [] => isTrue trivial
  | s, a :: as =>
      match h : step s a with
      | none => isTrue fun s' hs' => by rw [h] at hs'; cases hs'
      | some s₁ =>
          have := decidableGuarded (G := G) s₁ as
          decidable_of_iff (G s a ∧ Guarded step G s₁ as) <| by
            constructor
            · intro hG s' hs'
              rw [h] at hs'
              exact Option.some.inj hs' ▸ hG
            · intro hG
              exact hG s₁ h

instance decidableAttempted {G : σ → α → Prop} [∀ s a, Decidable (G s a)] :
    ∀ s as, Decidable (Attempted step G s as)
  | _, [] => isTrue trivial
  | s, a :: as =>
      match h : step s a with
      | none =>
          decidable_of_iff (G s a) <| by
            constructor
            · intro hG
              exact ⟨hG, fun s' hs' => by rw [h] at hs'; cases hs'⟩
            · intro hG
              exact hG.1
      | some s₁ =>
          have := decidableAttempted (G := G) s₁ as
          decidable_of_iff (G s a ∧ Attempted step G s₁ as) <| by
            constructor
            · rintro ⟨hG, hrest⟩
              refine ⟨hG, fun s' hs' => ?_⟩
              rw [h] at hs'
              exact Option.some.inj hs' ▸ hrest
            · rintro ⟨hG, hrest⟩
              exact ⟨hG, hrest s₁ h⟩

instance decidableAlways {P : σ → Prop} [∀ s, Decidable (P s)] :
    ∀ s as, Decidable (Always step P s as)
  | s, [] => inferInstanceAs (Decidable (P s))
  | s, a :: as =>
      match h : step s a with
      | none =>
          decidable_of_iff (P s) <| by
            constructor
            · intro hP
              exact ⟨hP, fun s' hs' => by rw [h] at hs'; cases hs'⟩
            · intro hP
              exact hP.1
      | some s₁ =>
          have := decidableAlways (P := P) s₁ as
          decidable_of_iff (P s ∧ Always step P s₁ as) <| by
            constructor
            · rintro ⟨hP, hrest⟩
              refine ⟨hP, fun s' hs' => ?_⟩
              rw [h] at hs'
              exact Option.some.inj hs' ▸ hrest
            · rintro ⟨hP, hrest⟩
              exact ⟨hP, hrest s₁ h⟩

/-- The invariant rule: an invariant that guarded steps keep holds along guarded runs. -/
theorem always_of_guarded {I : σ → Prop} {G : σ → α → Prop}
    (hstep : ∀ s a s', I s → G s a → step s a = some s' → I s') (as : List α) :
    ∀ s, I s → Guarded step G s as → Always step I s as := by
  induction as with
  | nil => intro s hI _; exact hI
  | cons a as ih =>
      intro s hI hG
      refine ⟨hI, fun s' hs' => ?_⟩
      obtain ⟨hg, hrest⟩ := hG s' hs'
      exact ih s' (hstep s a s' hI hg hs') hrest

theorem guarded_of_guarded {I : σ → Prop} {G H : σ → α → Prop}
    (hstep : ∀ s a s', I s → G s a → step s a = some s' → I s' ∧ H s a) (as : List α) :
    ∀ s, I s → Guarded step G s as → Guarded step H s as := by
  induction as with
  | nil => intro s _ _; trivial
  | cons a as ih =>
      intro s hI hG s' hs'
      obtain ⟨hg, hrest⟩ := hG s' hs'
      obtain ⟨hI', hH⟩ := hstep s a s' hI hg hs'
      exact ⟨hH, ih s' hI' hrest⟩

theorem Always.mono {P Q : σ → Prop} (hPQ : ∀ s, P s → Q s) (as : List α) :
    ∀ s, Always step P s as → Always step Q s as := by
  induction as with
  | nil => intro s h; exact hPQ s h
  | cons a as ih => intro s h; exact ⟨hPQ s h.1, fun s' hs' => ih s' (h.2 s' hs')⟩

theorem run_shown {τ β : Type*} {spec : τ → β → Option τ} {abs : σ → τ} {event : σ → α → Option β}
    (as : List α) : ∀ s s', Guarded step (fun s a => ∀ s', step s a = some s' →
      run spec (abs s) (event s a).toList = some (abs s')) s as → run step s as = some s' →
        run spec (abs s) (shown step event s as) = some (abs s') := by
  induction as with
  | nil =>
      intro s s' _ hrun
      exact congrArg (some ∘ abs) (Option.some.inj hrun)
  | cons a as ih =>
      intro s s' h hrun
      obtain ⟨s₁, hstep, hrest⟩ := Option.bind_eq_some_iff.mp hrun
      obtain ⟨hone, hmore⟩ := h s₁ hstep
      rw [shown, hstep, Option.elim_some, run_append, hone s₁ hstep, Option.bind_some]
      exact ih s₁ s' hmore hrest

theorem guarded_true (as : List α) : ∀ s, Guarded step (fun _ _ => True) s as := by
  induction as with
  | nil => intro s; trivial
  | cons a as ih => intro s s' _; exact ⟨trivial, ih s'⟩

theorem always_of_step {I : σ → Prop} (hstep : ∀ s a s', I s → step s a = some s' → I s')
    (as : List α) (s : σ) (h : I s) : Always step I s as :=
  always_of_guarded (fun s a s' hI (_ : True) hs => hstep s a s' hI hs) as s h (guarded_true as s)

theorem always_congr {I P Q : σ → Prop} (hPQ : ∀ s, I s → (P s ↔ Q s)) (as : List α) :
    ∀ s, Always step I s as → (Always step P s as ↔ Always step Q s as) := by
  induction as with
  | nil => intro s h; exact hPQ s h
  | cons a as ih =>
      intro s h
      apply and_congr (hPQ s h.1)
      apply forall_congr'
      intro s'
      constructor
      · intro hP hs'
        exact (ih s' (h.2 s' hs')).mp (hP hs')
      · intro hQ hs'
        exact (ih s' (h.2 s' hs')).mpr (hQ hs')

theorem always_iff_guarded {I P : σ → Prop} {G : σ → α → Prop} (hI : ∀ s, I s → P s)
    (hstep : ∀ s a s', I s → G s a → step s a = some s' → I s')
    (hbad : ∀ s a s', I s → ¬ G s a → step s a = some s' → ¬ P s') (as : List α) :
    ∀ s, I s → (Always step P s as ↔ Guarded step G s as) := by
  induction as with
  | nil =>
      intro s h
      exact iff_of_true (hI s h) trivial
  | cons a as ih =>
      intro s h
      constructor
      · intro hP s' hs'
        have hg : G s a := by
          by_contra hng
          exact hbad s a s' h hng hs' (hP.2 s' hs').head
        exact ⟨hg, (ih s' (hstep s a s' h hg hs')).mp (hP.2 s' hs')⟩
      · intro hG
        refine ⟨hI s h, fun s' hs' => ?_⟩
        obtain ⟨hg, hrest⟩ := hG s' hs'
        exact (ih s' (hstep s a s' h hg hs')).mpr hrest

theorem attempted_invariant {I : σ → Prop} {G H : σ → α → Prop}
    (hstep : ∀ s a, I s → G s a → ∃ s', step s a = some s' ∧ I s' ∧ H s a) (as : List α) :
    ∀ s, I s → Attempted step G s as → Always step I s as ∧ Attempted step H s as := by
  induction as with
  | nil => intro s h _; exact ⟨h, trivial⟩
  | cons a as ih =>
      intro s h hG
      obtain ⟨s', hs', hI', hH⟩ := hstep s a h hG.1
      obtain ⟨halways, hrest⟩ := ih s' hI' (hG.2 s' hs')
      have hone : ∀ s₁, step s a = some s₁ → s₁ = s' := fun s₁ hs₁ =>
        Option.some.inj (hs₁.symm.trans hs')
      exact ⟨⟨h, fun s₁ hs₁ => hone s₁ hs₁ ▸ halways⟩, hH, fun s₁ hs₁ => hone s₁ hs₁ ▸ hrest⟩

end CDRuntime.Runs
