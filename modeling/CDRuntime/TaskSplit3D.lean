import CDRuntime.Parts
import CDRuntime.TaskSplit
import Mathlib.Data.Finset.Card
import Mathlib.Data.Finset.Prod
import Mathlib.Data.Nat.Find

namespace CDRuntime.TaskSplit
open Parts

/-- Every child receives its part of the tasks, and every task of a child another rank. -/
structure SplitsEvenly (mySize numChildren : ℕ) (split : ℕ → Option (ℕ × ℕ)) : Prop where
  injective : ∀ t < mySize, ∀ u < mySize, split t = split u → t = u
  bounds : ∀ t < mySize, ∃ r, split t = some r ∧ r.1 < numChildren ∧ r.2 < mySize / numChildren
  count : ∀ c < numChildren, ((Finset.range mySize).filter fun t =>
    (split t).map Prod.fst = some c).card = mySize / numChildren

theorem SplitsEvenly.of_bounds {mySize numChildren : ℕ} {split : ℕ → Option (ℕ × ℕ)}
    (hdvd : numChildren ∣ mySize) (f : ℕ → ℕ × ℕ)
    (hsplit : ∀ t < mySize, split t = some (f t))
    (hinj : ∀ t < mySize, ∀ u < mySize, f t = f u → t = u)
    (hfst : ∀ t < mySize, (f t).1 < numChildren)
    (hsnd : ∀ t < mySize, (f t).2 < mySize / numChildren) :
    SplitsEvenly mySize numChildren split := by
  have hinjOn : Set.InjOn f (Finset.range mySize) := by
    intro t ht u hu
    exact hinj t (Finset.mem_range.mp ht) u (Finset.mem_range.mp hu)
  -- the pairs of a color and a rank are as many as the tasks, so each is taken
  have himage : (Finset.range mySize).image f =
      Finset.range numChildren ×ˢ Finset.range (mySize / numChildren) := by
    apply Finset.eq_of_subset_of_card_le
    · intro r hr
      obtain ⟨t, ht, rfl⟩ := Finset.mem_image.mp hr
      have ht := Finset.mem_range.mp ht
      exact Finset.mem_product.mpr
        ⟨Finset.mem_range.mpr (hfst t ht), Finset.mem_range.mpr (hsnd t ht)⟩
    · rw [Finset.card_image_of_injOn hinjOn, Finset.card_product, Finset.card_range,
        Finset.card_range, Finset.card_range, Nat.mul_div_cancel' hdvd]
  constructor
  · intro t ht u hu heq
    rw [hsplit t ht, hsplit u hu] at heq
    exact hinj t ht u hu (Option.some.inj heq)
  · intro t ht
    exact ⟨f t, hsplit t ht, hfst t ht, hsnd t ht⟩
  · intro c hc
    have hchild : ((Finset.range mySize).filter fun t => (split t).map Prod.fst = some c).image f =
        (Finset.range (mySize / numChildren)).image fun r => (c, r) := by
      ext r
      simp only [Finset.mem_image, Finset.mem_filter, Finset.mem_range]
      constructor
      · rintro ⟨t, ⟨ht, hcolor⟩, rfl⟩
        rw [hsplit t ht] at hcolor
        exact ⟨(f t).2, hsnd t ht, Prod.ext (Option.some.inj hcolor).symm rfl⟩
      · rintro ⟨r, hr, rfl⟩
        have hmem : (c, r) ∈ (Finset.range mySize).image f := by
          rw [himage]
          exact Finset.mem_product.mpr ⟨Finset.mem_range.mpr hc, Finset.mem_range.mpr hr⟩
        obtain ⟨t, ht, hft⟩ := Finset.mem_image.mp hmem
        have ht := Finset.mem_range.mp ht
        refine ⟨t, ⟨ht, ?_⟩, hft⟩
        rw [hsplit t ht, hft]
        rfl
    rw [← Finset.card_image_of_injOn (hinjOn.mono (Finset.filter_subset _ _)), hchild,
      Finset.card_image_of_injective _ (Prod.mk_right_injective c), Finset.card_range]

/-- `round(pow(n, 1/3.))`: the integer nearest to the cube root. -/
def roundCbrt (n : ℕ) : ℕ :=
  Nat.findGreatest (fun r => (2 * r - 1) ^ 3 ≤ 8 * n) (n + 1)

theorem roundCbrt_cube (n : ℕ) : roundCbrt (n ^ 3) = n := by
  rw [roundCbrt, Nat.findGreatest_eq_iff]
  refine ⟨?_, fun _ => ?_, ?_⟩
  · exact le_trans (Nat.le_self_pow (by decide) n) (Nat.le_succ _)
  · calc (2 * n - 1) ^ 3 ≤ (2 * n) ^ 3 := Nat.pow_le_pow_left (Nat.sub_le _ _) 3
      _ = 8 * n ^ 3 := by ring
  · intro r hr _
    rw [Nat.not_le]
    calc 8 * n ^ 3 = (2 * n) ^ 3 := by ring
      _ < (2 * r - 1) ^ 3 := Nat.pow_lt_pow_left (by omega) (by decide)

/-- `SplitCD_3D`; none when one of its assertions fails. -/
def splitCD3D (myTaskId mySize numChildren : ℕ) : Option (ℕ × ℕ) :=
  let newSize := mySize / numChildren
  let numX := roundCbrt mySize
  let numY := numX
  let numZ := numX
  if numChildren = 0 then none
  else
    let numChildrenX := if 1 < numChildren then roundCbrt numChildren else 1
    let numChildrenY := numChildrenX
    let numChildrenZ := numChildrenX
    let newNumX := numX / numChildrenX
    let newNumY := numY / numChildrenY
    let newNumZ := numZ / numChildrenZ
    if numX * numY * numZ = mySize ∧
        numChildrenX * numChildrenY * numChildrenZ = numChildren ∧
        newNumX * newNumY * newNumZ = newSize ∧
        numX ≠ 0 ∧ numY ≠ 0 ∧ numZ ≠ 0 ∧ newNumX ≠ 0 ∧ newNumY ≠ 0 ∧ newNumZ ≠ 0 ∧
        numChildrenX ≠ 0 ∧ numChildrenY ≠ 0 ∧ numChildrenZ ≠ 0 then
      let taskID := myTaskId
      let sz := numX * numY
      let z := taskID / sz
      let tmp := taskID % sz
      let y := tmp / numX
      let x := tmp % numX
      some
        (x / newNumX + (y / newNumY) * numChildrenX + (z / newNumZ) * (numChildrenX * numChildrenY),
          x % newNumX + (y % newNumY) * newNumX + (z % newNumZ) * (newNumX * newNumY))
    else none

/-- The position of a task in a cube of side `n`, axis by axis. -/
def cubeTask (n t : ℕ) : ℕ × ℕ × ℕ :=
  (t % (n * n) % n, t % (n * n) / n, t / (n * n))

/-- Three digits in base `b`, the last one without a bound. -/
def digits (b x y z : ℕ) : ℕ := x + y * b + z * (b * b)

theorem digits_eq (b x y z : ℕ) : digits b x y z = b * (b * z + y) + x := by
  rw [digits]
  ring

theorem digits_lt {b x y z c : ℕ} (hx : x < b) (hy : y < b) (hz : z < c) :
    digits b x y z < c * (b * b) := by
  have hlt := parts_lt (parts_lt hz hy) hx
  rwa [digits_eq, Nat.mul_comm c, Nat.mul_assoc]

theorem digits_injective {b x y z x' y' z' : ℕ} (hx : x < b) (hy : y < b) (hx' : x' < b)
    (hy' : y' < b) (h : digits b x y z = digits b x' y' z') : x = x' ∧ y = y' ∧ z = z' := by
  rw [digits_eq, digits_eq] at h
  obtain ⟨hhigh, hlow⟩ := parts_injective hx hx' h
  obtain ⟨htop, hmiddle⟩ := parts_injective hy hy' hhigh
  exact ⟨hlow, hmiddle, htop⟩

theorem digits_cubeTask (n t : ℕ) :
    digits n (cubeTask n t).1 (cubeTask n t).2.1 (cubeTask n t).2.2 = t := by
  have hplane := Nat.mod_add_div' (t % (n * n)) n
  have hspace := Nat.mod_add_div' t (n * n)
  show t % (n * n) % n + t % (n * n) / n * n + t / (n * n) * (n * n) = t
  rw [hplane, hspace]

/-- Color and rank of the task at a position, with `c` cubes of side `q` along each axis. -/
def cubePart (c q : ℕ) (p : ℕ × ℕ × ℕ) : ℕ × ℕ :=
  (digits c (p.1 / q) (p.2.1 / q) (p.2.2 / q), digits q (p.1 % q) (p.2.1 % q) (p.2.2 % q))

theorem splitCD3D_passes {mySize numChildren t₀ : ℕ}
    (h : (splitCD3D t₀ mySize numChildren).isSome) :
    ∃ n c, mySize = n * (n * n) ∧ numChildren = c * (c * c) ∧ 0 < n / c ∧
      ∀ t, splitCD3D t mySize numChildren = some (cubePart c (n / c) (cubeTask n t)) := by
  by_cases hzero : numChildren = 0
  · simp [splitCD3D, hzero] at h
  by_cases hpass : splitCD3D t₀ mySize numChildren = none
  · simp [hpass] at h
  simp only [splitCD3D, hzero, if_false] at hpass ⊢
  generalize (if 1 < numChildren then roundCbrt numChildren else 1) = c at hpass ⊢
  split at hpass
  · rename_i hassert
    refine ⟨roundCbrt mySize, c, ?_, ?_, ?_, ?_⟩
    · rw [← Nat.mul_assoc]
      exact hassert.1.symm
    · rw [← Nat.mul_assoc]
      exact hassert.2.1.symm
    · exact Nat.pos_of_ne_zero hassert.2.2.2.2.2.2.1
    · intro t
      rw [if_pos hassert]
      rfl
  · exact absurd rfl hpass

theorem splitCD3D_of_cubes {c q : ℕ} (hc : 0 < c) (hq : 0 < q) (t : ℕ) :
    splitCD3D t ((c * q) ^ 3) (c ^ 3) = some (cubePart c q (cubeTask (c * q) t)) := by
  have hchildren : (if 1 < c ^ 3 then c else 1) = c := by
    split
    · rfl
    · rename_i hle
      have := Nat.le_self_pow (by decide : 3 ≠ 0) c
      omega
  have hside : c * q / c = q := Nat.mul_div_cancel_left q hc
  have hpart : (c * q) ^ 3 / c ^ 3 = q * q * q := by
    rw [Nat.mul_pow, Nat.mul_div_cancel_left _ (Nat.pow_pos hc)]
    ring
  simp only [splitCD3D, roundCbrt_cube, hchildren, hside, hpart]
  rw [if_neg (Nat.pow_pos hc).ne', if_pos]
  · rfl
  · have hn := (Nat.mul_pos hc hq).ne'
    exact ⟨by ring, by ring, trivial, hn, hn, hn, hq.ne', hq.ne', hq.ne', hc.ne', hc.ne', hc.ne'⟩

theorem cubePart_splitsEvenly {c q : ℕ} (hq : 0 < q) (split : ℕ → Option (ℕ × ℕ))
    (hsplit : ∀ t, split t = some (cubePart c q (cubeTask (c * q) t))) :
    SplitsEvenly (c * q * (c * q * (c * q))) (c * (c * c)) split := by
  have hsize : c * q * (c * q * (c * q)) = c * (c * c) * (q * (q * q)) := by ring
  have hpos : ∀ t < c * q * (c * q * (c * q)), 0 < c * q ∧ 0 < c := by
    intro t ht
    have hn : 0 < c * q := Nat.pos_of_mul_pos_right (Nat.zero_lt_of_lt ht)
    exact ⟨hn, Nat.pos_of_mul_pos_right hn⟩
  have hpart : ∀ t < c * q * (c * q * (c * q)),
      c * q * (c * q * (c * q)) / (c * (c * c)) = q * (q * q) := by
    intro t ht
    have hc := (hpos t ht).2
    rw [hsize, Nat.mul_div_cancel_left _ (Nat.mul_pos hc (Nat.mul_pos hc hc))]
  -- each coordinate of a task is below the side of the cube
  have hx : ∀ t < c * q * (c * q * (c * q)), (cubeTask (c * q) t).1 < c * q := by
    intro t ht
    exact Nat.mod_lt _ (hpos t ht).1
  have hy : ∀ t < c * q * (c * q * (c * q)), (cubeTask (c * q) t).2.1 < c * q := by
    intro t ht
    have hn := (hpos t ht).1
    exact Nat.div_lt_of_lt_mul (Nat.mod_lt _ (Nat.mul_pos hn hn))
  have hz : ∀ t < c * q * (c * q * (c * q)), (cubeTask (c * q) t).2.2 < c * q := by
    intro t ht
    apply Nat.div_lt_of_lt_mul
    rwa [Nat.mul_comm]
  have hcolor : ∀ x < c * q, x / q < c := by
    intro x hx
    exact Nat.div_lt_of_lt_mul (by rwa [Nat.mul_comm])
  apply SplitsEvenly.of_bounds (Dvd.intro _ hsize.symm) _ fun t _ => hsplit t
  · intro t ht u hu heq
    obtain ⟨hdiv, hmod⟩ := Prod.mk.inj heq
    obtain ⟨hdx, hdy, hdz⟩ := digits_injective (hcolor _ (hx t ht)) (hcolor _ (hy t ht))
      (hcolor _ (hx u hu)) (hcolor _ (hy u hu)) hdiv
    obtain ⟨hmx, hmy, hmz⟩ := digits_injective (Nat.mod_lt _ hq) (Nat.mod_lt _ hq)
      (Nat.mod_lt _ hq) (Nat.mod_lt _ hq) hmod
    have haxis : ∀ x y, x / q = y / q → x % q = y % q → x = y := by
      intro x y hd hm
      rw [← Nat.div_add_mod x q, hd, hm, Nat.div_add_mod]
    rw [← digits_cubeTask (c * q) t, ← digits_cubeTask (c * q) u, haxis _ _ hdx hmx,
      haxis _ _ hdy hmy, haxis _ _ hdz hmz]
  · intro t ht
    exact digits_lt (hcolor _ (hx t ht)) (hcolor _ (hy t ht)) (hcolor _ (hz t ht))
  · intro t ht
    rw [hpart t ht]
    exact digits_lt (Nat.mod_lt _ hq) (Nat.mod_lt _ hq) (Nat.mod_lt _ hq)

theorem side_eq_of_bounds {n c : ℕ} (hq : 0 < n / c)
    (hbound : (cubePart c (n / c) (cubeTask n ((n - 1) * (n * n)))).1 < c * (c * c)) :
    n = c * (n / c) := by
  have hn : 0 < n := Nat.pos_of_ne_zero fun h => by simp [h] at hq
  have hplane : (cubeTask n ((n - 1) * (n * n))).2.2 = n - 1 :=
    Nat.mul_div_cancel _ (Nat.mul_pos hn hn)
  have hlast : (n - 1) / (n / c) < c := by
    have hle : (cubeTask n ((n - 1) * (n * n))).2.2 / (n / c) * (c * c) ≤
        (cubePart c (n / c) (cubeTask n ((n - 1) * (n * n)))).1 := Nat.le_add_left _ _
    rw [hplane] at hle
    exact Nat.lt_of_mul_lt_mul_right (lt_of_le_of_lt hle hbound)
  have hlt := (Nat.div_lt_iff_lt_mul hq).mp hlast
  have hle := Nat.mul_div_le n c
  omega

/-- When the assertions of `SplitCD_3D` pass, the split is even exactly when the children
divide the tasks, which `SplitCD_1D` checks. -/
theorem splitCD3D_splitsEvenly_iff (mySize numChildren : ℕ)
    (h : ∀ t < mySize, (splitCD3D t mySize numChildren).isSome) :
    SplitsEvenly mySize numChildren (splitCD3D · mySize numChildren) ↔
      numChildren ∣ mySize := by
  by_cases hsize : mySize = 0
  · subst hsize
    apply iff_of_true _ (Nat.dvd_zero _)
    constructor
    · intro t ht
      exact absurd ht (Nat.not_lt_zero t)
    · intro t ht
      exact absurd ht (Nat.not_lt_zero t)
    · intro c _
      simp
  obtain ⟨n, c, rfl, rfl, hq, hsplit⟩ := splitCD3D_passes (h 0 (Nat.pos_of_ne_zero hsize))
  constructor
  · intro heven
    have hn : 0 < n := Nat.pos_of_ne_zero fun h => by simp [h] at hq
    have ht : (n - 1) * (n * n) < n * (n * n) :=
      Nat.mul_lt_mul_of_pos_right (Nat.sub_lt hn Nat.one_pos) (Nat.mul_pos hn hn)
    obtain ⟨r, hr, hfst, -⟩ := heven.bounds _ ht
    rw [hsplit] at hr
    obtain rfl := Option.some.inj hr
    have hside := side_eq_of_bounds hq hfst
    have hdvd : c ∣ n := Dvd.intro _ hside.symm
    exact Nat.mul_dvd_mul hdvd (Nat.mul_dvd_mul hdvd hdvd)
  · intro hdvd
    have hcube : c ^ 3 ∣ n ^ 3 := by
      have hpow : ∀ m : ℕ, m ^ 3 = m * (m * m) := fun m => by ring
      rwa [hpow, hpow]
    obtain ⟨q, rfl⟩ := (Nat.pow_dvd_pow_iff (by decide)).mp hcube
    have hc : 0 < c := Nat.pos_of_ne_zero fun h => by simp [h] at hq
    have hcancel : c * q / c = q := Nat.mul_div_cancel_left q hc
    rw [hcancel] at hq hsplit
    exact cubePart_splitsEvenly hq _ hsplit

theorem sixty_four_in_eight : SplitsEvenly 64 8 (splitCD3D · 64 8) :=
  (splitCD3D_splitsEvenly_iff 64 8 fun t _ =>
    Option.isSome_of_eq_some (splitCD3D_of_cubes (c := 2) (q := 2) (by decide) (by decide) t)).mpr
      (by decide)

theorem cube_of_five : (∀ t < 125, (splitCD3D t 125 64).isSome) ∧
    ¬ SplitsEvenly 125 64 (splitCD3D · 125 64) := by
  have hside : roundCbrt 125 = 5 := roundCbrt_cube 5
  have hchildren : roundCbrt 64 = 4 := roundCbrt_cube 4
  constructor
  · intro t _
    simp [splitCD3D, hside, hchildren]
  · intro heven
    have heq : splitCD3D 4 125 64 = splitCD3D 5 125 64 := by
      simp [splitCD3D, hside, hchildren]
    exact absurd (heven.injective 4 (by decide) 5 (by decide) heq) (by decide)

end CDRuntime.TaskSplit
