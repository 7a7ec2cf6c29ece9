import Mathlib.Data.List.Basic
import Mathlib.Algebra.BigOperators.Group.List.Basic
import Mathlib.Tactic.Ring

namespace CDRuntime.TaskSplit

/-- The color and the rank in it, for a split into equal parts. A communicator is the list of its
tasks by rank; the number of tasks is an `int`, so ranks and colors are natural numbers here. -/
def splitCD1D (myTaskId mySize numChildren : ℕ) : Option (ℕ × ℕ) :=
  if mySize % numChildren ≠ 0 then none
  else
    let newSize := mySize / numChildren
    some (myTaskId / newSize, myTaskId % newSize)

/-- What a task passes to `PMPI_Comm_split`. -/
structure SplitArg where
  task : ℕ
  color : ℕ
  key : ℕ

/-- The communicator of one color: its tasks ordered by key, and by their old rank among equal
keys. `args` are the arguments of the tasks by old rank. -/
def commSplit (args : List SplitArg) (color : ℕ) : List ℕ :=
  ((args.filter fun a => a.color = color).mergeSort fun a b => decide (a.key ≤ b.key)).map
    SplitArg.task

/-- A CD of one level as one of its tasks sees it: `CDNameT` without the phase, and the tasks of
its communicator. -/
structure Place where
  level : ℕ
  rankInLevel : ℕ
  size : ℕ
  color : List ℕ

/-- `PMPI_Comm_rank` -/
def Place.taskInColor (p : Place) (t : ℕ) : ℕ := p.color.idxOf t

/-- The arguments with which the tasks of the CD call `PMPI_Comm_split`. -/
def Place.splitArgs (p : Place) (numChildren : ℕ) : List SplitArg :=
  p.color.zipIdx.filterMap fun (u, i) =>
    (splitCD1D i p.color.length numChildren).map fun r => ⟨u, r.1, r.2⟩

/-- The constructor `CDNameT(parent, num_children, color)` with the new communicator. -/
def Place.child (p : Place) (numChildren color : ℕ) (comm : List ℕ) : Place :=
  { level := p.level + 1, rankInLevel := numChildren * p.rankInLevel + color, size := numChildren
    color := comm }

/-- `CDHandle::Create` by task `t`; a single child keeps the communicator. -/
def Place.create (p : Place) (t numChildren : ℕ) : Option Place :=
  if 1 < numChildren then do
    let (newColor, _) ← splitCD1D (p.taskInColor t) p.color.length numChildren
    some (p.child numChildren newColor (commSplit (p.splitArgs numChildren) newColor))
  else if numChildren = 1 then some (p.child numChildren 0 p.color)
  else none

def root (n : ℕ) : Place := ⟨0, 0, 1, List.range n⟩

/-- The CD of task `t` below the root, level by level. -/
def descend (t : ℕ) (p : Place) : List ℕ → Option Place
  | [] => some p
  | k :: ks => (p.create t k).bind fun p' => descend t p' ks

theorem filter_div_eq_range' {m k c : ℕ} (hm : 0 < m) (hc : c < k) :
    (List.range (k * m)).filter (fun i => i / m = c) = List.range' (c * m) m := by
  have hle : c * m + m ≤ k * m := by
    rw [← Nat.succ_mul]
    exact Nat.mul_le_mul_right m hc
  have hsplit : List.range (k * m) =
      List.range' 0 (c * m) ++ (List.range' (c * m) m ++
        List.range' (c * m + m) (k * m - (c * m + m))) := by
    rw [List.range'_append_1, List.range_eq_range']
    conv_rhs =>
      arg 2
      rw [← Nat.zero_add (c * m)]
    rw [List.range'_append_1]
    congr 1
    omega
  have hbelow : (List.range' 0 (c * m)).filter (fun i => i / m = c) = [] := by
    apply List.filter_eq_nil_iff.mpr
    intro i hi
    rw [List.mem_range'_1] at hi
    have hlt : i / m < c := Nat.div_lt_of_lt_mul (by rw [Nat.mul_comm]; omega)
    simp only [decide_eq_true_eq]
    omega
  have hinside : (List.range' (c * m) m).filter (fun i => i / m = c) = List.range' (c * m) m := by
    apply List.filter_eq_self.mpr
    intro i hi
    rw [List.mem_range'_1] at hi
    simp only [decide_eq_true_eq]
    rw [Nat.div_eq_iff hm]
    have := Nat.mul_comm c m
    omega
  have habove : (List.range' (c * m + m) (k * m - (c * m + m))).filter (fun i => i / m = c) = [] := by
    apply List.filter_eq_nil_iff.mpr
    intro i hi
    rw [List.mem_range'_1] at hi
    have hlt : c + 1 ≤ i / m := (Nat.le_div_iff_mul_le hm).mpr (by rw [Nat.succ_mul]; omega)
    simp only [decide_eq_true_eq]
    omega
  rw [hsplit, List.filter_append, List.filter_append, hbelow, hinside, habove, List.nil_append,
    List.append_nil]

structure Block (p : Place) (n : ℕ) : Prop where
  color : p.color = List.range' (p.rankInLevel * n) n

theorem Block.taskInColor {p : Place} {n : ℕ} (h : Block p n) {i : ℕ} (hi : i < n) :
    p.taskInColor (p.rankInLevel * n + i) = i := by
  have hnodup : p.color.Nodup := by
    rw [h.color]
    exact List.nodup_range'
  have hget : p.color[i]? = some (p.rankInLevel * n + i) := by
    rw [h.color, List.getElem?_range' hi, Nat.one_mul]
  obtain ⟨hlt, heq⟩ := List.getElem?_eq_some_iff.mp hget
  rw [Place.taskInColor, ← heq]
  exact hnodup.idxOf_getElem i hlt

theorem splitArgs_eq {p : Place} {k m : ℕ} (hk : 0 < k) (h : Block p (k * m)) :
    p.splitArgs k =
      (List.range (k * m)).map fun i => ⟨p.rankInLevel * (k * m) + i, i / m, i % m⟩ := by
  have hsplit : ∀ i, splitCD1D i (k * m) k = some (i / m, i % m) := by
    intro i
    rw [splitCD1D, Nat.mul_mod_right, if_neg (by simp), Nat.mul_div_cancel_left m hk]
  have hlen : p.color.length = k * m := by rw [h.color, List.length_range']
  rw [Place.splitArgs, hlen, h.color]
  simp only [hsplit, Option.map_some, List.filterMap_eq_map']
  apply List.ext_getElem?
  intro i
  rw [List.getElem?_map, List.getElem?_map, List.getElem?_zipIdx]
  by_cases hi : i < k * m
  · rw [List.getElem?_range' hi, List.getElem?_range hi]
    simp
  · rw [List.getElem?_eq_none (by rw [List.length_range']; omega),
      List.getElem?_eq_none (by rw [List.length_range]; omega)]
    rfl

theorem commSplit_block {p : Place} {k m c : ℕ} (hm : 0 < m) (hc : c < k)
    (h : Block p (k * m)) :
    commSplit (p.splitArgs k) c = List.range' ((k * p.rankInLevel + c) * m) m := by
  have hfilter : (p.splitArgs k).filter (fun a => a.color = c) =
      (List.range' (c * m) m).map fun i => ⟨p.rankInLevel * (k * m) + i, i / m, i % m⟩ := by
    rw [splitArgs_eq (by omega) h, List.filter_map, ← filter_div_eq_range' hm hc]
    rfl
  have hsorted : ((List.range' (c * m) m).map fun i =>
      (⟨p.rankInLevel * (k * m) + i, i / m, i % m⟩ : SplitArg)).Pairwise
        fun a b => decide (a.key ≤ b.key) = true := by
    rw [List.pairwise_map]
    apply List.Pairwise.imp_of_mem _ (List.pairwise_lt_range' 1)
    intro a b ha hb hab
    rw [List.mem_range'_1] at ha hb
    simp only [decide_eq_true_eq]
    have hda : a / m = c := by rw [Nat.div_eq_iff hm]; have := Nat.mul_comm c m; omega
    have hdb : b / m = c := by rw [Nat.div_eq_iff hm]; have := Nat.mul_comm c m; omega
    have := Nat.div_add_mod a m
    have := Nat.div_add_mod b m
    rw [hda] at *
    rw [hdb] at *
    omega
  have hshift : (k * p.rankInLevel + c) * m = p.rankInLevel * (k * m) + c * m := by ring
  rw [commSplit, hfilter, List.mergeSort_of_pairwise hsorted, List.map_map, hshift,
    ← List.map_add_range']
  rfl

theorem div_of_parts (t k m : ℕ) : k * (t / (k * m)) + t % (k * m) / m = t / m := by
  rw [Nat.mul_comm k m, Nat.mod_mul_right_div_self, ← Nat.div_div_eq_div_mul]
  exact Nat.div_add_mod (t / m) k

theorem create_block {p : Place} {t k m : ℕ} (hk : 0 < k) (hm : 0 < m) (h : Block p (k * m))
    (ht : p.rankInLevel = t / (k * m)) :
    ∃ p', p.create t k = some p' ∧ Block p' m ∧ p'.rankInLevel = t / m := by
  rw [Place.create]
  by_cases hsplit : 1 < k
  · have hin : t % (k * m) < k * m := Nat.mod_lt t (Nat.mul_pos hk hm)
    have htask : p.taskInColor t = t % (k * m) := by
      have htic := h.taskInColor hin
      rw [ht, Nat.mul_comm, Nat.div_add_mod] at htic
      exact htic
    have hcolor : t % (k * m) / m < k := Nat.div_lt_of_lt_mul (by rwa [Nat.mul_comm m k])
    have hlen : p.color.length = k * m := by rw [h.color, List.length_range']
    have hpart : splitCD1D (p.taskInColor t) p.color.length k =
        some (t % (k * m) / m, t % (k * m) % m) := by
      rw [splitCD1D, hlen, htask, Nat.mul_mod_right, if_neg (by simp),
        Nat.mul_div_cancel_left m hk]
    rw [if_pos hsplit, hpart]
    refine ⟨_, rfl, ⟨commSplit_block hm hcolor h⟩, ?_⟩
    rw [Place.child, ht]
    exact div_of_parts t k m
  · -- a single child keeps communicator and rank
    obtain rfl : k = 1 := by omega
    rw [Nat.one_mul] at h ht
    refine ⟨_, rfl, ⟨?_⟩, ?_⟩
    · rw [Place.child, h.color]
      simp only [Nat.one_mul, Nat.add_zero]
    · rw [Place.child, ht]
      simp only [Nat.one_mul, Nat.add_zero]

theorem descend_block {t : ℕ} (ks : List ℕ) : ∀ {p : Place} {n : ℕ}, 0 < n → Block p n →
    p.rankInLevel = t / n → (∀ k ∈ ks, 1 ≤ k) → ks.prod ∣ n →
    ∃ p', descend t p ks = some p' ∧ Block p' (n / ks.prod) ∧
      p'.rankInLevel = t / (n / ks.prod) := by
  induction ks with
  | nil =>
      intro p n _ h ht _ _
      rw [List.prod_nil, Nat.div_one]
      exact ⟨p, rfl, h, ht⟩
  | cons k ks ih =>
      intro p n hn h ht hpos hdvd
      have hk : 0 < k := hpos k List.mem_cons_self
      obtain ⟨m, rfl⟩ : k ∣ n := Nat.dvd_trans (Dvd.intro _ (List.prod_cons).symm) hdvd
      have hm : 0 < m := Nat.pos_of_mul_pos_left hn
      rw [List.prod_cons] at hdvd ⊢
      obtain ⟨p₁, hcreate, hblock, hrank⟩ := create_block hk hm h ht
      obtain ⟨p', hdescend, hp'⟩ := ih hm hblock hrank
        (fun k' hk' => hpos k' (List.mem_cons_of_mem _ hk')) (Nat.dvd_of_mul_dvd_mul_left hk hdvd)
      rw [Nat.mul_div_mul_left _ _ hk]
      exact ⟨p', by rw [descend, hcreate, Option.bind_some, hdescend], hp'⟩

/-- The split level by level is the mixed radix representation of the task. -/
theorem descend_mixed_radix {N : ℕ} (hN : 1 ≤ N) {ks : List ℕ} (hpos : ∀ k ∈ ks, 1 ≤ k)
    (hdvd : ks.prod ∣ N) :
    ∃ place : ℕ → Place,
      (∀ t < N, descend t (root N) ks = some (place t) ∧
        (place t).rankInLevel = t / (N / ks.prod) ∧
        (place t).taskInColor t = t % (N / ks.prod)) ∧
      (∀ t < N, ∀ u < N, (place t).rankInLevel = (place u).rankInLevel →
        (place t).taskInColor t = (place u).taskInColor u → t = u) ∧
      (∀ t < N, (place t).rankInLevel < ks.prod) ∧
      ∀ t < N, ∀ u < N,
        ((place t).color = (place u).color ↔ (place t).rankInLevel = (place u).rankInLevel) ∧
        (u ∈ (place t).color ↔ (place t).rankInLevel = (place u).rankInLevel) := by
  have hroot : ∀ t < N, Block (root N) N ∧ (root N).rankInLevel = t / N := by
    intro t ht
    refine ⟨⟨?_⟩, (Nat.div_eq_of_lt ht).symm⟩
    rw [root, Nat.zero_mul, List.range_eq_range']
  have hpart : 0 < N / ks.prod := Nat.div_pos (Nat.le_of_dvd hN hdvd) (Nat.pos_of_dvd_of_pos hdvd hN)
  have hplace : ∀ t, ∃ p, t < N → descend t (root N) ks = some p ∧ Block p (N / ks.prod) ∧
      p.rankInLevel = t / (N / ks.prod) := by
    intro t
    by_cases ht : t < N
    · obtain ⟨p, hp⟩ := descend_block ks hN (hroot t ht).1 (hroot t ht).2 hpos hdvd
      exact ⟨p, fun _ => hp⟩
    · exact ⟨root N, fun h => absurd h ht⟩
  choose place hplace using hplace
  have htask : ∀ t < N, (place t).taskInColor t = t % (N / ks.prod) := by
    intro t ht
    obtain ⟨-, hblock, hrank⟩ := hplace t ht
    have htic := hblock.taskInColor (Nat.mod_lt t hpart)
    rwa [hrank, Nat.mul_comm, Nat.div_add_mod] at htic
  have hmem : ∀ t < N, ∀ u < N,
      (u ∈ (place t).color ↔ (place t).rankInLevel = (place u).rankInLevel) := by
    intro t ht u hu
    rw [(hplace t ht).2.1.color, List.mem_range'_1, (hplace u hu).2.2, eq_comm,
      Nat.div_eq_iff hpart]
    omega
  refine ⟨place, ?_, ?_, ?_, ?_⟩
  · intro t ht
    exact ⟨(hplace t ht).1, (hplace t ht).2.2, htask t ht⟩
  · intro t ht u hu hrank htic
    rw [(hplace t ht).2.2, (hplace u hu).2.2] at hrank
    rw [htask t ht, htask u hu] at htic
    rw [← Nat.div_add_mod t (N / ks.prod), hrank, htic, Nat.div_add_mod]
  · intro t ht
    rw [(hplace t ht).2.2]
    apply Nat.div_lt_of_lt_mul
    rwa [Nat.div_mul_cancel hdvd]
  · intro t ht u hu
    refine ⟨⟨?_, ?_⟩, hmem t ht u hu⟩
    · intro hcolor
      apply (hmem t ht u hu).mp
      rw [hcolor]
      exact (hmem u hu u hu).mpr rfl
    · intro hrank
      rw [(hplace t ht).2.1.color, (hplace u hu).2.1.color, hrank]

theorem descend_two_three :
    ∃ place : ℕ → Place, (∀ t < 12, descend t (root 12) [2, 3] = some (place t) ∧
      (place t).rankInLevel = t / 2 ∧ (place t).taskInColor t = t % 2) ∧
      ∀ t < 12, (place t).rankInLevel < 6 := by
  have hpos : ∀ k ∈ [2, 3], 1 ≤ k := by decide
  have hdvd : [2, 3].prod ∣ 12 := by decide
  obtain ⟨place, hplace, -, hlt, -⟩ := descend_mixed_radix (by decide) hpos hdvd
  exact ⟨place, hplace, hlt⟩

end CDRuntime.TaskSplit
