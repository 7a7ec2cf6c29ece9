import CDRuntime.Runs
import CDRuntime.TableOps
import Mathlib.Logic.Function.Basic

namespace CDRuntime.Tables
open Runs TableStore

/-- An operation on the table `i`. -/
inductive Op (ι E : Type) where
  | insert (i : ι) (e : E)
  | insertEntry (i : ι) (e : E)
  | insertMany (i : ι) (new : List E)
  | init (i : ι)
  | reset (i : ι) (tail : ℕ)
  | findWithAttr (i : ι) (attr start : ℕ) (isTrue : Bool) (table : Option { j : ι // j ≠ i })
  | free (i : ι) (reuse : Bool)

abbrev Family (ι E : Type) := ι → TableStore E

variable {ι E : Type} [DecidableEq ι] [AttrEntry E]

def put (s : Family ι E) (i : ι) (t : TableStore E) : Family ι E := Function.update s i t

def step (s : Family ι E) : Op ι E → Option (Family ι E)
  | .insert i e => ((s i).insert e).map (put s i)
  | .insertEntry i e => ((s i).insertEntry e).map fun r => put s i r.2
  | .insertMany i new => ((s i).insertMany new).map (put s i)
  | .init i => some (put s i (s i).init)
  | .reset i tail => some (put s i ((s i).reset tail))
  | .findWithAttr i attr start flag none =>
      ((s i).findWithAttr attr start flag).map fun r => put s i r.2
  | .findWithAttr i attr start flag (some j) =>
      ((s i).findWithAttrInto attr start flag (s j)).map fun r => put s j r.2
  | .free i reuse => some (put s i ((s i).freeWith reuse))

/-- The tables that the constructors make. With `alloc = 0` the size is what the memory held; a
block given to the constructor is as large as it says. -/
inductive Constructed : TableStore E → Prop where
  | alloc (garbage alloc : ℕ) (h : alloc ≠ 0 ∨ garbage < Entry.sizeOf E) :
      Constructed (construct E garbage alloc)
  | block (garbage len : ℕ) (wild : Option (List E)) (block : List E)
      (h : len / Entry.sizeOf E ≤ block.length) : Constructed (wrap garbage wild (some block) len)
  | null (garbage len : ℕ) : Constructed (wrap garbage none none len)

/-- A search in place may start anywhere below the capacity, as long as the index does not wrap
around. -/
def Guard (s : Family ι E) : Op ι E → Prop
  | .insertMany i new => (s i).Takes new.length
  | .reset i tail => tail ≤ (s i).tail
  | .findWithAttr i _ start _ none =>
      (s i).tail < 2 ^ 32 ∧ start < 2 ^ 32 ∧ start * Entry.sizeOf E ≤ (s i).size
  | .findWithAttr i _ _ _ (some _) => (s i).tail < 2 ^ 32
  | _ => True

/-- The array has room for `size_` bytes, and the entries in use lie in them. -/
def Covered (t : TableStore E) : Prop :=
  ∀ ptr, t.ptr = some ptr →
    t.size / Entry.sizeOf E ≤ ptr.length ∧ t.tail * Entry.sizeOf E ≤ t.size

def used (t : TableStore E) : List E := (t.ptr.getD []).take t.tail

/-- New entries land behind those in use, which a growth leaves as they are. -/
def Lands (s s' : Family ι E) : Op ι E → Prop
  | .insert i e | .insertEntry i e => used (s' i) = used (s i) ++ [e]
  | .insertMany i new => used (s' i) = used (s i) ++ new
  | .findWithAttr i attr start flag (some j) =>
      used (s' j) = used (s j) ++ withAttr attr flag ((used (s i)).drop (start % 2 ^ 32))
  | _ => True

/-- The operation stays inside the arrays, and what it inserts lands at the tail. -/
def Fine (s : Family ι E) (op : Op ι E) : Prop := ∃ s', step s op = some s' ∧ Lands s s' op

def Kept (s : Family ι E) : Prop := ∀ i, ∃ es, (s i).Keeps es

theorem covered_of_keeps {t : TableStore E} {es : List E} (h : t.Keeps es) : Covered t := by
  intro ptr hptr
  exact ⟨(h.block ptr hptr).1, h.room⟩

theorem used_of_keeps {t : TableStore E} {es : List E} (h : t.Keeps es) : used t = es := by
  cases hptr : t.ptr with
  | none => rw [used, hptr, (h.null hptr).1, Option.getD_none, List.take_nil]
  | some ptr => rw [used, hptr, Option.getD_some, (h.block ptr hptr).2]

theorem allocate_keeps {garbage cnt : ℕ} (hcnt : cnt ≠ 0) :
    Keeps (allocateTable ⟨garbage, 0, 0, 0, 32, 0, none⟩ cnt : TableStore E) [] := by
  rw [allocateTable, if_pos hcnt]
  refine keeps_nil rfl (Nat.pos_of_ne_zero hcnt) ?_
    fun hnull => absurd hnull (Option.some_ne_none _)
  intro ptr hptr
  obtain rfl := Option.some.inj hptr
  rw [List.length_replicate]
  exact Nat.le_of_eq (Nat.mul_div_cancel _ AttrEntry.sizeOf_pos)

theorem constructed_keeps {t : TableStore E} (h : Constructed t) : t.Keeps [] := by
  cases h with
  | alloc garbage alloc h =>
      by_cases halloc : alloc = 0
      · have hsmall : garbage < Entry.sizeOf E := h.resolve_left fun hne => hne halloc
        rw [construct, halloc, allocateTable, if_neg fun hne => hne rfl]
        exact keeps_nil rfl (show 0 < 32 by decide)
          (fun ptr hptr => absurd hptr.symm (Option.some_ne_none ptr)) fun _ => ⟨rfl, hsmall⟩
      · exact allocate_keeps halloc
  | block garbage len wild block h =>
      refine keeps_nil rfl ?_ ?_ fun hnull => absurd hnull (Option.some_ne_none _)
      · show 0 < if 0 < len then len * 2 else 32
        split_ifs <;> omega
      · intro ptr hptr
        obtain rfl := Option.some.inj hptr
        exact h
  | null garbage len => exact allocate_keeps (show baseEntryCnt ≠ 0 by decide)

theorem init_keeps {t : TableStore E} {es : List E} (h : t.Keeps es) : t.init.Keeps [] := by
  refine keeps_nil rfl ?_ (fun ptr hptr => (h.block ptr hptr).1)
    fun hnull => ⟨rfl, (h.null hnull).2.2⟩
  show 0 < if 0 < t.size then t.size * 2 else t.growUnit
  have hunit := h.unit
  split_ifs <;> omega

theorem reset_keeps {t : TableStore E} {es : List E} (h : t.Keeps es) {tail : ℕ}
    (hle : tail ≤ t.tail) : (t.reset tail).Keeps (es.take tail) := by
  have hlen := h.tail
  refine ⟨?_, h.unit, Nat.le_trans (Nat.mul_le_mul_right _ hle) h.room, ?_, ?_⟩
  · rw [List.length_take, ← hlen]
    exact (Nat.min_eq_left hle).symm
  · intro ptr hptr
    obtain ⟨hblock, htake⟩ := h.block ptr hptr
    refine ⟨hblock, ?_⟩
    rw [← htake, List.take_take]
    exact congrArg (List.take · ptr) (Nat.min_eq_left hle).symm
  · intro hnull
    obtain ⟨rfl, -, hsmall⟩ := h.null hnull
    exact ⟨List.take_nil, Nat.le_zero.mp (Nat.le_trans hle (Nat.le_of_eq hlen)), hsmall⟩

theorem freeWith_keeps {t : TableStore E} {es : List E} (h : t.Keeps es) (reuse : Bool) :
    (t.freeWith reuse).Keeps [] := by
  cases reuse with
  | true => exact free_keeps h
  | false =>
      exact keeps_nil rfl (show 0 < baseEntryCnt by decide) (fun ptr hptr => nomatch hptr)
        fun _ => ⟨rfl, AttrEntry.sizeOf_pos⟩

theorem findWithAttr_past {t : TableStore E} {es : List E} (h : t.Keeps es) (attr : ℕ)
    (isTrue : Bool) {start : ℕ} (hsmall : start < 2 ^ 32) (hpast : t.tail < start)
    (hroom : start * Entry.sizeOf E ≤ t.size) :
    ∃ t' es', t.findWithAttr attr start isTrue = some (t'.tail, t') ∧ t'.Keeps es' := by
  cases hptr : t.ptr with
  | none =>
      have hlt := (h.null hptr).2.2
      have hle : 1 * Entry.sizeOf E ≤ start * Entry.sizeOf E := Nat.mul_le_mul_right _ (by omega)
      omega
  | some ptr =>
      have hblock := (h.block ptr hptr).1
      have hin : start ≤ ptr.length :=
        Nat.le_trans ((Nat.le_div_iff_mul_le AttrEntry.sizeOf_pos).mpr hroom) hblock
      refine ⟨{ t with tail := start }, ptr.take start, ?_, ?_, h.unit, hroom, ?_, ?_⟩
      · have hle : t.tail ≤ start % 2 ^ 32 := by
          rw [Nat.mod_eq_of_lt hsmall]
          exact Nat.le_of_lt hpast
        rw [findWithAttr, Loop32.loop_past hle]
        rfl
      · rw [List.length_take]
        exact (Nat.min_eq_left hin).symm
      · intro ptr' hptr'
        obtain rfl := Option.some.inj (hptr.symm.trans hptr')
        exact ⟨hblock, rfl⟩
      · intro hnull
        exact absurd (hptr.symm.trans hnull) (Option.some_ne_none ptr)

theorem kept_put {s : Family ι E} (h : Kept s) (i : ι) {t : TableStore E} {es : List E}
    (ht : t.Keeps es) : Kept (put s i t) := by
  intro k
  by_cases hk : k = i
  · rw [hk, put, Function.update_self]
    exact ⟨es, ht⟩
  · rw [put, Function.update_of_ne hk]
    exact h k

/-- An operation under its guard stays inside the arrays and keeps every table. -/
theorem step_spec {s : Family ι E} (h : Kept s) {op : Op ι E} (hg : Guard s op) :
    ∃ s', step s op = some s' ∧ Kept s' ∧ Lands s s' op := by
  have hsize : 0 < Entry.sizeOf E := AttrEntry.sizeOf_pos
  have hlands : ∀ (i : ι) {t : TableStore E} {es new : List E}, (s i).Keeps es →
      t.Keeps (es ++ new) → used (put s i t i) = used (s i) ++ new := by
    intro i t es new hes ht
    rw [put, Function.update_self, used_of_keeps hes, used_of_keeps ht]
  cases op with
  | insert i e =>
      obtain ⟨es, hes⟩ := h i
      obtain ⟨t', hrun, hkeeps⟩ := insert_keeps hes hsize e
      exact ⟨put s i t', by rw [step, hrun, Option.map_some], kept_put h i hkeeps,
        hlands i hes hkeeps⟩
  | insertEntry i e =>
      obtain ⟨es, hes⟩ := h i
      obtain ⟨t', hrun, hkeeps⟩ := insertEntry_spec hes hsize e
      exact ⟨put s i t', by rw [step, hrun, Option.map_some], kept_put h i hkeeps,
        hlands i hes hkeeps⟩
  | insertMany i new =>
      obtain ⟨es, hes⟩ := h i
      obtain ⟨t', hrun, hkeeps⟩ := insertMany_spec hes hsize hg
      exact ⟨put s i t', by rw [step, hrun, Option.map_some], kept_put h i hkeeps,
        hlands i hes hkeeps⟩
  | init i =>
      obtain ⟨es, hes⟩ := h i
      exact ⟨_, rfl, kept_put h i (init_keeps hes), trivial⟩
  | reset i tail =>
      obtain ⟨es, hes⟩ := h i
      exact ⟨_, rfl, kept_put h i (reset_keeps hes hg), trivial⟩
  | findWithAttr i attr start flag table =>
      obtain ⟨es, hes⟩ := h i
      cases table with
      | none =>
          obtain ⟨hsmall, hstart, hroom⟩ := hg
          have hrun : ∃ t' es', (s i).findWithAttr attr start flag = some (t'.tail, t') ∧
              t'.Keeps es' := by
            rcases Nat.lt_or_ge (s i).tail start with hpast | hle
            · exact findWithAttr_past hes attr flag hstart hpast hroom
            · obtain ⟨t', hrun, hkeeps⟩ := findWithAttr_spec hes attr flag hsmall hle
              exact ⟨t', _, hrun, hkeeps⟩
          obtain ⟨t', es', hrun, hkeeps⟩ := hrun
          exact ⟨put s i t', by rw [step, hrun, Option.map_some], kept_put h i hkeeps, trivial⟩
      | some j =>
          obtain ⟨fs, hfs⟩ := h j
          obtain ⟨t', hrun, hkeeps⟩ := findWithAttrInto_spec hes.shows attr flag start hg hfs
          refine ⟨put s j t', by rw [step, hrun, Option.map_some], kept_put h j hkeeps, ?_⟩
          show used (put s j t' j) = used (s j) ++ withAttr attr flag ((used (s i)).drop _)
          rw [hlands j hfs hkeeps, used_of_keeps hes]
  | free i reuse =>
      obtain ⟨es, hes⟩ := h i
      exact ⟨_, rfl, kept_put h i (freeWith_keeps hes reuse), trivial⟩

/-- Along every run whose operations meet their guards, the arrays cover the tables, no operation
leaves its array, and new entries land at the tail behind unchanged ones. -/
theorem capacity_kept {s : Family ι E} (hs : ∀ i, Constructed (s i)) {ops : List (Op ι E)}
    (hops : Attempted step Guard s ops) :
    Always step (fun s => ∀ i, Covered (s i)) s ops ∧ Attempted step Fine s ops := by
  have hkept : Kept s := fun i => ⟨[], constructed_keeps (hs i)⟩
  obtain ⟨hinv, hfine⟩ := attempted_invariant (H := Fine) (fun s op h hg => by
    obtain ⟨s', hrun, hkept', hlands⟩ := step_spec h hg
    exact ⟨s', hrun, hkept', s', hrun, hlands⟩) ops s hkept hops
  refine ⟨Always.mono ?_ ops s hinv, hfine⟩
  intro s h i
  obtain ⟨es, hes⟩ := h i
  exact covered_of_keeps hes

theorem insertMany_after_free :
    ¬ Attempted step Fine (fun _ : Unit => (construct CDEntry 0 baseEntryCnt))
      [.free () false, .insertMany () (List.replicate 129 Entry.blank)] := by
  rintro ⟨-, hrest⟩
  obtain ⟨⟨s', hrun, -⟩, -⟩ := hrest _ rfl
  have hnone : (step (put (fun _ : Unit => construct CDEntry 0 baseEntryCnt) ()
      ((construct CDEntry 0 baseEntryCnt).freeWith false))
      (.insertMany () (List.replicate 129 Entry.blank))).isSome = false := by
    decide +kernel
  rw [hrun] at hnone
  exact nomatch hnone

theorem capacity_kept_after_free :
    Always step (fun s => ∀ i, Covered (s i)) (fun _ : Unit => (construct CDEntry 0 1))
        [.free () false, .insertMany () (List.replicate 128 Entry.blank)] ∧
      Attempted step Fine (fun _ : Unit => (construct CDEntry 0 1))
        [.free () false, .insertMany () (List.replicate 128 Entry.blank)] :=
  capacity_kept (fun _ => .alloc 0 1 (Or.inl (by decide))) (by
    refine ⟨trivial, fun s' hs' => ⟨?_, fun _ _ => trivial⟩⟩
    obtain rfl := Option.some.inj hs'
    show 0 < (List.replicate 128 (Entry.blank : CDEntry)).length ∧ _ ≤ baseEntryCnt
    rw [List.length_replicate]
    decide)

/-- `FindWithAttr` is a stable filter. In place, it leaves the entries before `start` and, behind
them, the selected ones in their order; with another table as its target, it leaves its own table
alone and appends the same entries to the other one. Both return the tail of the table they
fill. -/
theorem findWithAttr_stable {s : Family ι E} {i : ι} {es : List E} (h : (s i).Keeps es)
    {start : ℕ} (hsmall : (s i).tail < 2 ^ 32) (hs : start ≤ (s i).tail) (attr : ℕ)
    (isTrue : Bool) :
    (∃ t', (s i).findWithAttr attr start isTrue = some (t'.tail, t') ∧
      t'.Keeps (es.take start ++ (es.drop start).filter (selected attr isTrue))) ∧
    ∀ (j : { j : ι // j ≠ i }) (fs : List E), (s j).Keeps fs →
      ∃ s', step s (.findWithAttr i attr start isTrue (some j)) = some s' ∧ s' i = s i ∧
        (s i).findWithAttrInto attr start isTrue (s j) = some ((s' j).tail, s' j) ∧
        (s' j).Keeps (fs ++ (es.drop start).filter (selected attr isTrue)) := by
  refine ⟨findWithAttr_spec h attr isTrue hsmall hs, fun j fs hfs => ?_⟩
  obtain ⟨t', hrun, hkeeps⟩ := findWithAttrInto_spec h.shows attr isTrue start hsmall hfs
  rw [Nat.mod_eq_of_lt (by omega)] at hkeeps
  have hj : put s j t' j = t' := Function.update_self _ _ _
  refine ⟨put s j t', by rw [step, hrun, Option.map_some], Function.update_of_ne j.2.symm _ _, ?_,
    ?_⟩
  · rw [hj, hrun]
  · rw [hj]
    exact hkeeps

def twoEntries : TableStore CDEntry :=
  ⟨64, 0, 2, 0, 2, 1, some [⟨1, ⟨0⟩, 0, 0⟩, ⟨2, .ofAttr 2 8, 0, 0⟩]⟩

theorem twoEntries_keeps : twoEntries.Keeps [⟨1, ⟨0⟩, 0, 0⟩, ⟨2, .ofAttr 2 8, 0, 0⟩] := by
  refine ⟨rfl, by decide, by decide, ?_, fun hnull => nomatch hnull⟩
  intro ptr hptr
  obtain rfl := Option.some.inj hptr
  exact ⟨by decide, rfl⟩

theorem findWithAttr_stable_twoEntries :
    ∃ s', step (fun i : Bool => if i then twoEntries else construct CDEntry 0 0)
        (.findWithAttr true 2 0 true (some ⟨false, by decide⟩)) = some s' ∧
      (s' false).Keeps [⟨2, .ofAttr 2 8, 0, 0⟩] := by
  have hstart : 0 ≤ twoEntries.tail := Nat.zero_le _
  obtain ⟨-, hinto⟩ := findWithAttr_stable
    (s := fun i : Bool => if i then twoEntries else construct CDEntry 0 0) (i := true)
    twoEntries_keeps (by decide) hstart 2 true
  obtain ⟨s', hrun, -, -, hkeeps⟩ := hinto ⟨false, by decide⟩ []
    (constructed_keeps (.alloc 0 0 (Or.inr (by decide))))
  exact ⟨s', hrun, hkeeps⟩

end CDRuntime.Tables
