import CDRuntime.Packer
import CDRuntime.Runs
import Mathlib.Algebra.Ring.Nat
import Mathlib.Data.List.Nodup
import Mathlib.Data.List.Perm.Subperm

namespace CDRuntime
open Cells

namespace Packer

/-- Through `Add`, or through `AddEntry` with an entry whose offset is still to be set. -/
inductive AddKind where
  | add
  | addEntry (offset : ℕ)

/-- A call that preserves `len` bytes at `src`, in the memory at the time of the call. -/
structure AddCall where
  kind : AddKind
  mem : Cells UInt8
  src : ℕ
  len : ℕ
  id : UInt64

def AddCall.bytes (c : AddCall) : List UInt8 := readOut c.mem c.src c.len

def call (p : Packer) (c : AddCall) : Option Packer :=
  match c.kind with
  | .add => p.add c.mem c.src c.len c.id
  | .addEntry offset =>
      p.addEntry c.mem c.src { id := c.id, size_ := .ofAttr Attr.knoattr c.len, offset, src := c.src }

structure WellFormed (calls : List AddCall) : Prop where
  src : ∀ c ∈ calls, c.src ≠ 0
  len : ∀ c ∈ calls, 0 < c.len ∧ c.len < 2 ^ 48
  distinct : (calls.map AddCall.id).Nodup
  total : (calls.map AddCall.len).sum < 2 ^ 63

/-- Every preserved id is restored to the bytes it was preserved with, whole or in part, and no
other id is found. -/
structure Restores (p : Packer) (calls : List AddCall) : Prop where
  whole : ∀ c ∈ calls, ∀ mem dst, dst ≠ 0 →
    ∃ e, p.restore mem c.id dst 0 = some (some e, copyIn mem dst c.bytes)
  part : ∀ c ∈ calls, ∀ mem dst l, dst ≠ 0 → 0 < l → l ≤ c.len →
    ∃ e, p.restore mem c.id dst l = some (some e, copyIn mem dst (c.bytes.take l))
  absent : ∀ id, (∀ c ∈ calls, c.id ≠ id) → ∀ mem dst l, p.restore mem id dst l = some (none, mem)

/-- The entry that a call leaves in the table, with its bytes at `off`. -/
def AddCall.entry (off : ℕ) (c : AddCall) : CDEntry := ⟨c.id, ⟨c.len⟩, off, c.src⟩

abbrev Packed := Stored AddCall.entry AddCall.bytes

theorem AddCall.bytes_length (c : AddCall) : c.bytes.length = c.len := readOut_length _ _ _

theorem layout_call_id (cs : List AddCall) (off : ℕ) :
    (layout AddCall.entry AddCall.bytes off cs).map CDEntry.id = cs.map AddCall.id := by
  apply layout_id
  intro off c
  rfl

theorem layout_absent {cs : List AddCall} {id : UInt64} (h : ∀ c ∈ cs, c.id ≠ id) {off : ℕ} :
    ∀ e ∈ layout AddCall.entry AddCall.bytes off cs, Entry.id e ≠ id := by
  intro e he heq
  have hmem : e.id ∈ cs.map AddCall.id := by
    rw [← layout_call_id cs off]
    exact List.mem_map_of_mem he
  obtain ⟨c, hc, hid⟩ := List.mem_map.mp hmem
  exact h c hc (hid.trans heq)

theorem ofSize_eq {n : ℕ} (h : n < 2 ^ 48) : Attr.ofSize n = ⟨n⟩ := by
  rw [Attr.ofSize, Nat.mod_eq_of_lt (by omega)]

theorem ofAttr_eq {n : ℕ} (h : n < 2 ^ 48) : Attr.ofAttr Attr.knoattr n = ⟨n⟩ := by
  rw [Attr.ofAttr, Attr.knoattr, Nat.zero_mul, Nat.zero_mod, Nat.zero_add, Nat.mod_eq_of_lt h]

theorem call_packed {p : Packer} {calls : List AddCall} (h : Packed p calls) {c : AddCall}
    (hsrc : c.src ≠ 0) (hpos : 0 < c.len) (hlen : c.len < 2 ^ 48) :
    ∃ p', p.call c = some p' ∧ Packed p' (calls ++ [c]) := by
  obtain ⟨p₁, t, hwrite, hinsert, hstored⟩ := h.written c
  refine ⟨{ p₁ with table := t }, ?_, hstored⟩
  have hne : c.len ≠ 0 := by omega
  cases hkind : c.kind with
  | add =>
      simp only [call, hkind, add, if_pos hne, AddCall.bytes, AddCall.entry] at hwrite hinsert ⊢
      simp only [hwrite, Option.bind_eq_bind, Option.bind_some, ofSize_eq hlen, hinsert]
  | addEntry offset =>
      have hsize : CDEntry.size ⟨c.id, ⟨c.len⟩, offset, c.src⟩ = c.len := Nat.mod_eq_of_lt hlen
      simp only [call, hkind, addEntry, ofAttr_eq hlen, hsize, AddCall.bytes, AddCall.entry]
        at hwrite hinsert ⊢
      rw [if_pos ⟨hsrc, hne⟩]
      simp only [hwrite, Option.bind_eq_bind, Option.bind_some, hinsert]

theorem run_packed (more : List AddCall) :
    ∀ (p : Packer) (calls : List AddCall), Packed p calls →
      (∀ c ∈ more, c.src ≠ 0) → (∀ c ∈ more, 0 < c.len ∧ c.len < 2 ^ 48) →
      ∃ p', Runs.run call p more = some p' ∧ Packed p' (calls ++ more) := by
  induction more with
  | nil =>
      intro p calls h _ _
      exact ⟨p, rfl, by rwa [List.append_nil]⟩
  | cons c more ih =>
      intro p calls h hsrc hlen
      obtain ⟨hpos, hsmall⟩ := hlen c List.mem_cons_self
      obtain ⟨p₁, hcall, hpacked⟩ := call_packed h (hsrc c List.mem_cons_self) hpos hsmall
      obtain ⟨p₂, hrun, hpacked₂⟩ := ih p₁ (calls ++ [c]) hpacked
        (fun d hd => hsrc d (List.mem_cons_of_mem _ hd))
        (fun d hd => hlen d (List.mem_cons_of_mem _ hd))
      refine ⟨p₂, ?_, ?_⟩
      · rw [Runs.run, hcall]
        exact hrun
      · rw [List.append_assoc] at hpacked₂
        exact hpacked₂

theorem find_call {p : Packer} {pre post : List AddCall} {c : AddCall}
    (h : Packed p (pre ++ c :: post)) (hdistinct : ((pre ++ c :: post).map AddCall.id).Nodup)
    (hsmall : pre.length < 2 ^ 32) :
    p.table.find c.id =
      some (some (c.entry (p.data.writtenLen + (pre.flatMap AddCall.bytes).length))) := by
  apply TableStore.find_found h.table.shows (layout_getElem? _ pre post c) hsmall
  -- no entry before it has the id
  intro j e hj he
  rw [layout_append, List.getElem?_append_left (by rw [layout_length]; exact hj)] at he
  have hmem : e.id ∈ pre.map AddCall.id := by
    rw [← layout_call_id pre p.data.writtenLen]
    exact List.mem_map_of_mem (List.mem_of_getElem? he)
  rw [List.map_append, List.map_cons, List.nodup_append] at hdistinct
  exact hdistinct.2.2 _ hmem _ List.mem_cons_self

theorem restore_call {p : Packer} {pre post : List AddCall} {c : AddCall}
    (h : Packed p (pre ++ c :: post)) (hdistinct : ((pre ++ c :: post).map AddCall.id).Nodup)
    (hsmall : pre.length < 2 ^ 32) (hsrc : c.src ≠ 0) (hlen : c.len < 2 ^ 48)
    (mem : Cells UInt8) {dst l n : ℕ} (hdst : dst ≠ 0) (hn : (if l ≠ 0 then l else c.len) = n)
    (hpos : 0 < n) (hle : n ≤ c.len) :
    ∃ e, p.restore mem c.id dst l = some (some e, copyIn mem dst (c.bytes.take n)) := by
  let e := c.entry (p.data.writtenLen + (pre.flatMap AddCall.bytes).length)
  have hsize : e.size = c.len := Nat.mod_eq_of_lt hlen
  have hflat : e.size_.check Attr.knested = false := by
    show Attr.check ⟨c.len⟩ Attr.knested = false
    rw [Attr.check, Attr.attr, Nat.div_eq_of_lt hlen]
    decide
  have hread : p.data.getDataVolatile n e.offset = some (c.bytes.take n) :=
    h.read (by rw [c.bytes_length]; exact hle)
  refine ⟨e, ?_⟩
  rw [restore, find_call h hdistinct hsmall]
  simp only [Option.bind_eq_bind, Option.bind_some]
  rw [if_neg (by rintro (h0 | h0); exact hsrc h0; exact absurd (hsize.symm.trans h0) (by omega)),
    hsize, hn, hflat, if_neg hdst, hread]
  rfl

theorem packed_restores {p : Packer} {calls : List AddCall} (h : Packed p calls)
    (hwf : WellFormed calls) (hsmall : calls.length < 2 ^ 32) : Restores p calls := by
  refine ⟨?_, ?_, ?_⟩
  · intro c hc mem dst hdst
    obtain ⟨hpos, hlen⟩ := hwf.len c hc
    have hsrc := hwf.src c hc
    have hdistinct := hwf.distinct
    obtain ⟨pre, post, rfl⟩ := List.append_of_mem hc
    rw [List.length_append] at hsmall
    have hzero : (if 0 ≠ 0 then 0 else c.len) = c.len := if_neg (fun h => h rfl)
    obtain ⟨e, he⟩ := restore_call h hdistinct (by omega) hsrc hlen mem hdst hzero hpos (Nat.le_refl _)
    rw [List.take_of_length_le (Nat.le_of_eq c.bytes_length)] at he
    exact ⟨e, he⟩
  · intro c hc mem dst l hdst hl hle
    obtain ⟨hpos, hlen⟩ := hwf.len c hc
    have hsrc := hwf.src c hc
    have hdistinct := hwf.distinct
    obtain ⟨pre, post, rfl⟩ := List.append_of_mem hc
    rw [List.length_append] at hsmall
    exact restore_call h hdistinct (by omega) hsrc hlen mem hdst (if_pos (by omega)) hl hle
  · intro id habs mem dst l
    have hfind : p.table.find id = some none := by
      rw [TableStore.find_absent h.table.shows (layout_absent habs), layout_length, if_pos hsmall]
    rw [restore, hfind]
    rfl

theorem ofNat_nodup {n : ℕ} (hn : n ≤ 2 ^ 64) : ((List.range n).map UInt64.ofNat).Nodup := by
  apply List.Nodup.map_on _ List.nodup_range
  intro a ha b hb hab
  have := congrArg UInt64.toNat hab
  rw [List.mem_range] at ha hb
  rwa [UInt64.toNat_ofNat', UInt64.toNat_ofNat', Nat.mod_eq_of_lt (by omega),
    Nat.mod_eq_of_lt (by omega)] at this

theorem exists_fresh {ids : List UInt64} {n : ℕ} (hn : n ≤ 2 ^ 64) (h : ids.length < n) :
    ∃ id, id ∉ ids := by
  by_contra hall
  have hsub : (List.range n).map UInt64.ofNat ⊆ ids := by
    intro id _
    by_contra hid
    exact hall ⟨id, hid⟩
  have hle := (List.subperm_of_subset (ofNat_nodup hn) hsub).length_le
  rw [List.length_map, List.length_range] at hle
  omega

theorem length_le_total {calls : List AddCall} (h : ∀ c ∈ calls, 0 < c.len) :
    calls.length ≤ (calls.map AddCall.len).sum := by
  induction calls with
  | nil => exact Nat.le_refl _
  | cons c cs ih =>
      have hc := h c List.mem_cons_self
      have hcs := ih fun d hd => h d (List.mem_cons_of_mem _ hd)
      rw [List.map_cons, List.sum_cons, List.length_cons]
      omega

theorem packed_not_restores {p : Packer} {calls : List AddCall} (h : Packed p calls)
    (hwf : WellFormed calls) (hbig : 2 ^ 32 ≤ calls.length) : ¬ Restores p calls := by
  intro hrestores
  have hcount := length_le_total fun c hc => (hwf.len c hc).1
  have htotal := hwf.total
  obtain ⟨id, hid⟩ : ∃ id, id ∉ calls.map AddCall.id :=
    exists_fresh (Nat.le_refl (2 ^ 64)) (by rw [List.length_map]; omega)
  have habs : ∀ c ∈ calls, c.id ≠ id := by
    intro c hc heq
    exact hid (heq ▸ List.mem_map_of_mem hc)
  have hfind : p.table.find id = none := by
    rw [TableStore.find_absent h.table.shows (layout_absent habs), layout_length,
      if_neg (Nat.not_lt.mpr hbig)]
  have hgot := hrestores.absent id habs (fun _ => 0) 0 0
  rw [restore, hfind] at hgot
  cases hgot

theorem WellFormed.take {calls : List AddCall} (h : WellFormed calls) (k : ℕ) :
    WellFormed (calls.take k) := by
  refine ⟨fun c hc => h.src c (List.mem_of_mem_take hc),
    fun c hc => h.len c (List.mem_of_mem_take hc), ?_, ?_⟩
  · rw [List.map_take]
    exact h.distinct.sublist (List.take_sublist _ _)
  · rw [List.map_take]
    have hsplit : ((calls.map AddCall.len).take k ++ (calls.map AddCall.len).drop k).sum =
        ((calls.map AddCall.len).take k).sum + ((calls.map AddCall.len).drop k).sum :=
      List.sum_append
    rw [List.take_append_drop] at hsplit
    have := h.total
    omega

theorem run_take_packed {p : Packer} (h : Initial p) {calls : List AddCall}
    (hwf : WellFormed calls) (k : ℕ) :
    ∃ p', Runs.run call p (calls.take k) = some p' ∧ Packed p' (calls.take k) :=
  run_packed (calls.take k) p [] (h.stored) (hwf.take k).src (hwf.take k).len

/-- Everything preserved so far is restored at every point of a run, and nothing else is found,
exactly when the run makes fewer than `2 ^ 32` preservations. -/
theorem restores_iff_small {p : Packer} (h : Initial p) {calls : List AddCall}
    (hwf : WellFormed calls) :
    (∀ k ≤ calls.length, ∃ p', Runs.run call p (calls.take k) = some p' ∧
      Restores p' (calls.take k)) ↔ calls.length < 2 ^ 32 := by
  constructor
  · intro hall
    obtain ⟨p', hrun, hrestores⟩ := hall calls.length (Nat.le_refl _)
    obtain ⟨p'', hrun', hpacked⟩ := run_take_packed h hwf calls.length
    obtain rfl : p' = p'' := Option.some.inj (hrun.symm.trans hrun')
    rw [List.take_length] at hrestores hpacked
    by_contra hbig
    exact packed_not_restores hpacked hwf (Nat.le_of_not_lt hbig) hrestores
  · intro hsmall k hk
    obtain ⟨p', hrun, hpacked⟩ := run_take_packed h hwf k
    refine ⟨p', hrun, packed_restores hpacked (hwf.take k) ?_⟩
    rw [List.length_take]
    omega

def byteCall (n : ℕ) : AddCall := ⟨.add, fun _ => 7, 8, 1, UInt64.ofNat n⟩

theorem restores_of_two :
    ∃ p', Runs.run call tiny [byteCall 0, byteCall 1] = some p' ∧
      Restores p' [byteCall 0, byteCall 1] := by
  have hwf : WellFormed [byteCall 0, byteCall 1] := ⟨by decide, by decide, by decide, by decide⟩
  exact (restores_iff_small tiny_initial hwf).mpr (by decide) 2 (by decide)

def manyCalls (n : ℕ) : List AddCall := (List.range n).map byteCall

theorem manyCalls_wellFormed {n : ℕ} (hn : n < 2 ^ 63) : WellFormed (manyCalls n) := by
  refine ⟨?_, ?_, ?_, ?_⟩
  · intro c hc
    obtain ⟨i, -, rfl⟩ := List.mem_map.mp hc
    exact (by decide : 8 ≠ 0)
  · intro c hc
    obtain ⟨i, -, rfl⟩ := List.mem_map.mp hc
    exact (by decide : 0 < 1 ∧ 1 < 2 ^ 48)
  · rw [manyCalls, List.map_map]
    exact ofNat_nodup (by omega)
  · have hsum : ((manyCalls n).map AddCall.len).sum = n := by
      rw [manyCalls, List.map_map, show AddCall.len ∘ byteCall = fun _ => 1 from rfl,
        List.map_const', List.sum_replicate_nat, List.length_range, Nat.mul_one]
    omega

theorem large_table_not_searched :
    Initial tiny ∧ WellFormed (manyCalls (2 ^ 32)) ∧
      ¬ ∀ k ≤ (manyCalls (2 ^ 32)).length, ∃ p',
        Runs.run call tiny ((manyCalls (2 ^ 32)).take k) = some p' ∧
          Restores p' ((manyCalls (2 ^ 32)).take k) := by
  have hwf : WellFormed (manyCalls (2 ^ 32)) := manyCalls_wellFormed (by decide)
  have hlen : (manyCalls (2 ^ 32)).length = 2 ^ 32 := by
    rw [manyCalls, List.length_map, List.length_range]
  refine ⟨tiny_initial, hwf, fun hall => ?_⟩
  obtain ⟨p', hrun, hrestores⟩ := hall _ (Nat.le_refl _)
  obtain ⟨p'', hrun', hpacked⟩ := run_take_packed tiny_initial hwf (manyCalls (2 ^ 32)).length
  obtain rfl : p' = p'' := Option.some.inj (hrun.symm.trans hrun')
  rw [List.take_length] at hrestores hpacked
  exact packed_not_restores hpacked hwf (Nat.le_of_eq hlen.symm) hrestores

end Packer

end CDRuntime
