import CDRuntime.LibcLog

namespace CDRuntime.LibcLog

/-- An allocation with a serial number of its own, so that two blocks at one address at different
times are told apart. -/
structure Block where
  serial : ℕ
  addr : ℕ
  deriving DecidableEq, Repr

/-- The blocks that the real allocator has handed out, and those that it has taken back. -/
structure Heap where
  allocated : List Block
  freed : List Block
  deriving DecidableEq, Repr

/-- The real `free`. On an address that is not allocated it is undefined. -/
def Heap.free (h : Heap) (addr : ℕ) : Option Heap := do
  let b ← h.allocated.find? fun b => b.addr = addr
  some { allocated := h.allocated.filter fun b => b.addr ≠ addr, freed := b :: h.freed }

structure System where
  logger : Logger
  /-- The positions that the open scopes began at, the innermost first. -/
  scopes : List ℕ
  serial : ℕ
  heap : Heap
  live : List Block
  released : List Block

inductive Op
  | malloc (ret : ℕ)
  | calloc (ret : ℕ)
  | realloc (ptr ret : ℕ)
  | free (ptr : ℕ)
  | beginScope
  | completeScope
  deriving DecidableEq, Repr

namespace System

def start : System := ⟨.create, [], 0, ⟨[], []⟩, [], []⟩

def entries (st : System) : List LogEntry := st.logger.table.entries.getD []

/-- The application receives a block, unless the allocation has failed. -/
def receive (st : System) (ret : ℕ) : System :=
  if ret = 0 then st
  else
    let b := Block.mk st.serial ret
    { st with
      serial := st.serial + 1
      heap := { st.heap with allocated := b :: st.heap.allocated }
      live := b :: st.live }

def release (st : System) (ptr : ℕ) : System :=
  { st with
    live := st.live.filter fun b => b.addr ≠ ptr
    released := (st.live.filter fun b => b.addr = ptr) ++ st.released }

/-- A failed `realloc` leaves the old block to the application. -/
def step (st : System) : Op → Option System
  | .malloc ret => do
      let logger ← st.logger.malloc ret
      some ({ st with logger }.receive ret)
  | .calloc ret => do
      let logger ← st.logger.calloc ret
      some ({ st with logger }.receive ret)
  | .realloc ptr ret => do
      let logger ← st.logger.realloc ptr ret
      if ret = 0 then some { st with logger }
      else some (({ st with logger }.release ptr).receive ret)
  | .free ptr => do
      let logger ← st.logger.free ptr
      some ({ st with logger }.release ptr)
  | .beginScope => some { st with scopes := st.logger.set :: st.scopes }
  | .completeScope =>
      match st.scopes with
      | [] => none
      | b :: scopes => do
          let addrs ← st.logger.freeMemory b
          let heap ← addrs.foldlM Heap.free st.heap
          let logger ← st.logger.pushLogs b
          some { st with logger, heap, scopes }

/-- The pointers are live, and the real allocator does not hand out an allocated address. -/
def Admissible (st : System) : Op → Prop
  | .malloc ret => ∀ b ∈ st.heap.allocated, b.addr ≠ ret
  | .calloc ret => ∀ b ∈ st.heap.allocated, b.addr ≠ ret
  | .realloc ptr ret => (∀ b ∈ st.heap.allocated, b.addr ≠ ret) ∧ ∃ b ∈ st.live, b.addr = ptr
  | .free ptr => ∃ b ∈ st.live, b.addr = ptr
  | .beginScope => True
  | .completeScope => st.scopes ≠ []

instance (st : System) : (op : Op) → Decidable (Admissible st op)
  | .malloc ret => inferInstanceAs (Decidable (∀ b ∈ st.heap.allocated, b.addr ≠ ret))
  | .calloc ret => inferInstanceAs (Decidable (∀ b ∈ st.heap.allocated, b.addr ≠ ret))
  | .realloc ptr ret => inferInstanceAs
      (Decidable ((∀ b ∈ st.heap.allocated, b.addr ≠ ret) ∧ ∃ b ∈ st.live, b.addr = ptr))
  | .free ptr => inferInstanceAs (Decidable (∃ b ∈ st.live, b.addr = ptr))
  | .beginScope => .isTrue trivial
  | .completeScope => inferInstanceAs (Decidable (st.scopes ≠ []))

def Proper (st : System) : List Op → Prop
  | [] => True
  | op :: ops => Admissible st op ∧ ∀ st' ∈ step st op, Proper st' ops

instance decidableProper : ∀ (ops : List Op) (st : System), Decidable (Proper st ops)
  | [], _ => .isTrue trivial
  | op :: ops, st =>
      have := decidableProper ops
      inferInstanceAs (Decidable (Admissible st op ∧ ∀ st' ∈ step st op, Proper st' ops))

/-- The entries of `es` that stand for an allocation at `addr` and are to be pushed. -/
def pushedAt (es : List LogEntry) (addr : ℕ) : List LogEntry :=
  es.filter fun e => e.offset = addr ∧ e.size_.checkAny kNeedPushed

structure Safe (st : System) : Prop where
  distinct : (st.entries.map LogEntry.offset).Nodup
  allocated : ∀ e ∈ st.entries, ∃ b ∈ st.heap.allocated, b.addr = e.offset
  once : st.heap.freed.Nodup
  wanted : ∀ b ∈ st.heap.freed, b ∈ st.released
  pushed : ∀ b ∈ st.live, (pushedAt st.entries b.addr).length = 1

/-- A scope that completes has freed what the application has released of its entries. -/
def Completed (st : System) (op : Op) (st' : System) : Prop :=
  op = .completeScope → ∀ start ∈ st.scopes.head?, ∀ b ∈ st.released, ∀ i e, start ≤ i →
    st.entries[i]? = some e → e.offset = b.addr → b ∈ st'.heap.freed

/-- Every step returns, and every state of the run is safe. -/
def Sound (st : System) : List Op → Prop
  | [] => Safe st
  | op :: ops => Safe st ∧ ∃ st', step st op = some st' ∧ Completed st op st' ∧ Sound st' ops

/-- The allocation succeeds, and the search for a pointer and the compaction of the table stay
within the 32 bits of their indices. -/
def Clear (st : System) : Op → Prop
  | .malloc ret => ret ≠ 0
  | .calloc ret => ret ≠ 0
  | .realloc ptr ret =>
      ret ≠ 0 ∧ ∀ i e, st.entries[i]? = some e → e.offset = ptr → i < 2 ^ 32 - 1
  | .free ptr => ∀ i e, st.entries[i]? = some e → e.offset = ptr → i < 2 ^ 32
  | .beginScope => True
  | .completeScope => st.entries.length < 2 ^ 32

def AllClear (st : System) : List Op → Prop
  | [] => True
  | op :: ops => Clear st op ∧ ∀ st', step st op = some st' → AllClear st' ops

theorem offset_below_iff {es : List LogEntry} {ptr bound : ℕ} :
    (∀ p ∈ es.zipIdx, p.1.offset = ptr → p.2 < bound) ↔
      ∀ i e, es[i]? = some e → e.offset = ptr → i < bound := by
  constructor
  · intro h i e he
    exact h (e, i) (List.mk_mem_zipIdx_iff_getElem?.mpr he)
  · rintro h ⟨e, i⟩ hmem
    exact h i e (List.mk_mem_zipIdx_iff_getElem?.mp hmem)

instance (st : System) : (op : Op) → Decidable (Clear st op)
  | .malloc ret => inferInstanceAs (Decidable (ret ≠ 0))
  | .calloc ret => inferInstanceAs (Decidable (ret ≠ 0))
  | .realloc ptr ret => decidable_of_iff
      (ret ≠ 0 ∧ ∀ p ∈ st.entries.zipIdx, p.1.offset = ptr → p.2 < 2 ^ 32 - 1)
      (and_congr_right fun _ => offset_below_iff)
  | .free ptr => decidable_of_iff
      (∀ p ∈ st.entries.zipIdx, p.1.offset = ptr → p.2 < 2 ^ 32) offset_below_iff
  | .beginScope => .isTrue trivial
  | .completeScope => inferInstanceAs (Decidable (st.entries.length < 2 ^ 32))

instance decidableAllClear : ∀ (ops : List Op) (st : System), Decidable (AllClear st ops)
  | [], _ => .isTrue trivial
  | op :: ops, st =>
      have := decidableAllClear ops
      inferInstanceAs (Decidable (Clear st op ∧ ∀ st' ∈ step st op, AllClear st' ops))

def pushedAttr : Attr := .ofAttr kNeedPushed 0
def freedAttr : Attr := .ofAttr kNeedFreed 0

abbrev Owned := LogEntry × Block

/-- The state of a block shows in the attribute of its entry. -/
def Marked (st : System) (o : Owned) : Prop :=
  (o.1.size_ = pushedAttr ∧ o.2 ∈ st.live) ∨ (o.1.size_ = freedAttr ∧ o.2 ∈ st.released)

/-- The table lists the allocated blocks. -/
structure Inv (st : System) (os : List Owned) : Prop where
  holds : st.logger.table.Holds (os.map Prod.fst)
  offset : ∀ o ∈ os, o.1.offset = o.2.addr
  ids : ∀ o ∈ os, o.1.id < st.logger.libcId
  marked : ∀ o ∈ os, Marked st o
  addrs : (os.map fun o => o.2.addr).Nodup
  nonzero : ∀ o ∈ os, o.2.addr ≠ 0
  allocated : ∀ b, b ∈ st.heap.allocated ↔ b ∈ os.map Prod.snd
  live : ∀ b ∈ st.live, b ∈ os.map Prod.snd
  apart : ∀ b ∈ st.released, b ∉ st.live
  released : ∀ b ∈ st.released, b ∈ st.heap.freed ∨ b ∈ os.map Prod.snd
  freed : ∀ b ∈ st.heap.freed, b ∈ st.released ∧ b ∉ os.map Prod.snd
  once : st.heap.freed.Nodup
  serials : ∀ b, b ∈ os.map Prod.snd ∨ b ∈ st.released → b.serial < st.serial
  scopes : ∀ b ∈ st.scopes, b ≤ os.length
  nested : st.scopes.Pairwise fun inner outer => outer ≤ inner

variable {st : System} {os : List Owned}

theorem start_inv : Inv start [] where
  holds := Logger.create_holds
  offset := by simp
  ids := by simp
  marked := by simp
  addrs := by simp
  nonzero := by simp
  allocated := by simp [start]
  live := by simp [start]
  apart := by simp [start]
  released := by simp [start]
  freed := by simp [start]
  once := by simp [start]
  serials := by simp [start]
  scopes := by simp [start]
  nested := by simp [start]

theorem Inv.entries (h : Inv st os) : st.entries = os.map Prod.fst := by
  rw [System.entries, TableStore.entries_spec h.holds, Option.getD_some]

/-- An entry is determined by its address. -/
theorem Inv.unique (h : Inv st os) {o o' : Owned} (ho : o ∈ os) (ho' : o' ∈ os)
    (haddr : o.2.addr = o'.2.addr) : o = o' :=
  List.inj_on_of_nodup_map h.addrs ho ho' haddr

theorem Inv.offsets (h : Inv st os) :
    (os.map Prod.fst).map LogEntry.offset = os.map fun o => o.2.addr := by
  rw [List.map_map]
  exact List.map_congr_left h.offset

theorem marked_of_live (h : Inv st os) {o : Owned} (ho : o ∈ os) (hlive : o.2 ∈ st.live) :
    o.1.size_ = pushedAttr := by
  rcases h.marked o ho with hp | hf
  · exact hp.1
  · exact absurd hlive (h.apart _ hf.2)

theorem marked_of_released (h : Inv st os) {o : Owned} (ho : o ∈ os) (hrel : o.2 ∈ st.released) :
    o.1.size_ = freedAttr := by
  rcases h.marked o ho with hp | hf
  · exact absurd hp.2 (h.apart _ hrel)
  · exact hf.1

theorem pushedAttr_pushed : pushedAttr.checkAny kNeedPushed = true := by decide

theorem freedAttr_pushed : freedAttr.checkAny kNeedPushed = false := by decide

theorem pushedAttr_freed : pushedAttr.checkAny kNeedFreed = false := by decide

theorem freedAttr_freed : freedAttr.checkAny kNeedFreed = true := by decide

theorem Inv.safe (h : Inv st os) : Safe st where
  distinct := by
    rw [h.entries, h.offsets]
    exact h.addrs
  allocated := by
    intro e he
    rw [h.entries] at he
    obtain ⟨o, ho, rfl⟩ := List.mem_map.mp he
    exact ⟨o.2, (h.allocated _).mpr (List.mem_map_of_mem ho), (h.offset o ho).symm⟩
  once := h.once
  wanted b hb := (h.freed b hb).1
  pushed := by
    intro b hb
    obtain ⟨o, ho, rfl⟩ := List.mem_map.mp (h.live b hb)
    have hnodup : os.Nodup := List.Nodup.of_map _ h.addrs
    have hfilter : os.filter (fun p => p.1.offset = o.2.addr ∧ p.1.size_.checkAny kNeedPushed) =
        os.filter (fun p => p = o) := by
      apply List.filter_congr
      intro p hp
      rw [decide_eq_decide]
      constructor
      · rintro ⟨hoff, -⟩
        exact h.unique hp ho ((h.offset p hp).symm.trans hoff)
      · rintro rfl
        exact ⟨h.offset p hp, by rw [marked_of_live h hp hb, pushedAttr_pushed]⟩
    have hone : (os.filter fun p => p = o).length = 1 := by
      rw [List.filter_eq, List.count_eq_one_of_mem hnodup ho, List.length_replicate]
    calc (pushedAt st.entries o.2.addr).length
        = (os.filter fun p =>
            p.1.offset = o.2.addr ∧ p.1.size_.checkAny kNeedPushed).length := by
          rw [pushedAt, h.entries, List.filter_map, List.length_map]
          rfl
      _ = (os.filter fun p => p = o).length := by rw [hfilter]
      _ = 1 := hone

theorem freed_of_pushed {e : LogEntry} (h : e.size_ = pushedAttr) :
    e.freed.size_ = freedAttr := by
  show (e.size_.unset kNeedPushed).set kNeedFreed = freedAttr
  rw [h]
  decide

theorem receive_eq {ret : ℕ} (hret : ret ≠ 0) :
    st.receive ret = { st with
      serial := st.serial + 1
      heap := { st.heap with allocated := ⟨st.serial, ret⟩ :: st.heap.allocated }
      live := ⟨st.serial, ret⟩ :: st.live } := by
  rw [receive, if_neg hret]

theorem Inv.receive (h : Inv st os) {ret : ℕ} (hret : ret ≠ 0)
    (hfresh : ∀ b ∈ st.heap.allocated, b.addr ≠ ret) (ftype : FTID) {g : Logger}
    (hg : g.table.Holds
      (os.map Prod.fst ++ [.ofAttr st.logger.libcId ftype kNeedPushed ret]))
    (hid : g.libcId = st.logger.libcId + 1) :
    Inv ({ st with logger := g }.receive ret)
      (os ++ [(.ofAttr st.logger.libcId ftype kNeedPushed ret, ⟨st.serial, ret⟩)]) := by
  have hnew : ∀ b ∈ os.map Prod.snd, b.addr ≠ ret := fun b hb => hfresh b ((h.allocated b).mpr hb)
  -- the serial number of the block has not been used
  have hserial : ∀ b, b ∈ os.map Prod.snd ∨ b ∈ st.released → b ≠ ⟨st.serial, ret⟩ := by
    rintro b hb rfl
    exact Nat.lt_irrefl _ (h.serials _ hb)
  rw [receive_eq hret]
  constructor
  · rw [List.map_append]
    exact hg
  · intro o ho
    rcases List.mem_append.mp ho with ho | ho
    · exact h.offset o ho
    · rw [List.mem_singleton.mp ho]
      rfl
  · intro o ho
    show o.1.id < g.libcId
    rcases List.mem_append.mp ho with ho | ho
    · have := h.ids o ho
      omega
    · rw [List.mem_singleton.mp ho, hid]
      exact Nat.lt_succ_self _
  · intro o ho
    rcases List.mem_append.mp ho with ho | ho
    · rcases h.marked o ho with ⟨hp, hl⟩ | hf
      · exact .inl ⟨hp, List.mem_cons_of_mem _ hl⟩
      · exact .inr hf
    · rw [List.mem_singleton.mp ho]
      exact .inl ⟨rfl, List.mem_cons_self⟩
  · rw [List.map_append, List.map_singleton, List.nodup_append]
    refine ⟨h.addrs, List.nodup_singleton _, ?_⟩
    intro a ha b hb
    obtain ⟨o, ho, rfl⟩ := List.mem_map.mp ha
    rw [List.mem_singleton.mp hb]
    exact hnew _ (List.mem_map_of_mem ho)
  · intro o ho
    rcases List.mem_append.mp ho with ho | ho
    · exact h.nonzero o ho
    · rw [List.mem_singleton.mp ho]
      exact hret
  · intro b
    show b ∈ (_ : Block) :: st.heap.allocated ↔ _
    rw [List.mem_cons, h.allocated, List.map_append, List.mem_append, List.map_singleton,
      List.mem_singleton, or_comm]
  · intro b hb
    rw [List.map_append, List.mem_append]
    rcases List.mem_cons.mp hb with rfl | hb
    · exact .inr (List.mem_singleton.mpr rfl)
    · exact .inl (h.live b hb)
  · intro b hb hlive
    rcases List.mem_cons.mp hlive with rfl | hlive
    · exact hserial _ (.inr hb) rfl
    · exact h.apart b hb hlive
  · intro b hb
    rw [List.map_append, List.mem_append]
    rcases h.released b hb with hf | ho
    · exact .inl hf
    · exact .inr (.inl ho)
  · intro b hb
    obtain ⟨hrel, hnot⟩ := h.freed b hb
    refine ⟨hrel, ?_⟩
    rw [List.map_append, List.mem_append, List.map_singleton, List.mem_singleton]
    rintro (ho | heq)
    · exact hnot ho
    · exact hserial b (.inr hrel) heq
  · exact h.once
  · intro b hb
    show b.serial < st.serial + 1
    rw [List.map_append, List.mem_append, List.map_singleton, List.mem_singleton] at hb
    rcases hb with (hb | rfl) | hb
    · exact Nat.lt_succ_of_lt (h.serials b (.inl hb))
    · exact Nat.lt_succ_self _
    · exact Nat.lt_succ_of_lt (h.serials b (.inr hb))
  · intro b hb
    rw [List.length_append]
    exact Nat.le_add_right_of_le (h.scopes b hb)
  · exact h.nested

theorem mem_set_owned (h : Inv st os) {k : ℕ} {o p q : Owned} (hk : os[k]? = some o)
    (hp : p ∈ os.set k q) : p = q ∨ (p ∈ os ∧ p.2.addr ≠ o.2.addr) := by
  obtain ⟨j, hj⟩ := List.mem_iff_getElem?.mp hp
  by_cases hkj : k = j
  · subst hkj
    have hlen := (List.getElem?_eq_some_iff.mp hk).1
    rw [List.getElem?_set_self hlen] at hj
    exact .inl (Option.some.inj hj).symm
  · rw [List.getElem?_set_ne hkj] at hj
    refine .inr ⟨List.mem_of_getElem? hj, ?_⟩
    intro haddr
    have hpo := h.unique (List.mem_of_getElem? hj) (List.mem_of_getElem? hk) haddr
    subst hpo
    have hnodup : os.Nodup := List.Nodup.of_map _ h.addrs
    have hlen := (List.getElem?_eq_some_iff.mp hk).1
    exact hkj ((List.getElem?_inj hlen hnodup).mp (hk.trans hj.symm))

theorem map_set_owned {β : Type*} {k : ℕ} {o : Owned} (hk : os[k]? = some o) (e : LogEntry)
    (φ : Block → β) : (os.set k (e, o.2)).map (fun p => φ p.2) = os.map fun p => φ p.2 := by
  apply List.ext_getElem?
  intro j
  rw [List.getElem?_map, List.getElem?_map]
  by_cases hkj : k = j
  · subst hkj
    rw [List.getElem?_set_self (List.getElem?_eq_some_iff.mp hk).1, hk]
    rfl
  · rw [List.getElem?_set_ne hkj]

theorem Inv.release (h : Inv st os) {k : ℕ} {o : Owned} (hk : os[k]? = some o)
    (hlive : o.2 ∈ st.live) {g : Logger}
    (hg : g.table.Holds ((os.map Prod.fst).set k o.1.freed))
    (hid : st.logger.libcId ≤ g.libcId) :
    Inv ({ st with logger := g }.release o.2.addr) (os.set k (o.1.freed, o.2)) := by
  have ho : o ∈ os := List.mem_of_getElem? hk
  have hsnd : (os.set k (o.1.freed, o.2)).map Prod.snd = os.map Prod.snd :=
    map_set_owned hk _ fun b => b
  have hkeep : ∀ b, b ∈ st.released → b ∈ ({ st with logger := g }.release o.2.addr).released :=
    fun b hb => List.mem_append_right _ hb
  constructor
  · rw [List.map_set]
    exact hg
  · intro p hp
    rcases mem_set_owned h hk hp with rfl | ⟨hp, -⟩
    · exact h.offset o ho
    · exact h.offset p hp
  · intro p hp
    show p.1.id < g.libcId
    rcases mem_set_owned h hk hp with rfl | ⟨hp, -⟩
    · exact Nat.lt_of_lt_of_le (h.ids o ho) hid
    · exact Nat.lt_of_lt_of_le (h.ids p hp) hid
  · intro p hp
    rcases mem_set_owned h hk hp with rfl | ⟨hp, haddr⟩
    · refine .inr ⟨freed_of_pushed (marked_of_live h ho hlive), List.mem_append_left _ ?_⟩
      exact List.mem_filter.mpr ⟨hlive, decide_eq_true rfl⟩
    · rcases h.marked p hp with ⟨hpush, hl⟩ | ⟨hfree, hr⟩
      · exact .inl ⟨hpush, List.mem_filter.mpr ⟨hl, decide_eq_true haddr⟩⟩
      · exact .inr ⟨hfree, hkeep _ hr⟩
  · rw [map_set_owned hk _ Block.addr]
    exact h.addrs
  · intro p hp
    rcases mem_set_owned h hk hp with rfl | ⟨hp, -⟩
    · exact h.nonzero o ho
    · exact h.nonzero p hp
  · intro b
    rw [hsnd]
    exact h.allocated b
  · intro b hb
    rw [hsnd]
    exact h.live b (List.mem_filter.mp hb).1
  · intro b hb hb'
    obtain ⟨hl, haddr⟩ := List.mem_filter.mp hb'
    rcases List.mem_append.mp hb with hb | hb
    · exact of_decide_eq_true haddr (of_decide_eq_true (List.mem_filter.mp hb).2)
    · exact h.apart b hb hl
  · intro b hb
    rw [hsnd]
    rcases List.mem_append.mp hb with hb | hb
    · exact .inr (h.live b (List.mem_filter.mp hb).1)
    · exact h.released b hb
  · intro b hb
    rw [hsnd]
    obtain ⟨hrel, hnot⟩ := h.freed b hb
    exact ⟨hkeep b hrel, hnot⟩
  · exact h.once
  · intro b hb
    rw [hsnd] at hb
    rcases hb with hb | hb
    · exact h.serials b (.inl hb)
    · rcases List.mem_append.mp hb with hb | hb
      · exact h.serials b (.inl (h.live b (List.mem_filter.mp hb).1))
      · exact h.serials b (.inr hb)
  · intro b hb
    rw [List.length_set]
    exact h.scopes b hb
  · exact h.nested

theorem free_of_mem {heap : Heap} {b : Block} (hb : b ∈ heap.allocated)
    (hinj : ∀ b ∈ heap.allocated, ∀ b' ∈ heap.allocated, b.addr = b'.addr → b = b') :
    heap.free b.addr = some
      { allocated := heap.allocated.filter fun b' => b'.addr ≠ b.addr, freed := b :: heap.freed } := by
  have hfind : heap.allocated.find? (fun b' => b'.addr = b.addr) = some b := by
    cases hf : heap.allocated.find? (fun b' => b'.addr = b.addr) with
    | none =>
        have := List.find?_eq_none.mp hf b hb
        exact absurd (decide_eq_true rfl) this
    | some b' =>
        have haddr : b'.addr = b.addr := by simpa using List.find?_some hf
        rw [hinj b' (List.mem_of_find?_eq_some hf) b hb haddr]
  rw [Heap.free, hfind]
  rfl

theorem frees_spec (xs : List Owned) : ∀ heap : Heap, (∀ x ∈ xs, x.2 ∈ heap.allocated) →
    (∀ b ∈ heap.allocated, ∀ b' ∈ heap.allocated, b.addr = b'.addr → b = b') →
    (xs.map fun x => x.2.addr).Nodup →
    ∃ heap', (xs.map fun x => x.2.addr).foldlM Heap.free heap = some heap' ∧
      (∀ b, b ∈ heap'.allocated ↔ b ∈ heap.allocated ∧ ∀ x ∈ xs, x.2.addr ≠ b.addr) ∧
      heap'.freed = (xs.map Prod.snd).reverse ++ heap.freed := by
  induction xs with
  | nil =>
      intro heap _ _ _
      exact ⟨heap, rfl, by simp, rfl⟩
  | cons x xs ih =>
      intro heap hmem hinj hnodup
      obtain ⟨hx, hrest⟩ := List.nodup_cons.mp hnodup
      have hfree := free_of_mem (hmem x List.mem_cons_self) hinj
      generalize hheap : Heap.mk _ _ = heap₁ at hfree
      have hsub : ∀ b, b ∈ heap₁.allocated ↔ b ∈ heap.allocated ∧ b.addr ≠ x.2.addr := by
        intro b
        rw [← hheap]
        simp only [List.mem_filter, decide_eq_true_eq]
      have hmem₁ : ∀ y ∈ xs, y.2 ∈ heap₁.allocated := by
        intro y hy
        refine (hsub _).mpr ⟨hmem y (List.mem_cons_of_mem _ hy), ?_⟩
        intro haddr
        exact hx (List.mem_map.mpr ⟨y, hy, haddr⟩)
      obtain ⟨heap', hfold, halloc, hfreed⟩ := ih heap₁ hmem₁
        (fun b hb b' hb' => hinj b ((hsub b).mp hb).1 b' ((hsub b').mp hb').1) hrest
      refine ⟨heap', ?_, ?_, ?_⟩
      · rw [List.map_cons, List.foldlM_cons, hfree]
        exact hfold
      · intro b
        rw [halloc, hsub, List.forall_mem_cons, and_assoc]
        simp only [ne_comm]
      · rw [hfreed, ← hheap, List.map_cons, List.reverse_cons, List.append_assoc]
        rfl

section Complete

variable (os)

def dropped (start : ℕ) : List Owned :=
  (os.drop start).filter fun o => o.1.size_.checkAny kNeedFreed

def kept (start : ℕ) : List Owned :=
  os.take start ++ (os.drop start).filter fun o => o.1.size_.checkAny kNeedPushed

variable {os}

theorem kept_sublist (start : ℕ) : (kept os start).Sublist os := by
  have h := (List.Sublist.refl (os.take start)).append
    (List.filter_sublist (l := os.drop start) (p := fun o => o.1.size_.checkAny kNeedPushed))
  rwa [List.take_append_drop] at h

theorem mem_dropped {start : ℕ} {o : Owned} :
    o ∈ dropped os start ↔ o ∈ os.drop start ∧ o.1.size_.checkAny kNeedFreed = true :=
  List.mem_filter

theorem dropped_released (h : Inv st os) {start : ℕ} {o : Owned} (ho : o ∈ dropped os start) :
    o ∈ os ∧ o.2 ∈ st.released := by
  obtain ⟨hdrop, hattr⟩ := mem_dropped.mp ho
  have hos : o ∈ os := List.mem_of_mem_drop hdrop
  refine ⟨hos, ?_⟩
  rcases h.marked o hos with ⟨hp, -⟩ | ⟨-, hr⟩
  · rw [hp, pushedAttr_freed] at hattr
    exact absurd hattr (by decide)
  · exact hr

theorem mem_kept (h : Inv st os) {start : ℕ} {o : Owned} :
    o ∈ kept os start ↔ o ∈ os ∧ o ∉ dropped os start := by
  have hnodup : os.Nodup := List.Nodup.of_map _ h.addrs
  constructor
  · intro ho
    refine ⟨(kept_sublist start).subset ho, ?_⟩
    intro hdrop
    rcases List.mem_append.mp ho with ho | ho
    · exact List.disjoint_take_drop hnodup (Nat.le_refl _) ho (mem_dropped.mp hdrop).1
    · have hos := dropped_released h hdrop
      have hattr := (List.mem_filter.mp ho).2
      rw [marked_of_released h hos.1 hos.2, freedAttr_pushed] at hattr
      exact absurd hattr (by decide)
  · rintro ⟨ho, hnot⟩
    rw [← List.take_append_drop start os] at ho
    rcases List.mem_append.mp ho with ho | ho
    · exact List.mem_append_left _ ho
    · apply List.mem_append_right
      refine List.mem_filter.mpr ⟨ho, ?_⟩
      rcases h.marked o (List.mem_of_mem_drop ho) with ⟨hp, -⟩ | ⟨hf, -⟩
      · rw [hp, pushedAttr_pushed]
      · exact absurd (mem_dropped.mpr ⟨ho, by rw [hf, freedAttr_freed]⟩) hnot

theorem mem_kept_snd (h : Inv st os) {start : ℕ} {b : Block} :
    b ∈ (kept os start).map Prod.snd ↔
      b ∈ os.map Prod.snd ∧ ∀ x ∈ dropped os start, x.2.addr ≠ b.addr := by
  constructor
  · intro hb
    obtain ⟨o, ho, rfl⟩ := List.mem_map.mp hb
    obtain ⟨hos, hnot⟩ := (mem_kept h).mp ho
    refine ⟨List.mem_map_of_mem hos, ?_⟩
    intro x hx haddr
    exact hnot (h.unique (dropped_released h hx).1 hos haddr ▸ hx)
  · rintro ⟨hb, hne⟩
    obtain ⟨o, ho, rfl⟩ := List.mem_map.mp hb
    exact List.mem_map_of_mem ((mem_kept h).mpr ⟨ho, fun hx => hne o hx rfl⟩)

theorem dropped_sublist (start : ℕ) : (dropped os start).Sublist os :=
  List.filter_sublist.trans (List.drop_sublist start os)

theorem Inv.complete (h : Inv st os) {start : ℕ} {scopes : List ℕ}
    (hscopes : st.scopes = start :: scopes) {g : Logger} {heap : Heap}
    (hg : g.table.Holds ((kept os start).map Prod.fst)) (hid : g.libcId = st.logger.libcId)
    (halloc : ∀ b, b ∈ heap.allocated ↔
      b ∈ st.heap.allocated ∧ ∀ x ∈ dropped os start, x.2.addr ≠ b.addr)
    (hfreed : heap.freed = ((dropped os start).map Prod.snd).reverse ++ st.heap.freed) :
    Inv { st with logger := g, heap, scopes } (kept os start) := by
  have hsub : (kept os start).Sublist os := kept_sublist start
  have hmem : ∀ {b}, b ∈ heap.freed ↔ b ∈ (dropped os start).map Prod.snd ∨ b ∈ st.heap.freed := by
    intro b
    rw [hfreed, List.mem_append, List.mem_reverse]
  have hstart : start ≤ os.length := h.scopes start (by rw [hscopes]; exact List.mem_cons_self)
  constructor
  · exact hg
  · exact fun o ho => h.offset o (hsub.subset ho)
  · intro o ho
    show o.1.id < g.libcId
    rw [hid]
    exact h.ids o (hsub.subset ho)
  · exact fun o ho => h.marked o (hsub.subset ho)
  · exact h.addrs.sublist (hsub.map _)
  · exact fun o ho => h.nonzero o (hsub.subset ho)
  · intro b
    rw [halloc, h.allocated, mem_kept_snd h]
  · -- a live block is not dropped
    intro b hb
    refine (mem_kept_snd h).mpr ⟨h.live b hb, ?_⟩
    intro x hx haddr
    obtain ⟨o, ho, rfl⟩ := List.mem_map.mp (h.live b hb)
    obtain ⟨hxs, hrel⟩ := dropped_released h hx
    rw [h.unique hxs ho haddr] at hrel
    exact h.apart _ hrel hb
  · exact h.apart
  · intro b hb
    rcases h.released b hb with hf | ho
    · exact .inl (hmem.mpr (.inr hf))
    · obtain ⟨o, hos, rfl⟩ := List.mem_map.mp ho
      by_cases hx : o ∈ dropped os start
      · exact .inl (hmem.mpr (.inl (List.mem_map_of_mem hx)))
      · exact .inr (List.mem_map_of_mem ((mem_kept h).mpr ⟨hos, hx⟩))
  · intro b hb
    rw [mem_kept_snd h]
    rcases hmem.mp hb with hb | hb
    · obtain ⟨x, hx, rfl⟩ := List.mem_map.mp hb
      exact ⟨(dropped_released h hx).2, fun hk => hk.2 x hx rfl⟩
    · obtain ⟨hrel, hnot⟩ := h.freed b hb
      exact ⟨hrel, fun hk => hnot hk.1⟩
  · show heap.freed.Nodup
    rw [hfreed, List.nodup_append]
    have hblocks : (os.map Prod.snd).Nodup := by
      apply List.Nodup.of_map Block.addr
      rw [List.map_map]
      exact h.addrs
    refine ⟨List.nodup_reverse.mpr (hblocks.sublist ((dropped_sublist start).map _)), h.once, ?_⟩
    rintro b hb b' hb' rfl
    obtain ⟨x, hx, rfl⟩ := List.mem_map.mp (List.mem_reverse.mp hb)
    exact (h.freed _ hb').2 (List.mem_map_of_mem (dropped_released h hx).1)
  · rintro b (hb | hb)
    · exact h.serials b (.inl ((mem_kept_snd h).mp hb).1)
    · exact h.serials b (.inr hb)
  · intro b hb
    have hnested := h.nested
    rw [hscopes, List.pairwise_cons] at hnested
    have hle := hnested.1 b hb
    rw [kept, List.length_append, List.length_take]
    omega
  · have hnested := h.nested
    rw [hscopes] at hnested
    exact hnested.tail

end Complete

theorem Inv.nodup (h : Inv st os) : ((os.map Prod.fst).map LogEntry.offset).Nodup := by
  rw [h.offsets]
  exact h.addrs

theorem Inv.index_unique (h : Inv st os) {i k : ℕ} {e e' : LogEntry}
    (hi : st.entries[i]? = some e) (hk : st.entries[k]? = some e') (hoff : e.offset = e'.offset) :
    i = k := by
  have hnodup := h.nodup
  rw [← h.entries] at hnodup
  have hlt : i < (st.entries.map LogEntry.offset).length := by
    rw [List.length_map]
    exact (List.getElem?_eq_some_iff.mp hi).1
  apply (List.getElem?_inj hlt hnodup).mp
  rw [List.getElem?_map, List.getElem?_map, hi, hk, Option.map_some, Option.map_some, hoff]

/-- The entry of a live pointer. -/
theorem Inv.find (h : Inv st os) {ptr : ℕ} (hptr : ∃ b ∈ st.live, b.addr = ptr) :
    ∃ (k : ℕ) (o : Owned), os[k]? = some o ∧ o.2 ∈ st.live ∧ o.1.offset = ptr ∧ o.2.addr = ptr ∧
      (os.map Prod.fst)[k]? = some o.1 := by
  obtain ⟨b, hb, rfl⟩ := hptr
  obtain ⟨o, ho, rfl⟩ := List.mem_map.mp (h.live b hb)
  obtain ⟨k, hk⟩ := List.mem_iff_getElem?.mp ho
  exact ⟨k, o, hk, hb, h.offset o ho, rfl, by rw [List.getElem?_map, hk, Option.map_some]⟩

theorem Inv.fresh (h : Inv st os) {ret : ℕ} (hfresh : ∀ b ∈ st.heap.allocated, b.addr ≠ ret) :
    ∀ e ∈ os.map Prod.fst, e.offset ≠ ret := by
  intro e he
  obtain ⟨o, ho, rfl⟩ := List.mem_map.mp he
  rw [h.offset o ho]
  exact hfresh _ ((h.allocated _).mpr (List.mem_map_of_mem ho))

theorem release_receive {ptr ret : ℕ} (hne : ret ≠ ptr) :
    (st.release ptr).receive ret = (st.receive ret).release ptr := by
  by_cases hret : ret = 0
  · rw [receive, receive, if_pos hret, if_pos hret]
  · rw [receive_eq hret, receive_eq hret]
    simp [release, hne]

theorem step_malloc (h : Inv st os) (ret : ℕ) :
    ∃ g, step st (.malloc ret) = some ({ st with logger := g }.receive ret) ∧
      g.libcId = st.logger.libcId + 1 ∧ g.table.Holds
        (os.map Prod.fst ++ [.ofAttr st.logger.libcId .malloc kNeedPushed ret]) := by
  have hids : ∀ e ∈ os.map Prod.fst, e.id < st.logger.libcId := by
    intro e he
    obtain ⟨o, ho, rfl⟩ := List.mem_map.mp he
    exact h.ids o ho
  obtain ⟨g, hg, hid, hholds⟩ := Logger.malloc_spec h.holds hids ret
  exact ⟨g, by simp only [step, hg, Option.bind_eq_bind, Option.bind_some], hid, hholds⟩

theorem step_calloc (h : Inv st os) (ret : ℕ) :
    ∃ g, step st (.calloc ret) = some ({ st with logger := g }.receive ret) ∧
      g.libcId = st.logger.libcId + 1 ∧ g.table.Holds
        (os.map Prod.fst ++ [.ofAttr st.logger.libcId .calloc kNeedPushed ret]) := by
  obtain ⟨g, hg, hid, hholds⟩ := Logger.calloc_spec h.holds ret
  exact ⟨g, by simp only [step, hg, Option.bind_eq_bind, Option.bind_some], hid, hholds⟩

/-- The addresses that a completion frees, and the table that it leaves. -/
theorem step_complete (h : Inv st os) {start : ℕ} {scopes : List ℕ}
    (hscopes : st.scopes = start :: scopes) (hsmall : os.length < 2 ^ 32) :
    ∃ g heap, step st .completeScope = some { st with logger := g, heap, scopes } ∧
      g.table.Holds ((kept os start).map Prod.fst) ∧ g.libcId = st.logger.libcId ∧
      (∀ b, b ∈ heap.allocated ↔
        b ∈ st.heap.allocated ∧ ∀ x ∈ dropped os start, x.2.addr ≠ b.addr) ∧
      heap.freed = ((dropped os start).map Prod.snd).reverse ++ st.heap.freed := by
  have hlen : (os.map Prod.fst).length < 2 ^ 32 := by rwa [List.length_map]
  have hstart : start ≤ (os.map Prod.fst).length := by
    rw [List.length_map]
    exact h.scopes start (by rw [hscopes]; exact List.mem_cons_self)
  have hdropped : (withAttr kNeedFreed ((os.map Prod.fst).drop start)).map LogEntry.offset =
      (dropped os start).map fun x => x.2.addr := by
    rw [withAttr, ← List.map_drop, List.filter_map, List.map_map]
    apply List.map_congr_left
    intro o ho
    exact h.offset o (List.mem_of_mem_drop (List.mem_filter.mp ho).1)
  have hkept : (os.map Prod.fst).take start ++ withAttr kNeedPushed ((os.map Prod.fst).drop start) =
      (kept os start).map Prod.fst := by
    rw [withAttr, ← List.map_drop, ← List.map_take, List.filter_map, kept, List.map_append]
    rfl
  have hmem : ∀ x ∈ dropped os start, x.2 ∈ st.heap.allocated := fun x hx =>
    (h.allocated _).mpr (List.mem_map_of_mem (dropped_released h hx).1)
  have hinj : ∀ b ∈ st.heap.allocated, ∀ b' ∈ st.heap.allocated, b.addr = b'.addr → b = b' := by
    intro b hb b' hb' haddr
    obtain ⟨o, ho, rfl⟩ := List.mem_map.mp ((h.allocated b).mp hb)
    obtain ⟨o', ho', rfl⟩ := List.mem_map.mp ((h.allocated b').mp hb')
    rw [h.unique ho ho' haddr]
  obtain ⟨heap, hfold, halloc, hfreed⟩ := frees_spec (dropped os start) st.heap hmem hinj
    (h.addrs.sublist ((dropped_sublist start).map _))
  obtain ⟨g, hpush, hid, hholds⟩ := Logger.pushLogs_spec h.holds hlen hstart
  refine ⟨g, heap, ?_, hkept ▸ hholds, hid, halloc, hfreed⟩
  simp only [step, hscopes, Logger.freeMemory_spec h.holds hlen hstart, hdropped, hfold, hpush,
    Option.bind_eq_bind, Option.bind_some]

theorem Inv.realloc (h : Inv st os) {k : ℕ} {o : Owned} (hk : os[k]? = some o)
    (hlive : o.2 ∈ st.live) {ret : ℕ} (hret : ret ≠ 0)
    (hfresh : ∀ b ∈ st.heap.allocated, b.addr ≠ ret) {g : Logger}
    (hg : g.table.Holds ((os.map Prod.fst ++
      [LogEntry.ofAttr st.logger.libcId .realloc kNeedPushed ret]).set k o.1.freed))
    (hid : g.libcId = st.logger.libcId + 1) :
    Inv (({ st with logger := g }.receive ret).release o.2.addr)
      ((os ++ [(LogEntry.ofAttr st.logger.libcId .realloc kNeedPushed ret,
        Block.mk st.serial ret)]).set k (o.1.freed, o.2)) := by
  obtain ⟨g₁, -, hholds₁, -⟩ := Logger.add_spec h.holds
    (.ofAttr st.logger.libcId .realloc kNeedPushed ret)
  -- the state after the allocation, as if a call of its own had made it
  have hmid := h.receive hret hfresh .realloc (g := { g₁ with libcId := st.logger.libcId + 1 })
    hholds₁ rfl
  have hk' : (os ++ [(LogEntry.ofAttr st.logger.libcId .realloc kNeedPushed ret,
      Block.mk st.serial ret)])[k]? = some o := by
    rw [List.getElem?_append_left (List.getElem?_eq_some_iff.mp hk).1, hk]
  rw [receive_eq hret] at hmid ⊢
  apply hmid.release hk' (List.mem_cons_of_mem _ hlive)
  · rw [List.map_append]
    exact hg
  · exact Nat.le_of_eq hid.symm

theorem Inv.beginScope (h : Inv st os) :
    Inv { st with scopes := st.logger.set :: st.scopes } os where
  holds := h.holds
  offset := h.offset
  ids := h.ids
  marked := h.marked
  addrs := h.addrs
  nonzero := h.nonzero
  allocated := h.allocated
  live := h.live
  apart := h.apart
  released := h.released
  freed := h.freed
  once := h.once
  serials := h.serials
  scopes := by
    rw [Logger.set_spec h.holds, List.length_map]
    exact List.forall_mem_cons.mpr ⟨Nat.le_refl _, h.scopes⟩
  nested := by
    rw [Logger.set_spec h.holds, List.length_map]
    exact List.pairwise_cons.mpr ⟨h.scopes, h.nested⟩

theorem Inv.released_entry (h : Inv st os) {start i : ℕ} {b : Block} {e : LogEntry}
    (hb : b ∈ st.released) (hi : start ≤ i) (he : (os.map Prod.fst)[i]? = some e)
    (hoff : e.offset = b.addr) :
    b ∈ st.heap.freed ∨ b ∈ (dropped os start).map Prod.snd := by
  rcases h.released b hb with hf | ho
  · exact .inl hf
  · obtain ⟨o, hos, rfl⟩ := List.mem_map.mp ho
    rw [List.getElem?_map, Option.map_eq_some_iff] at he
    obtain ⟨o', hget, rfl⟩ := he
    have ho' : o' ∈ os := List.mem_of_getElem? hget
    have heq : o' = o := h.unique ho' hos ((h.offset o' ho').symm.trans hoff)
    subst heq
    have hdrop : o' ∈ os.drop start := by
      apply List.mem_of_getElem? (i := i - start)
      rw [List.getElem?_drop, Nat.add_sub_cancel' hi, hget]
    refine .inr (List.mem_map_of_mem (mem_dropped.mpr ⟨hdrop, ?_⟩))
    rw [marked_of_released h ho' hb, freedAttr_freed]

theorem step_clear (h : Inv st os) {op : Op} (hadm : Admissible st op) (hclear : Clear st op) :
    ∃ st' os', step st op = some st' ∧ Inv st' os' ∧ Completed st op st' := by
  cases op with
  | malloc ret =>
      obtain ⟨g, hstep, hid, hholds⟩ := step_malloc h ret
      exact ⟨_, _, hstep, h.receive hclear hadm _ hholds hid, fun hop => (by cases hop)⟩
  | calloc ret =>
      obtain ⟨g, hstep, hid, hholds⟩ := step_calloc h ret
      exact ⟨_, _, hstep, h.receive hclear hadm _ hholds hid, fun hop => (by cases hop)⟩
  | realloc ptr ret =>
      obtain ⟨k, o, hk, hlive, hoff, haddr, hfst⟩ := h.find hadm.2
      obtain ⟨hret, hindex⟩ := hclear
      rw [h.entries] at hindex
      have hspec := Logger.realloc_spec h.holds h.nodup hfst (h.fresh hadm.1)
      rw [if_pos (hindex k _ hfst hoff), hoff] at hspec
      obtain ⟨g, hg, hid, hholds⟩ := hspec
      have hne : ret ≠ ptr := by
        rintro rfl
        exact h.fresh hadm.1 _ (List.mem_of_getElem? hfst) hoff
      have hinv := h.realloc hk hlive hret hadm.1 hholds hid
      rw [haddr, ← release_receive hne] at hinv
      refine ⟨_, _, ?_, hinv, fun hop => (by cases hop)⟩
      simp only [step, hg, if_neg hret, Option.bind_eq_bind, Option.bind_some]
  | free ptr =>
      obtain ⟨k, o, hk, hlive, hoff, haddr, hfst⟩ := h.find hadm
      have hnz : o.1.offset ≠ 0 := by
        rw [h.offset o (List.mem_of_getElem? hk)]
        exact h.nonzero o (List.mem_of_getElem? hk)
      have hsmall : k < 2 ^ 32 := hclear k _ (by rw [h.entries]; exact hfst) hoff
      obtain ⟨g, hg, hid, hholds⟩ := Logger.free_spec h.holds h.nodup hfst hnz hsmall
      rw [hoff] at hg
      have hinv := h.release hk hlive hholds (by omega)
      rw [haddr] at hinv
      refine ⟨_, _, ?_, hinv, fun hop => (by cases hop)⟩
      simp only [step, hg, Option.bind_eq_bind, Option.bind_some]
  | beginScope =>
      exact ⟨_, os, rfl, h.beginScope, fun hop => (by cases hop)⟩
  | completeScope =>
      obtain ⟨start, scopes, hscopes⟩ := List.exists_cons_of_ne_nil hadm
      have hsmall : os.length < 2 ^ 32 := by
        have : st.entries.length < 2 ^ 32 := hclear
        rwa [h.entries, List.length_map] at this
      obtain ⟨g, heap, hstep, hholds, hid, halloc, hfreed⟩ := step_complete h hscopes hsmall
      refine ⟨_, _, hstep, h.complete hscopes hholds hid halloc hfreed, ?_⟩
      intro _ start' hstart b hb i e hi he hoff
      rw [hscopes, List.head?_cons, Option.mem_some_iff] at hstart
      subst hstart
      show b ∈ heap.freed
      rw [hfreed, List.mem_append, List.mem_reverse]
      rw [h.entries] at he
      exact (h.released_entry hb hi he hoff).symm

theorem Inv.not_safe (h : Inv st os) {st' : System} (hheap : st'.heap = st.heap) {e : LogEntry}
    (he : e ∈ st'.entries) (hzero : e.offset = 0) : ¬ Safe st' := by
  intro hsafe
  obtain ⟨b, hb, haddr⟩ := hsafe.allocated e he
  rw [hheap] at hb
  obtain ⟨o, ho, rfl⟩ := List.mem_map.mp ((h.allocated b).mp hb)
  exact h.nonzero o ho (haddr.trans hzero)

theorem entries_of_holds {es : List LogEntry} (h : st.logger.table.Holds es) : st.entries = es := by
  rw [entries, TableStore.entries_spec h, Option.getD_some]

theorem step_unclear (h : Inv st os) {op : Op} (hadm : Admissible st op)
    (hclear : ¬ Clear st op) {st' : System} (hstep : step st op = some st') : ¬ Safe st' := by
  cases op with
  | malloc ret =>
      obtain rfl : ret = 0 := Decidable.not_not.mp hclear
      obtain ⟨g, hg, -, hholds⟩ := step_malloc h 0
      obtain rfl := Option.some.inj (hg.symm.trans hstep)
      have hent : ({ st with logger := g }.receive 0).entries = _ := entries_of_holds hholds
      exact h.not_safe rfl (hent ▸ List.mem_append_right _ (List.mem_singleton.mpr rfl)) rfl
  | calloc ret =>
      obtain rfl : ret = 0 := Decidable.not_not.mp hclear
      obtain ⟨g, hg, -, hholds⟩ := step_calloc h 0
      obtain rfl := Option.some.inj (hg.symm.trans hstep)
      have hent : ({ st with logger := g }.receive 0).entries = _ := entries_of_holds hholds
      exact h.not_safe rfl (hent ▸ List.mem_append_right _ (List.mem_singleton.mpr rfl)) rfl
  | realloc ptr ret =>
      obtain ⟨k, o, hk, hlive, hoff, haddr, hfst⟩ := h.find hadm.2
      have hspec := Logger.realloc_spec h.holds h.nodup hfst (h.fresh hadm.1)
      rw [hoff] at hspec
      by_cases hsmall : k < 2 ^ 32 - 1
      · rw [if_pos hsmall] at hspec
        obtain ⟨g, hg, -, hholds⟩ := hspec
        have hzero : ret = 0 := by
          by_contra hret
          apply hclear
          refine ⟨hret, ?_⟩
          intro i e he hoff'
          rw [h.index_unique he (h.entries ▸ hfst) (hoff'.trans hoff.symm)]
          exact hsmall
        subst hzero
        simp only [step, hg, Option.bind_eq_bind, Option.bind_some, if_true] at hstep
        obtain rfl := Option.some.inj hstep
        have hent : { st with logger := g }.entries = _ := entries_of_holds hholds
        -- the entry of the failed allocation is the last one
        have hne : k ≠ os.length := Nat.ne_of_lt (List.getElem?_eq_some_iff.mp hk).1
        have hlast := List.getElem?_set_ne (a := o.1.freed) hne
          (l := os.map Prod.fst ++ [LogEntry.ofAttr st.logger.libcId .realloc kNeedPushed 0])
        rw [List.getElem?_append_right (Nat.le_of_eq (List.length_map _)), List.length_map,
          Nat.sub_self] at hlast
        exact h.not_safe rfl (hent ▸ List.mem_of_getElem? hlast) rfl
      · rw [if_neg hsmall] at hspec
        simp only [step, hspec, Option.bind_eq_bind, Option.bind_none] at hstep
        exact absurd hstep (by simp)
  | free ptr =>
      obtain ⟨k, o, hk, hlive, hoff, haddr, hfst⟩ := h.find hadm
      have hnz : o.1.offset ≠ 0 := by
        rw [h.offset o (List.mem_of_getElem? hk)]
        exact h.nonzero o (List.mem_of_getElem? hk)
      have hbig : ¬ k < 2 ^ 32 := by
        intro hsmall
        apply hclear
        intro i e he hoff'
        rw [h.index_unique he (h.entries ▸ hfst) (hoff'.trans hoff.symm)]
        exact hsmall
      have hfree := Logger.free_endless h.holds h.nodup hfst hnz hbig
      rw [hoff] at hfree
      simp only [step, hfree, Option.bind_eq_bind, Option.bind_none] at hstep
      exact absurd hstep (by simp)
  | beginScope => exact absurd trivial hclear
  | completeScope =>
      obtain ⟨start, scopes, hscopes⟩ := List.exists_cons_of_ne_nil hadm
      have hbig : 2 ^ 32 ≤ (os.map Prod.fst).length := by
        rw [← h.entries]
        exact Nat.le_of_not_lt hclear
      simp only [step, hscopes, Logger.freeMemory_endless h.holds start hbig, Option.bind_eq_bind,
        Option.bind_none] at hstep
      exact absurd hstep (by simp)

theorem sound_iff (ops : List Op) : ∀ {st os}, Inv st os → Proper st ops →
    (Sound st ops ↔ AllClear st ops) := by
  induction ops with
  | nil =>
      intro st os h _
      exact ⟨fun _ => trivial, fun _ => h.safe⟩
  | cons op ops ih =>
      rintro st os h ⟨hadm, hproper⟩
      by_cases hclear : Clear st op
      · obtain ⟨st', os', hstep, hinv, hdone⟩ := step_clear h hadm hclear
        have hrest := ih hinv (hproper st' hstep)
        constructor
        · rintro ⟨-, st'', hstep', -, hsound⟩
          obtain rfl := Option.some.inj (hstep.symm.trans hstep')
          refine ⟨hclear, ?_⟩
          intro st'' hstep''
          obtain rfl := Option.some.inj (hstep.symm.trans hstep'')
          exact hrest.mp hsound
        · rintro ⟨-, hclears⟩
          exact ⟨h.safe, st', hstep, hdone, hrest.mpr (hclears st' hstep)⟩
      · constructor
        · rintro ⟨-, st', hstep, -, hsound⟩
          have hsafe : Safe st' := by
            cases ops with
            | nil => exact hsound
            | cons => exact hsound.1
          exact absurd hsafe (step_unclear h hadm hclear hstep)
        · rintro ⟨hc, -⟩
          exact absurd hc hclear

/-- The frees are deferred safely in exactly the runs in which every allocation succeeds and the
32-bit indices reach the entries that they are meant for. -/
theorem deferred_frees_iff (ops : List Op) (h : Proper start ops) :
    Sound start ops ↔ AllClear start ops :=
  sound_iff ops start_inv h

theorem deferred_frees_of_nested_scopes :
    Proper start [.beginScope, .malloc 16, .beginScope, .calloc 32, .realloc 16 48, .free 48,
      .completeScope, .free 32, .completeScope] ∧
    Sound start [.beginScope, .malloc 16, .beginScope, .calloc 32, .realloc 16 48, .free 48,
      .completeScope, .free 32, .completeScope] :=
  ⟨by decide +kernel, (deferred_frees_iff _ (by decide +kernel)).mpr (by decide +kernel)⟩

theorem Sound.last (ops : List Op) : ∀ {st st'}, Sound st ops → ops.foldlM step st = some st' →
    Safe st' := by
  induction ops with
  | nil =>
      intro st st' h hrun
      exact Option.some.inj hrun ▸ h
  | cons op ops ih =>
      rintro st st' ⟨-, st₁, hstep, -, hsound⟩ hrun
      rw [List.foldlM_cons, hstep] at hrun
      exact ih hsound hrun

theorem failed_realloc_frees_live_block :
    Proper start [.beginScope, .malloc 16, .realloc 16 0, .completeScope] ∧
      (List.foldlM step start [.beginScope, .malloc 16, .realloc 16 0, .completeScope]).map
        (fun st => (st.live, st.released, st.heap.freed)) = some ([⟨0, 16⟩], [], [⟨0, 16⟩]) ∧
      ¬ Sound start [.beginScope, .malloc 16, .realloc 16 0, .completeScope] := by
  have hrun : (List.foldlM step start [.beginScope, .malloc 16, .realloc 16 0, .completeScope]).map
      (fun st => (st.live, st.released, st.heap.freed)) = some ([⟨0, 16⟩], [], [⟨0, 16⟩]) := by
    decide +kernel
  refine ⟨by decide +kernel, hrun, ?_⟩
  intro hsound
  obtain ⟨st, hst, hvals⟩ := Option.map_eq_some_iff.mp hrun
  simp only [Prod.mk.injEq] at hvals
  have hwanted := (hsound.last _ hst).wanted ⟨0, 16⟩ (by rw [hvals.2.2]; exact List.mem_cons_self)
  rw [hvals.2.1] at hwanted
  exact absurd hwanted List.not_mem_nil

end System

end CDRuntime.LibcLog
