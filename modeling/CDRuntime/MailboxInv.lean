import Mathlib.Algebra.Order.Group.Multiset
import Mathlib.Tactic.Abel
import CDRuntime.Mailbox

namespace CDRuntime.Mailbox
open Runs

section Words

variable {flags : Finset Flag} {b i : ℕ} {k : Event}

@[simp] theorem mem_word : k ∈ word flags b i ↔ (⟨b, i, k⟩ : Flag) ∈ flags := by
  simp [word]

theorem mem_setWord {w : Finset Event} {x : Flag} :
    x ∈ setWord flags b i w ↔
      x ∈ flags ∧ ¬ (x.box = b ∧ x.slot = i) ∨ x.box = b ∧ x.slot = i ∧ x.event ∈ w := by
  simp only [setWord, Finset.mem_union, Finset.mem_filter, Finset.mem_image]
  constructor
  · rintro (h | ⟨k, hk, rfl⟩)
    · exact Or.inl h
    · exact Or.inr ⟨rfl, rfl, hk⟩
  · rintro (h | ⟨rfl, rfl, hk⟩)
    · exact Or.inl h
    · exact Or.inr ⟨x.event, hk, rfl⟩

theorem setWord_erase (x : Flag) :
    setWord flags x.box x.slot ((word flags x.box x.slot).erase x.event) = flags.erase x := by
  ext y
  rw [mem_setWord, Finset.mem_erase, Finset.mem_erase, mem_word]
  constructor
  · rintro (⟨hy, hne⟩ | ⟨hb, hi, hk, hy⟩)
    · refine ⟨?_, hy⟩
      rintro rfl
      exact hne ⟨rfl, rfl⟩
    · refine ⟨?_, ?_⟩
      · rintro rfl
        exact hk rfl
      · rw [← hb, ← hi] at hy
        exact hy
  · rintro ⟨hne, hy⟩
    by_cases hword : y.box = x.box ∧ y.slot = x.slot
    · obtain ⟨hb, hi⟩ := hword
      refine Or.inr ⟨hb, hi, ?_, ?_⟩
      · intro hk
        apply hne
        cases x
        cases y
        simp_all
      · rw [← hb, ← hi]
        exact hy
    · exact Or.inl ⟨hy, hword⟩

theorem val_eq_setWord_empty (flags : Finset Flag) (b i : ℕ) :
    flags.val = (setWord flags b i ∅).val +
      (word flags b i).val.map fun k => (⟨b, i, k⟩ : Flag) := by
  have hinj : Set.InjOn (fun k => (⟨b, i, k⟩ : Flag)) (word flags b i) := by
    intro k _ k' _ h
    exact congrArg Flag.event h
  have hword : (word flags b i).image (fun k => (⟨b, i, k⟩ : Flag)) =
      flags.filter fun x => x.box = b ∧ x.slot = i := by
    ext x
    simp only [Finset.mem_image, Finset.mem_filter, mem_word]
    constructor
    · rintro ⟨k, hk, rfl⟩
      exact ⟨hk, rfl, rfl⟩
    · rintro ⟨hx, rfl, rfl⟩
      exact ⟨x.event, hx, rfl⟩
  have hrest : setWord flags b i ∅ = flags.filter fun x => ¬ (x.box = b ∧ x.slot = i) := by
    simp [setWord]
  rw [← Finset.image_val_of_injOn hinj, hword, hrest, Finset.filter_val, Finset.filter_val,
    add_comm, Multiset.filter_add_not]

end Words

/-- Every event that was sent is handled, in flight, flagged or queued. -/
def Ledger (s : State) : Prop :=
  s.sent = s.handled + s.flight + s.flags.val + (s.cdEvent : Multiset Flag)

/-- What the counter, the flags and the queue promise together. -/
structure Conserved (s : State) : Prop where
  /-- between two functions of the task the counter counts the events not handled yet -/
  pending : s.todo = [] → s.pendingFlag = (s.sent - s.handled).card
  /-- `DecPendingCounter` does not wrap -/
  noWrap : ∀ rest, s.todo = .dec :: rest → s.handledEventCount ≤ s.pendingFlag
  /-- the assertion at the entry of `CheckMailBox` -/
  entry : s.todo = [] → s.handledEventCount = 0
  /-- no event is lost -/
  ledger : Ledger s

def Micro.flag? : Micro → Option Flag
  | .take x | .load x | .store x _ => some x
  | _ => none

/-- The word that an unlocked assignment loaded and has not stored yet. -/
def Micro.held? : Micro → Option (ℕ × ℕ × Finset Event)
  | .store x w => some (x.box, x.slot, w)
  | .finalizeStore b i w => some (b, i, w)
  | _ => none

def Micro.isWork : Micro → Bool
  | .take _ | .load _ | .store _ _ | .stop => true
  | _ => false

def Micro.isFinal : Micro → Bool
  | .finalizeLoad _ _ | .finalizeStore _ _ _ => true
  | _ => false

def rounds (bs : List ℕ) : List Micro := bs.flatMap fun b => [.getEventFlag b, .tally]

/-- Where the task can be in its functions. -/
inductive Agenda (s : State) : Prop
  | idle (h : s.todo = []) (hzero : s.handledEventCount = 0)
  | between (bs : List ℕ) (h : s.todo = rounds bs ++ [.judge])
      (counted : 0 < s.handledEventCount → 0 < s.totEvents)
  | reading (work : List Micro) (bs : List ℕ)
      (h : s.todo = work ++ .tally :: (rounds bs ++ [.judge]))
      (isWork : ∀ m ∈ work, m.isWork = true)
      (nodup : (work.filterMap Micro.flag?).Nodup)
      (set : ∀ x ∈ work.filterMap Micro.flag?, x ∈ s.flags)
      (counted : 0 < s.handledEventCount → 0 < s.totEvents ∨ s.cdEvent ≠ [])
  | invoking (h : s.todo = [.invoke, .dec])
  | closing (final : List Micro) (h : s.todo = final ++ [.dec])
      (isFinal : ∀ m ∈ final, m.isFinal = true)

structure Inv (boxes : List Box) (s : State) : Prop where
  ledger : Ledger s
  counter : s.pendingFlag + s.handled.card = s.sent.card + s.handledEventCount
  small : s.pendingFlag < 2 ^ 32
  flagged : ∀ x ∈ s.flags, Addressable boxes x
  flying : ∀ x ∈ s.flight, Addressable boxes x
  error : ∀ b ∈ s.errorOccurred, ∃ i, ⟨b, i, .errorOccurred⟩ ∈ s.cdEvent
  heads : ∀ x ∈ s.cdEvent, x.event = .errorOccurred →
    ∀ mb, boxes[x.box]? = some mb → mb.isHead = true
  held : ∀ m ∈ s.todo.head?, ∀ b i w, m.held? = some (b, i, w) → w = word s.flags b i
  free : ∀ m ∈ s.todo.tail, m.held? = none
  agenda : Agenda s

def heldWord (s : State) : Option (ℕ × ℕ) :=
  (s.todo.head?.bind Micro.held?).map fun h => (h.1, h.2.1)

/-- What keeps the events apart: the counter does not overflow, a flag is set only when it is
clear, and no flag is set in a word that an unlocked assignment has loaded and not stored yet. -/
def Orderly (s : State) : Op → Prop
  | .increment _ => s.pendingFlag + 1 < 2 ^ 32
  | .accumulate x => x ∉ s.flags ∧ heldWord s ≠ some (x.box, x.slot)
  | .localSetMailBox _ _ => s.pendingFlag + 1 < 2 ^ 32
  | .next => s.todo.head? = some .invoke → s.pendingFlag + 1 < 2 ^ 32
  | _ => True

theorem Ledger.handled_le {s : State} (h : Ledger s) : s.handled ≤ s.sent := by
  rw [h, add_assoc, add_assoc]
  exact Multiset.le_add_right _ _

theorem Inv.conserved {boxes : List Box} {s : State} (h : Inv boxes s) : Conserved s := by
  have hle := Multiset.card_le_card h.ledger.handled_le
  have hcounter := h.counter
  have hidle : s.todo = [] → s.handledEventCount = 0 := by
    intro htodo
    cases h.agenda with
    | idle _ hzero => exact hzero
    | between bs htodo' => simp [htodo] at htodo'
    | reading work bs htodo' => simp [htodo] at htodo'
    | invoking htodo' => simp [htodo] at htodo'
    | closing final htodo' => simp [htodo] at htodo'
  refine ⟨?_, ?_, hidle, h.ledger⟩
  · intro htodo
    have hzero := hidle htodo
    rw [Multiset.card_sub h.ledger.handled_le]
    omega
  · intro rest _
    omega

section Steps

variable {boxes : List Box} {s : State}

/-- A step that sets flags and leaves the task's own data alone keeps its place. -/
theorem Agenda.mono {s' : State} (h : Agenda s) (htodo : s'.todo = s.todo)
    (hhandled : s'.handledEventCount = s.handledEventCount) (htot : s'.totEvents = s.totEvents)
    (hqueue : s'.cdEvent = s.cdEvent) (hflags : s.flags ⊆ s'.flags) : Agenda s' := by
  cases h with
  | idle h hzero => exact .idle (htodo.trans h) (hhandled.trans hzero)
  | between bs h counted => exact .between bs (htodo.trans h) (by rwa [hhandled, htot])
  | reading work bs h isWork nodup set counted =>
      refine .reading work bs (htodo.trans h) isWork nodup ?_ (by rwa [hhandled, htot, hqueue])
      intro x hx
      exact hflags (set x hx)
  | invoking h => exact .invoking (htodo.trans h)
  | closing final h isFinal => exact .closing final (htodo.trans h) isFinal

theorem inv_increment {x : Flag} (h : Inv boxes s) (haddr : Addressable boxes x)
    (hsmall : s.pendingFlag + 1 < 2 ^ 32) :
    Inv boxes { s.incPendingCounter with sent := x ::ₘ s.sent, flight := x ::ₘ s.flight } := by
  have hmod : (s.pendingFlag + 1) % 2 ^ 32 = s.pendingFlag + 1 := Nat.mod_eq_of_lt hsmall
  have hcounter := h.counter
  refine ⟨?_, ?_, ?_, h.flagged, ?_, h.error, h.heads, h.held, h.free, ?_⟩
  · change x ::ₘ s.sent = s.handled + x ::ₘ s.flight + s.flags.val + (s.cdEvent : Multiset Flag)
    rw [h.ledger, ← Multiset.singleton_add, ← Multiset.singleton_add]
    abel
  · change (s.pendingFlag + 1) % 2 ^ 32 + s.handled.card =
      (x ::ₘ s.sent).card + s.handledEventCount
    rw [hmod, Multiset.card_cons]
    omega
  · change (s.pendingFlag + 1) % 2 ^ 32 < 2 ^ 32
    rwa [hmod]
  · intro y hy
    rcases Multiset.mem_cons.mp hy with rfl | hy
    · exact haddr
    · exact h.flying y hy
  · exact h.agenda.mono rfl rfl rfl rfl (Finset.Subset.refl _)

theorem inv_accumulate {x : Flag} (h : Inv boxes s) (hx : x ∈ s.flight) (hclear : x ∉ s.flags)
    (hfree : heldWord s ≠ some (x.box, x.slot)) :
    Inv boxes { s with flight := s.flight.erase x, flags := insert x s.flags } := by
  refine ⟨?_, h.counter, h.small, ?_, ?_, h.error, h.heads, ?_, h.free, ?_⟩
  · change s.sent = s.handled + s.flight.erase x + (insert x s.flags).val +
      (s.cdEvent : Multiset Flag)
    rw [Finset.insert_val_of_notMem hclear, h.ledger, ← Multiset.singleton_add]
    nth_rewrite 1 [← Multiset.cons_erase hx]
    rw [← Multiset.singleton_add]
    abel
  · intro y hy
    rcases Finset.mem_insert.mp hy with rfl | hy
    · exact h.flying y hx
    · exact h.flagged y hy
  · intro y hy
    exact h.flying y (Multiset.mem_of_mem_erase hy)
  · intro m hm b i w hw
    -- the word that is loaded is not the one that changes
    rw [h.held m hm b i w hw]
    ext k
    rw [mem_word, mem_word, Finset.mem_insert]
    constructor
    · exact Or.inr
    · rintro (rfl | hk)
      · rw [heldWord, Option.mem_def.mp hm, Option.bind_some, hw] at hfree
        exact absurd rfl hfree
      · exact hk
  · exact h.agenda.mono rfl rfl rfl rfl (Finset.subset_insert _ _)

/-- What a function of the task starts from. -/
theorem Inv.idle (h : Inv boxes s) (htodo : s.todo = []) : s.handledEventCount = 0 :=
  h.conserved.entry htodo

theorem held?_of_mem_rounds {bs : List ℕ} {m : Micro} (hm : m ∈ rounds bs) : m.held? = none := by
  simp only [rounds, List.mem_flatMap, List.mem_cons, List.not_mem_nil, or_false] at hm
  obtain ⟨b, -, rfl | rfl⟩ := hm
  · rfl
  · rfl

/-- A new agenda without loaded words. -/
theorem Inv.restart (h : Inv boxes s) {tot : ℕ} {todo : List Micro}
    (hheld : ∀ m ∈ todo, m.held? = none)
    (hagenda : Agenda { s with totEvents := tot, todo := todo }) :
    Inv boxes { s with totEvents := tot, todo := todo } := by
  refine ⟨h.ledger, h.counter, h.small, h.flagged, h.flying, h.error, h.heads, ?_, ?_, hagenda⟩
  · intro m hm b i w hw
    rw [hheld m (List.mem_of_mem_head? hm)] at hw
    cases hw
  · intro m hm
    exact hheld m (List.mem_of_mem_tail hm)

theorem Inv.queue_nil (h : Inv boxes s) (htodo : s.todo = []) (hzero : s.pendingFlag = 0) :
    s.cdEvent = [] := by
  have hcounter := h.counter
  have hcard := congrArg Multiset.card h.ledger
  rw [hzero, h.idle htodo] at hcounter
  rw [Multiset.card_add, Multiset.card_add, Multiset.card_add, Multiset.coe_card] at hcard
  exact List.length_eq_zero_iff.mp (by omega)

theorem inv_checkMailBox (h : Inv boxes s) (htodo : s.todo = []) :
    Inv boxes { s with totEvents := 0, todo := checkMailBox boxes s } := by
  have hhandled := h.idle htodo
  by_cases hzero : s.pendingFlag = 0
  · have hnil : checkMailBox boxes s = [] := by
      rw [checkMailBox, if_pos hzero, h.queue_nil htodo hzero]
      simp
    rw [hnil]
    apply h.restart
    · intro m hm
      cases hm
    · exact .idle rfl hhandled
  · have hrounds : checkMailBox boxes s = rounds (List.range boxes.length) ++ [.judge] := by
      rw [checkMailBox, if_neg hzero]
      rfl
    rw [hrounds]
    apply h.restart
    · intro m hm
      rcases List.mem_append.mp hm with hm | hm
      · exact held?_of_mem_rounds hm
      · rw [List.mem_singleton.mp hm]
        rfl
    · refine .between _ rfl ?_
      intro hpos
      change 0 < s.handledEventCount at hpos
      omega

theorem inv_finalizeMailBox (h : Inv boxes s) (b n : ℕ) :
    Inv boxes { s with todo := ((List.range n).map fun i => .finalizeLoad b i) ++ [.dec] } := by
  apply h.restart
  · intro m hm
    rcases List.mem_append.mp hm with hm | hm
    · obtain ⟨i, -, rfl⟩ := List.mem_map.mp hm
      rfl
    · rw [List.mem_singleton.mp hm]
      rfl
  · refine .closing _ rfl ?_
    intro m hm
    obtain ⟨i, -, rfl⟩ := List.mem_map.mp hm
    rfl

theorem inv_getCDToRecover (h : Inv boxes s) : Inv boxes { s with todo := [.dec] } := by
  apply h.restart
  · intro m hm
    rw [List.mem_singleton.mp hm]
    rfl
  · refine .closing [] rfl ?_
    intro m hm
    cases hm

theorem Inv.own_clear (h : Inv boxes s) {b : ℕ} {mb : Box} (hbox : boxes[b]? = some mb)
    (hhead : mb.isHead = true) (k : Event) :
    (⟨b, mb.taskInColor, k⟩ : Flag) ∉ s.flags := by
  intro hx
  have haddr := h.flagged _ hx
  simp [Addressable, hbox, hhead] at haddr

theorem error_queued {errors : Finset ℕ} {queue : List Flag}
    (h : ∀ b ∈ errors, ∃ i, (⟨b, i, .errorOccurred⟩ : Flag) ∈ queue) (x : Flag) :
    ∀ b ∈ if x.event = .errorOccurred then insert x.box errors else errors,
      ∃ i, (⟨b, i, .errorOccurred⟩ : Flag) ∈ queue ++ [x] := by
  have hold : ∀ b ∈ errors, ∃ i, (⟨b, i, .errorOccurred⟩ : Flag) ∈ queue ++ [x] := by
    intro b hb
    obtain ⟨i, hi⟩ := h b hb
    exact ⟨i, List.mem_append_left _ hi⟩
  intro b hb
  split_ifs at hb with herr
  · rcases Finset.mem_insert.mp hb with rfl | hb
    · refine ⟨x.slot, List.mem_append_right _ (List.mem_singleton.mpr ?_)⟩
      rw [← herr]
    · exact hold b hb
  · exact hold b hb

theorem inv_localSetMailBox (h : Inv boxes s) {b : ℕ} {mb : Box} (hbox : boxes[b]? = some mb)
    (hhead : mb.isHead = true) (htodo : s.todo = []) (k : Event)
    (hsmall : s.pendingFlag + 1 < 2 ^ 32) :
    Inv boxes (s.localSetMailBox ⟨b, mb.taskInColor, k⟩) := by
  have hmod : (s.pendingFlag + 1) % 2 ^ 32 = s.pendingFlag + 1 := Nat.mod_eq_of_lt hsmall
  have hcounter := h.counter
  have hflags := Finset.erase_eq_of_notMem (h.own_clear hbox hhead k)
  refine ⟨?_, ?_, ?_, ?_, h.flying, ?_, ?_, ?_, h.free, .idle htodo (h.idle htodo)⟩
  · change _ ::ₘ s.sent = s.handled + s.flight + (s.flags.erase _).val +
      ((s.cdEvent ++ [_] : List Flag) : Multiset Flag)
    rw [hflags, h.ledger, ← Multiset.coe_add, Multiset.coe_singleton, ← Multiset.singleton_add]
    abel
  · change (s.pendingFlag + 1) % 2 ^ 32 + s.handled.card =
      (_ ::ₘ s.sent).card + s.handledEventCount
    rw [hmod, Multiset.card_cons]
    omega
  · change (s.pendingFlag + 1) % 2 ^ 32 < 2 ^ 32
    rwa [hmod]
  · intro x hx
    exact h.flagged x (Finset.mem_of_mem_erase hx)
  · exact error_queued h.error _
  · intro x hx herr mb' hmb'
    rcases List.mem_append.mp hx with hx | hx
    · exact h.heads x hx herr mb' hmb'
    · rw [List.mem_singleton.mp hx, hbox, Option.some.injEq] at hmb'
      exact hmb' ▸ hhead
  · intro m hm
    have hnil : s.todo.head? = none := by rw [htodo]; rfl
    change m ∈ s.todo.head? at hm
    rw [hnil] at hm
    cases hm

end Steps

end CDRuntime.Mailbox
