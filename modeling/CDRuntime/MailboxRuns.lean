import CDRuntime.MailboxInv

namespace CDRuntime.Mailbox
open Runs

section Steps

variable {boxes : List Box} {s : State}

theorem Inv.pop (h : Inv boxes s) {m : Micro} {rest : List Micro} (htodo : s.todo = m :: rest) :
    ∀ n ∈ rest, n.held? = none := by
  have hfree := h.free
  rw [htodo] at hfree
  exact hfree

theorem held?_head_of_free {todo : List Micro} (hfree : ∀ m ∈ todo, m.held? = none)
    (flags : Finset Flag) :
    (∀ m ∈ todo.head?, ∀ b i w, m.held? = some (b, i, w) → w = word flags b i) ∧
      ∀ m ∈ todo.tail, m.held? = none := by
  constructor
  · intro m hm b i w hw
    rw [hfree m (List.mem_of_mem_head? hm)] at hw
    cases hw
  · intro m hm
    exact hfree m (List.mem_of_mem_tail hm)

theorem inv_register (h : Inv boxes s) {m : Micro} {work : List Micro} {bs : List ℕ} {x : Flag}
    (htodo : s.todo = m :: (work ++ .tally :: (rounds bs ++ [.judge])))
    (hm : m.flag? = some x) (isWork : ∀ n ∈ m :: work, n.isWork = true)
    (nodup : ((m :: work).filterMap Micro.flag?).Nodup)
    (set : ∀ y ∈ (m :: work).filterMap Micro.flag?, y ∈ s.flags) :
    Inv boxes { s.register x with
      flags := s.flags.erase x, todo := work ++ .tally :: (rounds bs ++ [.judge]) } := by
  rw [List.filterMap_cons_some hm] at nodup set
  have hx : x ∈ s.flags := set x List.mem_cons_self
  have hsplit : s.flags.val = x ::ₘ (s.flags.erase x).val := by
    rw [Finset.erase_val, Multiset.cons_erase hx]
  have hheld := held?_head_of_free (h.pop htodo) (s.flags.erase x)
  have hledger := h.ledger
  have hcounter := h.counter
  rw [Ledger, hsplit] at hledger
  have hset : ∀ y ∈ work.filterMap Micro.flag?, y ∈ s.flags.erase x := by
    intro y hy
    refine Finset.mem_erase.mpr ⟨?_, set y (List.mem_cons_of_mem x hy)⟩
    rintro rfl
    exact (List.nodup_cons.mp nodup).1 hy
  have hflagged : ∀ y ∈ s.flags.erase x, Addressable boxes y :=
    fun y hy => h.flagged y (Finset.mem_of_mem_erase hy)
  have hwork : ∀ n ∈ work, n.isWork = true := fun n hn => isWork n (List.mem_cons_of_mem m hn)
  by_cases hjoin : x.event = .errorOccurred ∧ x.box ∈ s.errorOccurred
  · -- a second error is counted at once: the handler of the first is still queued
    have hne : s.cdEvent ≠ [] := by
      obtain ⟨i, hi⟩ := h.error x.box hjoin.2
      exact List.ne_nil_of_mem hi
    rw [State.register, if_pos hjoin.1, if_pos hjoin.2]
    refine ⟨?_, ?_, h.small, hflagged, h.flying, h.error, h.heads, hheld.1, hheld.2,
      .reading work bs rfl hwork (List.nodup_cons.mp nodup).2 hset fun _ => Or.inr hne⟩
    · change s.sent = x ::ₘ s.handled + s.flight + (s.flags.erase x).val +
        (s.cdEvent : Multiset Flag)
      rw [hledger, ← Multiset.singleton_add, ← Multiset.singleton_add]
      abel
    · change s.pendingFlag + (x ::ₘ s.handled).card = s.sent.card + (s.handledEventCount + 1)
      rw [Multiset.card_cons]
      omega
  · have hhead : x.event = .errorOccurred → ∀ mb, boxes[x.box]? = some mb → mb.isHead = true := by
      intro herr mb hbox
      have haddr := h.flagged x hx
      by_contra hmember
      simp [Addressable, hbox, hmember, herr] at haddr
    have hqueue : (s.register x).cdEvent = s.cdEvent ++ [x] := by
      rw [State.register]
      split_ifs with herr hin
      · exact absurd ⟨herr, hin⟩ hjoin
      · rfl
      · rfl
    have hsame : (s.register x).sent = s.sent ∧ (s.register x).handled = s.handled ∧
        (s.register x).flight = s.flight ∧ (s.register x).pendingFlag = s.pendingFlag ∧
        (s.register x).handledEventCount = s.handledEventCount ∧
        (s.register x).errorOccurred =
          if x.event = .errorOccurred then insert x.box s.errorOccurred else s.errorOccurred := by
      rw [State.register]
      split_ifs with herr hin
      · exact absurd ⟨herr, hin⟩ hjoin
      · exact ⟨rfl, rfl, rfl, rfl, rfl, rfl⟩
      · exact ⟨rfl, rfl, rfl, rfl, rfl, rfl⟩
    obtain ⟨hsent, hhandled, hflight, hpending, hcount, herrors⟩ := hsame
    have hne : (s.register x).cdEvent ≠ [] := by rw [hqueue]; simp
    refine ⟨?_, ?_, ?_, hflagged, ?_, ?_, ?_, hheld.1, hheld.2,
      .reading work bs rfl hwork (List.nodup_cons.mp nodup).2 hset fun _ => Or.inr hne⟩
    · change (s.register x).sent = (s.register x).handled + (s.register x).flight +
        (s.flags.erase x).val + ((s.register x).cdEvent : Multiset Flag)
      rw [hsent, hhandled, hflight, hqueue, hledger, ← Multiset.coe_add, Multiset.coe_singleton,
        ← Multiset.singleton_add]
      abel
    · change (s.register x).pendingFlag + (s.register x).handled.card =
        (s.register x).sent.card + (s.register x).handledEventCount
      rw [hsent, hhandled, hpending, hcount]
      exact hcounter
    · change (s.register x).pendingFlag < 2 ^ 32
      rw [hpending]
      exact h.small
    · intro y hy
      apply h.flying y
      rw [← hflight]
      exact hy
    · change ∀ b ∈ (s.register x).errorOccurred, ∃ i,
        ⟨b, i, .errorOccurred⟩ ∈ (s.register x).cdEvent
      rw [hqueue, herrors]
      exact error_queued h.error x
    · intro y hy herr mb hbox
      change y ∈ (s.register x).cdEvent at hy
      rw [hqueue] at hy
      rcases List.mem_append.mp hy with hy | hy
      · exact h.heads y hy herr mb hbox
      · rw [List.mem_singleton.mp hy] at herr hbox
        exact hhead herr mb hbox

structure Reads (flags : Finset Flag) (work : List Micro) : Prop where
  isWork : ∀ m ∈ work, m.isWork = true
  free : ∀ m ∈ work, m.held? = none
  nodup : (work.filterMap Micro.flag?).Nodup
  set : ∀ x ∈ work.filterMap Micro.flag?, x ∈ flags

/-- A flag that one test of `ReadMailBox` may clear. -/
theorem flags_ite_sublist {p : Prop} [Decidable p] {m : Micro} {x : Flag}
    (hm : m.flag? = some x) : ((if p then [m] else []).filterMap Micro.flag?).Sublist [x] := by
  split_ifs
  · rw [List.filterMap_cons_some hm]
    exact List.Sublist.refl _
  · exact List.nil_sublist _

theorem mem_readHead {b i : ℕ} {w : Finset Event} {m : Micro} (hm : m ∈ readHead b i w) :
    (∃ k ∈ w, m = .take ⟨b, i, k⟩ ∨ m = .load ⟨b, i, k⟩) ∨ m = .stop := by
  simp only [readHead, List.mem_append, List.mem_ite_nil_right, List.mem_singleton] at hm
  rcases hm with (((h | h) | h) | h) | h
  · exact Or.inl ⟨_, h.1, Or.inl h.2⟩
  · exact Or.inl ⟨_, h.1, Or.inr h.2⟩
  · exact Or.inl ⟨_, h.1, Or.inr h.2⟩
  · exact Or.inl ⟨_, h.1, Or.inr h.2⟩
  · exact Or.inr h.2

theorem flags_readHead_nodup (b i : ℕ) (w : Finset Event) :
    ((readHead b i w).filterMap Micro.flag?).Nodup := by
  have hnodup : ([⟨b, i, .errorOccurred⟩, ⟨b, i, .entrySearch⟩, ⟨b, i, .allResume⟩,
      ⟨b, i, .allReexecute⟩] : List Flag).Nodup := by simp
  apply List.Nodup.sublist ?_ hnodup
  have hstop : ((if .entrySend ∈ w ∨ .allPause ∈ w then [Micro.stop] else []).filterMap
      Micro.flag?) = [] := by
    split_ifs <;> rfl
  rw [readHead, List.filterMap_append, hstop, List.append_nil, List.filterMap_append,
    List.filterMap_append, List.filterMap_append]
  exact (((flags_ite_sublist rfl).append (flags_ite_sublist rfl)).append
    (flags_ite_sublist rfl)).append (flags_ite_sublist rfl)

theorem mem_readMember {b : ℕ} {w : Finset Event} {m : Micro} (hm : m ∈ readMember b w)
    (hsearch : .entrySearch ∉ w) (herror : .errorOccurred ∉ w) :
    ∃ k ∈ w, m = .take ⟨b, 0, k⟩ := by
  simp only [readMember, if_neg hsearch, if_neg herror, List.nil_append, List.mem_append,
    List.mem_ite_nil_right, List.mem_singleton] at hm
  rcases hm with (h | h) | h
  · exact ⟨_, h⟩
  · exact ⟨_, h⟩
  · exact ⟨_, h⟩

theorem flags_readMember_nodup {b : ℕ} {w : Finset Event} (hsearch : .entrySearch ∉ w)
    (herror : .errorOccurred ∉ w) : ((readMember b w).filterMap Micro.flag?).Nodup := by
  have hnodup : ([⟨b, 0, .entrySend⟩, ⟨b, 0, .allPause⟩, ⟨b, 0, .allReexecute⟩] :
      List Flag).Nodup := by simp
  apply List.Nodup.sublist ?_ hnodup
  rw [readMember, if_neg hsearch, if_neg herror, List.nil_append, List.nil_append,
    List.filterMap_append, List.filterMap_append]
  exact ((flags_ite_sublist rfl).append (flags_ite_sublist rfl)).append (flags_ite_sublist rfl)

theorem reads_internalCheckMailBox {b : ℕ} {mb : Box} {flags : Finset Flag}
    (hbox : boxes[b]? = some mb) (hflagged : ∀ x ∈ flags, Addressable boxes x) :
    Reads flags (internalCheckMailBox mb b flags) := by
  by_cases hhead : mb.isHead = true
  · have hmem : ∀ m ∈ internalCheckMailBox mb b flags,
        (∃ x ∈ flags, m = .take x ∨ m = .load x) ∨ m = .stop := by
      intro m hm
      rw [internalCheckMailBox, if_pos hhead] at hm
      obtain ⟨i, -, hm⟩ := List.mem_flatMap.mp hm
      rcases mem_readHead hm with ⟨k, hk, h⟩ | h
      · exact Or.inl ⟨_, mem_word.mp hk, h⟩
      · exact Or.inr h
    refine ⟨?_, ?_, ?_, ?_⟩
    · intro m hm
      obtain ⟨x, -, rfl | rfl⟩ | rfl := hmem m hm <;> rfl
    · intro m hm
      obtain ⟨x, -, rfl | rfl⟩ | rfl := hmem m hm <;> rfl
    · rw [internalCheckMailBox, if_pos hhead, List.filterMap_flatMap]
      rw [List.nodup_flatMap]
      refine ⟨fun i _ => flags_readHead_nodup b i _, ?_⟩
      -- flags of different words differ in their slot
      apply List.nodup_range.imp
      intro i j hij x hi hj
      have hslot : ∀ n, x ∈ (readHead b n (word flags b n)).filterMap Micro.flag? →
          x.slot = n := by
        intro n hx
        obtain ⟨m, hm, hmx⟩ := List.mem_filterMap.mp hx
        obtain ⟨k, -, rfl | rfl⟩ | rfl := mem_readHead hm
        · rw [← Option.some.inj hmx]
        · rw [← Option.some.inj hmx]
        · cases hmx
      exact hij ((hslot i hi).symm.trans (hslot j hj))
    · intro x hx
      obtain ⟨m, hm, hmx⟩ := List.mem_filterMap.mp hx
      obtain ⟨y, hy, rfl | rfl⟩ | rfl := hmem m hm
      · exact Option.some.inj hmx ▸ hy
      · exact Option.some.inj hmx ▸ hy
      · cases hmx
  · have hsearch : .entrySearch ∉ word flags b 0 := by
      intro hk
      have haddr := hflagged _ (mem_word.mp hk)
      simp [Addressable, hbox, hhead] at haddr
    have herror : .errorOccurred ∉ word flags b 0 := by
      intro hk
      have haddr := hflagged _ (mem_word.mp hk)
      simp [Addressable, hbox, hhead] at haddr
    have hmem : ∀ m ∈ internalCheckMailBox mb b flags, ∃ x ∈ flags, m = .take x := by
      intro m hm
      rw [internalCheckMailBox, if_neg hhead] at hm
      obtain ⟨k, hk, h⟩ := mem_readMember hm hsearch herror
      exact ⟨_, mem_word.mp hk, h⟩
    refine ⟨?_, ?_, ?_, ?_⟩
    · intro m hm
      obtain ⟨x, -, rfl⟩ := hmem m hm
      rfl
    · intro m hm
      obtain ⟨x, -, rfl⟩ := hmem m hm
      rfl
    · rw [internalCheckMailBox, if_neg hhead]
      exact flags_readMember_nodup hsearch herror
    · intro x hx
      obtain ⟨m, hm, hmx⟩ := List.mem_filterMap.mp hx
      obtain ⟨y, hy, rfl⟩ := hmem m hm
      exact Option.some.inj hmx ▸ hy

theorem inv_getEventFlag (h : Inv boxes s) {b : ℕ} {mb : Box} {bs : List ℕ}
    (htodo : s.todo = .getEventFlag b :: .tally :: (rounds bs ++ [.judge]))
    (counted : 0 < s.handledEventCount → 0 < s.totEvents) (hbox : boxes[b]? = some mb) :
    Inv boxes { s with
      todo := internalCheckMailBox mb b s.flags ++ .tally :: (rounds bs ++ [.judge]) } := by
  have hreads := reads_internalCheckMailBox hbox h.flagged
  apply h.restart
  · intro m hm
    rcases List.mem_append.mp hm with hm | hm
    · exact hreads.free m hm
    · exact h.pop htodo m hm
  · refine .reading _ bs rfl hreads.isWork hreads.nodup hreads.set ?_
    intro hpos
    exact Or.inl (counted hpos)

theorem inv_tally (h : Inv boxes s) {bs : List ℕ}
    (htodo : s.todo = .tally :: (rounds bs ++ [.judge]))
    (counted : 0 < s.handledEventCount → 0 < s.totEvents ∨ s.cdEvent ≠ []) :
    Inv boxes { s with
      totEvents := s.totEvents + s.cdEvent.length, todo := rounds bs ++ [.judge] } := by
  apply h.restart (h.pop htodo)
  refine .between bs rfl ?_
  intro hpos
  change 0 < s.totEvents + s.cdEvent.length
  rcases counted hpos with htot | hqueue
  · omega
  · have hlen := List.length_pos_of_ne_nil hqueue
    omega

/-- The word that is loaded is the word that is there. -/
theorem Inv.load (h : Inv boxes s) {m n : Micro} {rest : List Micro} {b i : ℕ}
    (htodo : s.todo = m :: rest) (hn : n.held? = some (b, i, word s.flags b i))
    (hagenda : Agenda { s with todo := n :: rest }) : Inv boxes { s with todo := n :: rest } := by
  refine ⟨h.ledger, h.counter, h.small, h.flagged, h.flying, h.error, h.heads, ?_, ?_, hagenda⟩
  · intro m' hm' b' i' w hw
    rw [← Option.some.inj hm', hn] at hw
    simp only [Option.some.injEq, Prod.mk.injEq] at hw
    rw [← hw.2.2, hw.1, hw.2.1]
  · exact h.pop htodo

theorem inv_judge (h : Inv boxes s) (counted : 0 < s.handledEventCount → 0 < s.totEvents) :
    Inv boxes { s with todo := if 0 < s.totEvents then [.invoke, .dec] else [] } := by
  have hzero : ¬ 0 < s.totEvents → s.handledEventCount = 0 := by
    intro htot
    by_contra hne
    exact htot (counted (Nat.pos_of_ne_zero hne))
  by_cases htot : 0 < s.totEvents
  · rw [if_pos htot]
    apply h.restart
    · intro m hm
      simp only [List.mem_cons, List.not_mem_nil, or_false] at hm
      rcases hm with rfl | rfl <;> rfl
    · exact .invoking rfl
  · rw [if_neg htot]
    apply h.restart
    · intro m hm
      cases hm
    · exact .idle rfl (hzero htot)

theorem decPendingCounter_eq (hle : s.handledEventCount ≤ s.pendingFlag)
    (hsmall : s.pendingFlag < 2 ^ 32) :
    s.decPendingCounter =
      { s with pendingFlag := s.pendingFlag - s.handledEventCount, handledEventCount := 0 } := by
  have hdec : (s.pendingFlag + 2 ^ 32 - s.handledEventCount % 2 ^ 32) % 2 ^ 32 =
      s.pendingFlag - s.handledEventCount := by omega
  rw [State.decPendingCounter, hdec]

theorem inv_dec (h : Inv boxes s) : Inv boxes { s.decPendingCounter with todo := [] } := by
  have hle := Multiset.card_le_card h.ledger.handled_le
  have hcounter := h.counter
  rw [decPendingCounter_eq (by omega) h.small]
  refine ⟨h.ledger, ?_, ?_, h.flagged, h.flying, h.error, h.heads, ?_, ?_, .idle rfl rfl⟩
  · dsimp only
    omega
  · exact Nat.lt_of_le_of_lt (Nat.sub_le _ _) h.small
  · intro m hm
    cases hm
  · intro m hm
    cases hm

theorem inv_handled (h : Inv boxes s) (htodo : s.todo = [.invoke, .dec]) {x : Flag}
    {queue : List Flag} (hqueue : s.cdEvent = x :: queue) (hx : x.event ≠ .errorOccurred) :
    Inv boxes (({ s with cdEvent := queue } : State).incHandledEventCounter x) := by
  have hledger := h.ledger
  have hcounter := h.counter
  have hheads := h.heads
  have herror := h.error
  rw [Ledger, hqueue, ← Multiset.cons_coe] at hledger
  rw [hqueue] at hheads herror
  refine ⟨?_, ?_, h.small, h.flagged, h.flying, ?_, ?_, h.held, h.free, .invoking htodo⟩
  · change s.sent = x ::ₘ s.handled + s.flight + s.flags.val + (queue : Multiset Flag)
    rw [hledger, ← Multiset.singleton_add, ← Multiset.singleton_add]
    abel
  · change s.pendingFlag + (x ::ₘ s.handled).card = s.sent.card + (s.handledEventCount + 1)
    rw [Multiset.card_cons]
    omega
  · intro b hb
    obtain ⟨i, hi⟩ := herror b hb
    rcases List.mem_cons.mp hi with rfl | hi
    · exact absurd rfl hx
    · exact ⟨i, hi⟩
  · intro y hy
    exact hheads y (List.mem_cons_of_mem x hy)

theorem inv_errorHandled (h : Inv boxes s) (htodo : s.todo = [.invoke, .dec]) {x : Flag}
    {queue : List Flag} (hqueue : s.cdEvent = x :: queue) (hx : x.event = .errorOccurred)
    {mb : Box} (hbox : boxes[x.box]? = some mb) (hsmall : s.pendingFlag + 1 < 2 ^ 32) {s' : State}
    (hs' : handleEvent boxes { s with cdEvent := queue } x = some s') : Inv boxes s' := by
  have hmod : (s.pendingFlag + 1) % 2 ^ 32 = s.pendingFlag + 1 := Nat.mod_eq_of_lt hsmall
  have hheads := h.heads
  have herror := h.error
  rw [hqueue] at hheads herror
  have hhead : mb.isHead = true := hheads x List.mem_cons_self hx mb hbox
  have hflags := Finset.erase_eq_of_notMem (h.own_clear hbox hhead .allReexecute)
  have hform : s' = { s with
      pendingFlag := s.pendingFlag + 1
      handledEventCount := s.handledEventCount + 1
      cdEvent := queue ++ [⟨x.box, mb.taskInColor, .allReexecute⟩]
      errorOccurred := s.errorOccurred.erase x.box
      sent := ⟨x.box, mb.taskInColor, .allReexecute⟩ ::ₘ s.sent
      handled := x ::ₘ s.handled } := by
    simp only [handleEvent, hx, hbox, Option.bind_eq_bind, Option.bind_some, Option.some.injEq,
      State.localSetMailBox, State.incPendingCounter, State.incHandledEventCounter, hmod, hflags,
      reduceCtorEq, if_false] at hs'
    exact hs'.symm
  subst hform
  have hledger := h.ledger
  have hcounter := h.counter
  rw [Ledger, hqueue, ← Multiset.cons_coe] at hledger
  refine ⟨?_, ?_, hsmall, h.flagged, h.flying, ?_, ?_, h.held, h.free, .invoking htodo⟩
  · rw [Ledger]
    dsimp only
    rw [hledger, ← Multiset.coe_add, Multiset.coe_singleton, ← Multiset.singleton_add,
      ← Multiset.singleton_add, ← Multiset.singleton_add]
    abel
  · dsimp only
    rw [Multiset.card_cons, Multiset.card_cons]
    omega
  · intro b hb
    obtain ⟨hne, hb⟩ := Finset.mem_erase.mp hb
    obtain ⟨i, hi⟩ := herror b hb
    rcases List.mem_cons.mp hi with rfl | hi
    · exact absurd rfl hne
    · exact ⟨i, List.mem_append_left _ hi⟩
  · intro y hy herr
    rcases List.mem_append.mp hy with hy | hy
    · exact hheads y (List.mem_cons_of_mem x hy) herr
    · rw [List.mem_singleton.mp hy] at herr
      cases herr

theorem inv_invoke (h : Inv boxes s) (htodo : s.todo = [.invoke, .dec])
    (hsmall : s.pendingFlag + 1 < 2 ^ 32) {s' : State}
    (hs' : perform boxes s [.dec] .invoke = some s') : Inv boxes s' := by
  unfold perform at hs'
  cases hqueue : s.cdEvent with
  | nil =>
      simp only [hqueue, Option.some.injEq] at hs'
      subst hs'
      have hinv := inv_getCDToRecover h
      rwa [hqueue] at hinv
  | cons x queue =>
      simp only [hqueue] at hs'
      by_cases hx : x.event = .errorOccurred
      · cases hbox : boxes[x.box]? with
        | none => simp [handleEvent, hx, hbox] at hs'
        | some mb => exact inv_errorHandled h htodo hqueue hx hbox hsmall hs'
      · have hcount : s' = ({ s with cdEvent := queue } : State).incHandledEventCounter x := by
          unfold handleEvent at hs'
          cases hevent : x.event with
          | errorOccurred => exact absurd hevent hx
          | entrySend => simp [hevent] at hs'
          | entrySearch | allPause | allResume | allReexecute =>
              simp only [hevent, Option.some.injEq] at hs'
              exact hs'.symm
        subst hcount
        exact inv_handled h htodo hqueue hx

theorem inv_finalizeStore (h : Inv boxes s) {b i : ℕ} {w : Finset Event} {final : List Micro}
    (htodo : s.todo = .finalizeStore b i w :: (final ++ [.dec]))
    (isFinal : ∀ m ∈ final, m.isFinal = true) :
    Inv boxes { s with
      handledEventCount := s.handledEventCount + w.card
      handled := s.handled + w.val.map fun k => ⟨b, i, k⟩
      flags := setWord s.flags b i ∅
      todo := final ++ [.dec] } := by
  have hw : w = word s.flags b i := by
    apply h.held (.finalizeStore b i w)
    · rw [htodo]
      rfl
    · rfl
  have hheld := held?_head_of_free (h.pop htodo) (setWord s.flags b i ∅)
  have hcounter := h.counter
  have hledger := h.ledger
  refine ⟨?_, ?_, h.small, ?_, h.flying, h.error, h.heads, hheld.1, hheld.2,
    .closing final rfl isFinal⟩
  · rw [Ledger]
    dsimp only
    rw [hledger, hw]
    nth_rewrite 1 [val_eq_setWord_empty s.flags b i]
    abel
  · dsimp only
    rw [Multiset.card_add, Multiset.card_map, Finset.card_def]
    omega
  · intro x hx
    rcases mem_setWord.mp hx with hx | hx
    · exact h.flagged x hx.1
    · exact absurd hx.2.2 (Finset.notMem_empty _)

theorem inv_next (h : Inv boxes s) {m : Micro} {rest : List Micro} (htodo : s.todo = m :: rest)
    (hsmall : m = .invoke → s.pendingFlag + 1 < 2 ^ 32) {s' : State}
    (hs' : perform boxes s rest m = some s') : Inv boxes s' := by
  cases h.agenda with
  | idle hnil => simp [htodo] at hnil
  | between bs hform counted =>
      cases bs with
      | nil =>
          obtain ⟨rfl, rfl⟩ := List.cons.inj (htodo.symm.trans hform)
          rw [← Option.some.inj hs']
          exact inv_judge h counted
      | cons b bs =>
          obtain ⟨rfl, rfl⟩ := List.cons.inj (htodo.symm.trans hform)
          obtain ⟨mb, hbox, hs'⟩ := Option.bind_eq_some_iff.mp hs'
          rw [← Option.some.inj hs']
          exact inv_getEventFlag h htodo counted hbox
  | reading work bs hform isWork nodup set counted =>
      cases work with
      | nil =>
          obtain ⟨rfl, rfl⟩ := List.cons.inj (htodo.symm.trans hform)
          rw [← Option.some.inj hs']
          exact inv_tally h htodo counted
      | cons n work =>
          obtain ⟨rfl, rfl⟩ := List.cons.inj (htodo.symm.trans hform)
          cases m with
          | take x =>
              rw [← Option.some.inj hs']
              exact inv_register h htodo rfl isWork nodup set
          | load x =>
              rw [← Option.some.inj hs']
              refine h.load htodo rfl (.reading (_ :: work) bs rfl ?_ nodup set counted)
              intro n hn
              rcases List.mem_cons.mp hn with rfl | hn
              · rfl
              · exact isWork n (List.mem_cons_of_mem _ hn)
          | store x w =>
              have hw : w = word s.flags x.box x.slot := by
                apply h.held (.store x w)
                · rw [htodo]
                  rfl
                · rfl
              rw [← Option.some.inj hs', hw, setWord_erase]
              exact inv_register h htodo rfl isWork nodup set
          | stop => cases hs'
          | _ => simp [Micro.isWork] at isWork
  | invoking hform =>
      obtain ⟨rfl, rfl⟩ := List.cons.inj (htodo.symm.trans hform)
      exact inv_invoke h hform (hsmall rfl) hs'
  | closing final hform isFinal =>
      cases final with
      | nil =>
          obtain ⟨rfl, rfl⟩ := List.cons.inj (htodo.symm.trans hform)
          rw [← Option.some.inj hs']
          exact inv_dec h
      | cons n final =>
          obtain ⟨rfl, rfl⟩ := List.cons.inj (htodo.symm.trans hform)
          have hfinal : ∀ n ∈ final, n.isFinal = true :=
            fun n hn => isFinal n (List.mem_cons_of_mem _ hn)
          cases m with
          | finalizeLoad b i =>
              rw [← Option.some.inj hs']
              refine h.load htodo rfl (.closing (_ :: final) rfl ?_)
              intro n hn
              rcases List.mem_cons.mp hn with rfl | hn
              · rfl
              · exact hfinal n hn
          | finalizeStore b i w =>
              rw [← Option.some.inj hs']
              exact inv_finalizeStore h htodo hfinal
          | _ => simp [Micro.isFinal] at isFinal

theorem inv_step {a : Op} {s' : State} (h : Inv boxes s) (hg : Orderly s a)
    (hs' : step boxes s a = some s') : Inv boxes s' := by
  cases a with
  | increment x =>
      simp only [step, Option.ite_none_right_eq_some, Option.some.injEq] at hs'
      rw [← hs'.2]
      exact inv_increment h hs'.1 hg
  | accumulate x =>
      simp only [step, Option.ite_none_right_eq_some, Option.some.injEq] at hs'
      rw [← hs'.2]
      exact inv_accumulate h hs'.1 hg.1 hg.2
  | checkMailBox =>
      simp only [step, Option.ite_none_right_eq_some, Option.some.injEq] at hs'
      rw [← hs'.2]
      exact inv_checkMailBox h hs'.1.1
  | localSetMailBox b k =>
      obtain ⟨mb, hbox, hs'⟩ := Option.bind_eq_some_iff.mp hs'
      simp only [Option.ite_none_right_eq_some, Option.some.injEq] at hs'
      rw [← hs'.2]
      exact inv_localSetMailBox h hbox hs'.1.2.1 hs'.1.1 k hg
  | finalizeMailBox b =>
      obtain ⟨mb, -, hs'⟩ := Option.bind_eq_some_iff.mp hs'
      simp only [Option.ite_none_right_eq_some, Option.some.injEq] at hs'
      rw [← hs'.2]
      exact inv_finalizeMailBox h b mb.words
  | getCDToRecover =>
      simp only [step, Option.ite_none_right_eq_some, Option.some.injEq] at hs'
      rw [← hs'.2]
      exact inv_getCDToRecover h
  | next =>
      cases htodo : s.todo with
      | nil => simp [step, htodo] at hs'
      | cons m rest =>
          simp only [step, htodo] at hs'
          refine inv_next h htodo ?_ hs'
          rintro rfl
          apply hg
          rw [htodo]
          rfl

end Steps

theorem inv_start (boxes : List Box) : Inv boxes start := by
  refine ⟨rfl, rfl, by decide, ?_, ?_, ?_, ?_, ?_, ?_, .idle rfl rfl⟩
  all_goals
    intro x hx
    simp [start] at hx

/-- In every interleaving whose steps are orderly, the counter, the flags and the queue conserve
the events. -/
theorem orderly_runs_conserve_events (boxes : List Box) (ops : List Op)
    (hops : Guarded (step boxes) Orderly start ops) :
    Always (step boxes) Conserved start ops :=
  Always.mono (fun _ h => Inv.conserved h) ops start
    (always_of_guarded (fun _ _ _ h hg hs' => inv_step h hg hs') ops start (inv_start boxes) hops)

instance (s : State) (a : Op) : Decidable (Orderly s a) := by
  cases a <;> unfold Orderly <;> infer_instance

def headOfThree : Box := ⟨true, 3, 0, by decide, by decide⟩

/-- Two members report an error each, and the head checks its mailbox after the first flag is set.
The second report is in flight then, and its flag is set while the first one is handled. -/
def twoReports : List Op :=
  [.increment ⟨0, 1, .errorOccurred⟩, .increment ⟨0, 2, .errorOccurred⟩,
    .accumulate ⟨0, 1, .errorOccurred⟩, .checkMailBox, .next,
    .accumulate ⟨0, 2, .errorOccurred⟩, .next, .next, .next, .next, .next, .next, .next]

theorem two_reports_conserve_events :
    Guarded (step [headOfThree]) Orderly start twoReports ∧
      Always (step [headOfThree]) Conserved start twoReports := by
  have hops : Guarded (step [headOfThree]) Orderly start twoReports := by decide +kernel
  exact ⟨hops, orderly_runs_conserve_events [headOfThree] twoReports hops⟩

def repeatedReport : List Op :=
  [.increment ⟨0, 1, .errorOccurred⟩, .accumulate ⟨0, 1, .errorOccurred⟩,
    .increment ⟨0, 1, .errorOccurred⟩, .accumulate ⟨0, 1, .errorOccurred⟩,
    .checkMailBox, .next, .next, .next, .next, .next, .next, .next, .next]

theorem repeated_report_is_lost :
    ¬ ∀ (boxes : List Box) (ops : List Op), Always (step boxes) Conserved start ops := by
  intro h
  have hrun : ∃ s ∈ run (step [headOfThree]) start repeatedReport, s.todo = [] ∧
      s.pendingFlag = 1 ∧ s.flags = ∅ ∧ s.cdEvent = [] ∧ s.flight = 0 ∧
      s.sent ≠ s.handled := by
    decide +kernel
  obtain ⟨s, hs, -, -, hflags, hqueue, hflight, hne⟩ := hrun
  have hledger := (Always.last repeatedReport start s (h [headOfThree] repeatedReport) hs).ledger
  rw [Ledger, hflags, hqueue, hflight] at hledger
  apply hne
  rw [hledger]
  simp

end CDRuntime.Mailbox
