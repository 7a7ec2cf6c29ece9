import CDRuntime.CommLogPacked

namespace CDRuntime
open Splice

section Copies

variable {α : Type*} {b xs ys : List α} {pos : ℕ}

theorem drop_splice_end (h : pos + xs.length ≤ b.length) :
    (splice b pos xs).drop (pos + xs.length) = b.drop (pos + xs.length) := by
  have hlen : (b.take pos ++ xs).length = pos + xs.length := by
    rw [List.length_append, List.length_take, Nat.min_eq_left (by omega)]
  rw [splice, ← List.append_assoc, ← hlen, List.drop_left]

theorem splice_splice_next (h : pos + xs.length + ys.length ≤ b.length) :
    splice (splice b pos xs) (pos + xs.length) ys = splice b pos (xs ++ ys) := by
  have hdrop : (splice b pos xs).drop (pos + xs.length + ys.length) =
      b.drop (pos + xs.length + ys.length) := by
    rw [← List.drop_drop, drop_splice_end (by omega), List.drop_drop]
  calc splice (splice b pos xs) (pos + xs.length) ys
      = b.take pos ++ xs ++ (ys ++ b.drop (pos + xs.length + ys.length)) := by
        rw [splice, take_splice_end (by omega), hdrop]
    _ = splice b pos (xs ++ ys) := by
        rw [splice, List.length_append, ← Nat.add_assoc]
        simp only [List.append_assoc]

end Copies

namespace ChildLogQueue

theorem putAll_eq (xss : List (List UInt8)) : ∀ q : ChildLogQueue, q.basePtr = some q.buffer →
    q.curPos + xss.flatten.length ≤ q.buffer.length →
    q.putAll xss = some ⟨some (splice q.buffer q.curPos xss.flatten), q.size,
      q.curPos + xss.flatten.length⟩ := by
  induction xss with
  | nil =>
      intro q halloc _
      rw [putAll, List.flatten_nil, splice_nil, ← halloc]
      rfl
  | cons xs xss ih =>
      intro q halloc hfit
      rw [List.flatten_cons, List.length_append] at hfit
      have hput : q.put xs = some { q with
          basePtr := some (splice q.buffer q.curPos xs), curPos := q.curPos + xs.length } := by
        rw [put, halloc, Option.bind_some, store_of_le (by omega), Option.map_some]
      have hlen : (splice q.buffer q.curPos xs).length = q.buffer.length :=
        splice_length (by omega)
      have hrest := ih { q with
          basePtr := some (splice q.buffer q.curPos xs), curPos := q.curPos + xs.length } rfl
        (by rw [buffer_mk, hlen]; dsimp only; omega)
      rw [putAll, hput, Option.bind_some, hrest, buffer_mk, splice_splice_next (by omega),
        List.flatten_cons, List.length_append, Nat.add_assoc]

end ChildLogQueue

namespace CommLog

section Push

variable {c p : CommLog} {cs : List CommLog}

theorem packAndPushLogs_eq {q : ChildLogQueue} {used : List UInt8} (hc : Packable c)
    (halloc : checkChildLogAlloc p (packLength c) = some (.ok, { p with childLog := q }))
    (hfilled : q.Filled used (packLength c)) :
    packAndPushLogs c p = some (.ok, { p with childLog :=
      ⟨some (splice q.buffer q.curPos (packedRecord c)), q.size, q.curPos + packLength c⟩ }) := by
  have hlen := packedRecord_length hc
  have hput := ChildLogQueue.putAll_eq (sections c) q hfilled.alloc (by
    have := hfilled.fits
    rw [show (sections c).flatten = packedRecord c from rfl, hlen, hfilled.size, hfilled.pos]
    exact this)
  rw [show (sections c).flatten = packedRecord c from rfl, hlen] at hput
  simp only [packAndPushLogs, halloc, Option.bind_eq_bind, Option.bind_some]
  rw [packLogs, readCells_eq hc.tableRead, readCells_eq hc.queueRead, readCells_eq hc.childRead]
  simp only [Option.bind_eq_bind, Option.bind_some]
  show (q.putAll (sections c)).bind _ = _
  rw [hput, Option.bind_some]

/-- The log of the child is pushed, and its entry is completed in the record; or the entry is
completed first. Both calls find the entry, the parent becomes the same, what its buffer held in
front of the record stays, and the child unpacks the completed log. -/
theorem complete_pushed_eq_push_completed {flag i : ℕ} {e : LogTableElement} {data : List UInt8}
    (hv : c.Valid) (hc : Packable c) (hparent : HoldsLogs p cs) (hunit : 0 < p.childLogSizeUnit)
    (hfirst : FirstWithFlag c.logTable flag i e) (hfree : ∀ x ∈ cs, FlagFree flag x)
    (hlen : e.length = data.length) :
    ∃ p₁ c' p₂, packAndPushLogs c p = some (.ok, p₁) ∧
      probeAndLogDataPacked p₁ data flag = some (true, p₂) ∧
      probeAndLogData c data flag = some (true, c') ∧
      packAndPushLogs c' p = some (.ok, p₂) ∧
      p₂.childLog.buffer.take p.childLog.curPos = p.childLog.buffer.take p.childLog.curPos ∧
      p₂.childLog.curPos = p₁.childLog.curPos ∧
      ∀ d : CommLog, d.myCd.cdId = c.myCd.cdId → ∃ d',
        unpackLogs d p₂.childLog.buffer p.childLog.curPos = some (.ok, d') ∧ SameLog c' d' := by
  have hv' := (completedLog_completes hv hfirst hlen).valid
  have hc' := completedLog_packable hc hv' (List.mem_of_getElem? hfirst.1)
  have hreclen := packedRecord_completedLog_length hc hc'
  have hpacklen : packLength (completedLog c i e data) = packLength c := rfl
  -- the room is made for either record
  obtain ⟨q, halloc, hfilled⟩ := checkChildLogAlloc_filled hparent.pushed hunit (packLength c)
  have hpush := packAndPushLogs_eq hc halloc hfilled
  have hpush' := packAndPushLogs_eq hc' (hpacklen ▸ halloc) (hpacklen ▸ hfilled)
  obtain ⟨q₁, hq₁, hpushed, -⟩ := packAndPushLogs_spec hc hparent.pushed hunit
  rw [hpush] at hq₁
  obtain ⟨-, hq₁⟩ := Prod.mk.inj (Option.some.inj hq₁)
  rw [← hq₁] at hpushed
  have hholds : HoldsLogs { p with childLog := ⟨some (splice q.buffer q.curPos (packedRecord c)),
      q.size, q.curPos + packLength c⟩ } (cs ++ [c]) := by
    refine ⟨hpushed, fun x hx => ?_, fun x hx => ?_⟩
    · rcases List.mem_append.mp hx with hx | hx
      · exact hparent.packable x hx
      · rw [List.mem_singleton.mp hx]
        exact hc
    · rcases List.mem_append.mp hx with hx | hx
      · exact hparent.valid x hx
      · rw [List.mem_singleton.mp hx]
        exact hv
  have hprobe := @probeAndLogDataPacked_eq _ _ _ _ _ _ _ data hholds hfree hfirst
  -- the record that was completed in place is the record of the completed log
  have hfit : q.curPos + (packedRecord c).length ≤ q.buffer.length := by
    rw [packedRecord_length hc, hfilled.size, hfilled.pos]
    exact hfilled.fits
  have hfront : q.buffer.take q.curPos = cs.flatMap packedRecord := by
    rw [hfilled.pos, hfilled.content]
  have hsame : cs.flatMap packedRecord ++ (packedRecord (completedLog c i e data) ++
      (List.flatMap packedRecord [] ++
        (splice q.buffer q.curPos (packedRecord c)).drop (q.curPos + packLength c))) =
      splice q.buffer q.curPos (packedRecord (completedLog c i e data)) := by
    rw [List.flatMap_nil, List.nil_append, ← packedRecord_length hc, drop_splice_end hfit, splice,
      hfront, hreclen]
  rw [if_neg (not_not_intro hlen)] at hprobe
  simp only [ChildLogQueue.buffer_mk, hsame] at hprobe
  have hstart : q.curPos = p.childLog.curPos := by
    rw [hfilled.pos, hparent.pushed.1]
  have htake : (splice q.buffer q.curPos (packedRecord (completedLog c i e data))).take
      (q.curPos + packLength c) =
      cs.flatMap packedRecord ++ (packedRecord (completedLog c i e data) ++ []) := by
    rw [← packedRecord_length hc, ← hreclen, take_splice_end (by rw [hreclen]; exact hfit), hfront,
      List.append_nil]
  refine ⟨_, _, _, hpush, hprobe, probeAndLogData_eq_completedLog hv hfirst hlen, hpush', ?_, rfl,
    fun d hd => ?_⟩
  · rw [pushed_take hparent.pushed, ← hstart, ← hfront, ChildLogQueue.buffer_mk, splice,
      List.take_left']
    rw [List.length_take, Nat.min_eq_left (by omega)]
  · rw [ChildLogQueue.buffer_mk, hparent.pushed.1]
    exact unpackLogs_spec hc' htake (by rw [hd]; exact CDID.same_refl _)

end Push

def waitingChild (flag : ℕ) : CommLog :=
  { create default .generateLog 2 1 1 with
    logTable := ⟨some [⟨0, 2, false, flag, 1, 0, false, 0⟩], 1, 1⟩
    logQueue := ⟨some [0, 0], 2, 2⟩ }

theorem waitingChild_valid (flag : ℕ) : (waitingChild flag).Valid := by
  refine ⟨⟨rfl, rfl, Nat.one_pos, Nat.le_refl 1⟩, ⟨rfl, rfl, Nat.le_refl 2⟩, ?_, ?_⟩
  · intro e he
    have he' : e = ⟨0, 2, false, flag, 1, 0, false, 0⟩ := List.mem_singleton.mp he
    rw [he']
    exact Nat.le_refl 2
  · exact List.pairwise_singleton _ _

theorem waitingChild_packable {flag : ℕ} (h : flag < 256) : Packable (waitingChild flag) := by
  have h8 : ∀ n, n < 256 → (Layout.nat 8).Fits n := fun n hn => Layout.nat_fits_of_lt (by decide) hn
  refine ⟨Nat.le_refl 1, Nat.le_refl 1, ?_, ⟨h8 1 (by decide), h8 1 (by decide)⟩, Nat.le_refl 2,
    Nat.le_refl 2, ⟨h8 2 (by decide), h8 2 (by decide)⟩, Nat.le_refl 0, Nat.le_refl 0,
    ⟨h8 0 (by decide), h8 0 (by decide)⟩, h8 210 (by decide)⟩
  intro e he
  have he' : e = ⟨0, 2, false, flag, 1, 0, false, 0⟩ := List.mem_singleton.mp he
  rw [he']
  exact ⟨h8 0 (by decide), h8 2 (by decide), Layout.bool_fits _, h8 flag h,
    h8 1 (by decide), h8 0 (by decide), Layout.bool_fits _,
    Layout.nat_fits_of_lt (by decide) (by decide : 0 < 256)⟩

theorem waiting_child_completed_both_ways : ∃ p₀ p₁ c' p₂,
    packAndPushLogs (waitingChild 6) (create default .generateLog 1 1 1) = some (.ok, p₀) ∧
    0 < p₀.childLog.curPos ∧
    packAndPushLogs (waitingChild 5) p₀ = some (.ok, p₁) ∧
    probeAndLogDataPacked p₁ [7, 8] 5 = some (true, p₂) ∧
    probeAndLogData (waitingChild 5) [7, 8] 5 = some (true, c') ∧
    packAndPushLogs c' p₀ = some (.ok, p₂) := by
  have hpackable : Packable (waitingChild 6) := waitingChild_packable (by decide)
  have hempty : Pushed (create default .generateLog 1 1 1) [] := ⟨rfl, .inr ⟨rfl, rfl⟩⟩
  obtain ⟨q, hfirstPush, hpushed, hpos⟩ := packAndPushLogs_spec hpackable hempty Nat.one_pos
  have hparent : HoldsLogs { create default .generateLog 1 1 1 with childLog := q }
      [waitingChild 6] := by
    refine ⟨hpushed, fun x hx => ?_, fun x hx => ?_⟩
    · rw [List.mem_singleton.mp hx]
      exact hpackable
    · rw [List.mem_singleton.mp hx]
      exact waitingChild_valid 6
  have hfree : ∀ x ∈ [waitingChild 6], FlagFree 5 x := by
    intro x hx e he
    rw [List.mem_singleton.mp hx] at he
    rw [List.mem_singleton.mp he]
    exact (by decide : 6 ≠ 5)
  have hfirst : FirstWithFlag (waitingChild 5).logTable 5 0 ⟨0, 2, false, 5, 1, 0, false, 0⟩ :=
    ⟨rfl, rfl, fun j hj => absurd hj (Nat.not_lt_zero j)⟩
  obtain ⟨p₁, c', p₂, hpush, hpacked, hprobe, hpush', -⟩ := complete_pushed_eq_push_completed
    (waitingChild_valid 5) (waitingChild_packable (by decide)) hparent Nat.one_pos hfirst hfree
    (show 2 = ([7, 8] : List UInt8).length from rfl)
  refine ⟨_, p₁, c', p₂, hfirstPush, ?_, hpush, hpacked, hprobe, hpush'⟩
  show 0 < q.curPos
  rw [hpos]
  exact Nat.add_pos_right 0 (by decide)

end CommLog

end CDRuntime
