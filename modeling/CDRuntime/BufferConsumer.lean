import CDRuntime.DataStoreFlushMode
import Mathlib.Logic.Function.Basic

namespace CDRuntime
open DataStore

inductive ConsumerFault where
  | nullBuffer
  | negativeRest
  | undefined
  deriving DecidableEq, Repr

/-- The registered stores are numbered in the order of `buf_list_`, each one with its file. A round
holds the mutex, so nothing else happens in between. -/
structure BufferConsumer (n : ℕ) where
  stores : Fin n → DataStore × FileHandle
  activeBuffer : Option (Fin n × BufferMode)

namespace BufferConsumer

variable {n : ℕ}

def markActive (c : BufferConsumer n) (i : Fin n) : BufferConsumer n :=
  { c with activeBuffer := some (i, (c.stores i).1.mode) }

def setEager (s : DataStore) : DataStore := { s with mode := { s.mode with eagerWriting := true } }

def setActiveBuffer (c : BufferConsumer n) (i : Fin n) (highPriority : Bool) : BufferConsumer n :=
  if highPriority then
    markActive { c with
      stores := Function.update c.stores i (setEager (c.stores i).1, (c.stores i).2) } i
  else c

/-- An active buffer is not looked at, only its state; without one, the first store is taken that
is not empty and eager. -/
def getBuffer (c : BufferConsumer n) : Option (Fin n) :=
  match c.activeBuffer with
  | some (i, state) => if state.eagerWriting then some i else none
  | none => (List.finRange n).find? fun i =>
      decide (¬ (c.stores i).1.isEmpty) && (c.stores i).1.mode.eagerWriting

/-- The part of a round that works on the buffer, up to `FileSync`. -/
def consume (p : DataStore × FileHandle) : Except ConsumerFault (DataStore × FileHandle) :=
  match p.1.writeFile p.2 chunkAlignment with
  | none => .error .undefined
  | some (s, f) =>
      let rest : ℤ := s.tail - s.head
      if 0 < rest ∧ rest < chunkAlignment then
        match s.writeFile f rest.toNat with
        | none => .error .undefined
        -- `buffer = NULL`, and then `buffer->FileSync()`
        | some _ => .error .nullBuffer
      else if rest < 0 then .error .negativeRest
      else .ok (s, f)

/-- A round. The consumer goes on waiting as long as `GetBuffer` returns `NULL`; the second call
finds what the first one has found. -/
def round (c : BufferConsumer n) : Option (Except ConsumerFault (BufferConsumer n)) := do
  let _ ← c.getBuffer
  some (match c.getBuffer with
    | none => .error .nullBuffer
    | some i => (consume (c.stores i)).map fun p =>
        { c with stores := Function.update c.stores i p })

/-- No null buffer and no error; no head passes its tail, and every store keeps the bytes of its
stream, of which a part has moved from the ring to the file. -/
def Safe (c : BufferConsumer n) : Prop :=
  ∀ r, c.round = some r → ∃ c', r = .ok c' ∧ ∀ i : Fin n,
    (c'.stores i).1.head ≤ (c'.stores i).1.tail ∧
    ∀ stream, (c.stores i).1.Buffers (c.stores i).2 stream →
      (c'.stores i).1.Buffers (c'.stores i).2 stream

/-- The fill levels of a buffer that a round can handle. -/
def Handled (s : DataStore) : Prop :=
  s.bufUsed = chunkAlignment ∨ 2 * chunkAlignment ≤ s.bufUsed

section Round

variable {p : DataStore × FileHandle} {stream : ℕ → UInt8}

theorem consume_of_handled (h : p.1.Buffers p.2 stream) (hused : Handled p.1) :
    ∃ p', consume p = .ok p' ∧ ∀ stream, p.1.Buffers p.2 stream → p'.1.Buffers p'.2 stream := by
  have hchunk : chunkAlignment ≤ p.1.bufUsed := by
    rcases hused with heq | hge <;> omega
  have hdown : alignDown chunkAlignment = chunkAlignment := by decide
  have hbuf : p.1.bufUsed = p.1.tail - p.1.head := rfl
  have hord := h.ordered
  obtain ⟨f', hrun, -⟩ := writeFile_buffers h hchunk
  rw [hdown] at hrun
  refine ⟨({ p.1 with head := p.1.head + chunkAlignment }, f'), ?_, fun stream hs => ?_⟩
  · have hrest : ¬ (0 < (p.1.tail : ℤ) - (p.1.head + chunkAlignment : ℕ) ∧
        (p.1.tail : ℤ) - (p.1.head + chunkAlignment : ℕ) < chunkAlignment) := by
      rcases hused with heq | hge <;> omega
    have hneg : ¬ (p.1.tail : ℤ) - (p.1.head + chunkAlignment : ℕ) < 0 := by omega
    rw [consume, hrun]
    simp only [if_neg hrest, if_neg hneg]
  · obtain ⟨f'', hrun', hbuf'⟩ := writeFile_buffers hs hchunk
    rw [hdown] at hrun' hbuf'
    obtain rfl := (Prod.mk.inj (Option.some.inj (hrun.symm.trans hrun'))).2
    exact hbuf'

theorem handled_of_consume (hord : p.1.head ≤ p.1.tail) {p' : DataStore × FileHandle}
    (h : consume p = .ok p') : Handled p.1 := by
  have hdown : alignDown chunkAlignment = chunkAlignment := by decide
  have hbuf : p.1.bufUsed = p.1.tail - p.1.head := rfl
  rw [consume] at h
  cases hrun : p.1.writeFile p.2 chunkAlignment with
  | none =>
      rw [hrun] at h
      cases h
  | some r =>
      obtain ⟨f', -, hr⟩ := Option.bind_eq_some_iff.mp hrun
      rw [hrun, ← Option.some.inj hr, hdown] at h
      simp only at h
      by_contra hnot
      by_cases hpart : 0 < (p.1.tail : ℤ) - (p.1.head + chunkAlignment : ℕ) ∧
          (p.1.tail : ℤ) - (p.1.head + chunkAlignment : ℕ) < chunkAlignment
      · rw [if_pos hpart] at h
        split at h <;> cases h
      · rw [if_neg hpart] at h
        have hneg : (p.1.tail : ℤ) - (p.1.head + chunkAlignment : ℕ) < 0 := by
          unfold Handled at hnot
          omega
        rw [if_pos hneg] at h
        cases h

end Round

theorem buffers_some {s : DataStore} {f : FileHandle} (hord : s.head ≤ s.tail)
    (hb : s.bufUsed ≤ s.size) {ptr : Cells UInt8} (hptr : s.ptr = some ptr) :
    s.Buffers f fun i => if i < s.head then f.content (s.writtenLen + i) else ptr (i % s.size) := by
  refine ⟨hord, hb, ptr, hptr, ?_, ?_⟩
  · intro i hi
    rw [if_pos hi]
  · intro i hi _
    rw [if_neg (Nat.not_lt.mpr hi)]

theorem round_eq {c : BufferConsumer n} {i : Fin n} (h : c.getBuffer = some i) :
    c.round = some ((consume (c.stores i)).map fun p =>
      { c with stores := Function.update c.stores i p }) := by
  simp only [round, h, Option.bind_eq_bind, Option.bind_some]

theorem handled_of_safe {c : BufferConsumer n} (h : c.Safe) {i : Fin n}
    (hget : c.getBuffer = some i) (hord : (c.stores i).1.head ≤ (c.stores i).1.tail) :
    Handled (c.stores i).1 := by
  obtain ⟨c', hok, -⟩ := h _ (round_eq hget)
  cases hrun : consume (c.stores i) with
  | error e =>
      rw [hrun] at hok
      cases hok
  | ok p' => exact handled_of_consume hord hrun

/-- A round is safe exactly when the buffer it takes, if any, holds one chunk or at least two. -/
theorem round_safe_iff (c : BufferConsumer n)
    (hused : ∀ i, (c.stores i).1.head ≤ (c.stores i).1.tail ∧
      (c.stores i).1.bufUsed ≤ (c.stores i).1.size)
    (halloc : ∀ i, 0 < (c.stores i).1.size → (c.stores i).1.ptr.isSome) :
    c.Safe ↔ ∀ i, c.getBuffer = some i → Handled (c.stores i).1 := by
  constructor
  · intro hsafe i hi
    exact handled_of_safe hsafe hi (hused i).1
  · intro hall r hr
    cases hget : c.getBuffer with
    | none =>
        rw [round, hget] at hr
        cases hr
    | some i =>
        have hhandled := hall i hget
        have hpos : 0 < (c.stores i).1.size := by
          have hle := (hused i).2
          have hchunk := chunkAlignment_pos
          rcases hhandled with heq | hge <;> omega
        obtain ⟨ptr, hptr⟩ := Option.isSome_iff_exists.mp (halloc i hpos)
        have hbuf := buffers_some (f := (c.stores i).2) (hused i).1 (hused i).2 hptr
        obtain ⟨p', hrun, hkeep⟩ := consume_of_handled hbuf hhandled
        rw [round_eq hget, hrun] at hr
        refine ⟨{ c with stores := Function.update c.stores i p' }, (Option.some.inj hr).symm,
          fun k => ?_⟩
        by_cases hk : k = i
        · rw [hk]
          simp only [Function.update_self]
          exact ⟨(hkeep _ hbuf).ordered, hkeep⟩
        · simp only [Function.update_of_ne hk]
          exact ⟨(hused k).1, fun _ h => h⟩

def oneStore (tail : ℕ) : BufferConsumer 1 where
  stores := fun _ => ({ chunkRing 0 tail with size := 2 * chunkAlignment }, ⟨0, fun _ => 0⟩)
  activeBuffer := none

theorem full_chunk_safe : ((oneStore chunkAlignment).setActiveBuffer 0 true).Safe := by
  apply (round_safe_iff _ _ _).mpr
  · intro i _
    obtain rfl := Subsingleton.elim i 0
    exact Or.inl rfl
  · intro i
    obtain rfl := Subsingleton.elim i 0
    decide
  · intro i _
    obtain rfl := Subsingleton.elim i 0
    rfl

theorem partial_chunk_unsafe :
    ((oneStore (chunkAlignment + 1)).setActiveBuffer 0 true).round = some (.error .nullBuffer) ∧
      ¬ ((oneStore (chunkAlignment + 1)).setActiveBuffer 0 true).Safe := by
  have hround : ((oneStore (chunkAlignment + 1)).setActiveBuffer 0 true).round =
      some (.error .nullBuffer) := rfl
  refine ⟨hround, fun h => ?_⟩
  obtain ⟨c', hok, -⟩ := h _ hround
  cases hok

-- an empty store that has been made active is written all the same
example : ((oneStore 0).setActiveBuffer 0 true).round = some (.error .negativeRest) := rfl

end BufferConsumer

end CDRuntime
