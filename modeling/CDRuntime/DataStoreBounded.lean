import CDRuntime.DataStore
import CDRuntime.Runs

namespace CDRuntime
open Cells DataStore

namespace Bounded

/-- The store, its file, the bytes of the current `Write` that are not written yet, and the
bytes written so far. -/
structure State where
  store : DataStore
  file : FileHandle
  pending : List UInt8
  stream : List UInt8

inductive Op where
  | write (data : List UInt8)
  | writeInternal
  | writeFile (n : ℕ)

/-- Writes the next `n` bytes of the current `Write`. -/
def put (st : State) (n : ℕ) : Option State :=
  (st.store.copyAtTail (st.pending.take n)).map fun s =>
    { st with store := s, pending := st.pending.drop n, stream := st.stream ++ st.pending.take n }

/-- A `Write` starts with its first phase; each further phase is a `WriteInternal`, which waits
while the buffer is full; the consumer flushes a part of what is buffered. -/
def step (st : State) : Op → Option State
  | .write data =>
      if st.pending = [] ∧ 0 < data.length ∧ data.length ≤ st.store.size then
        put { st with pending := data } st.store.availableInChunk
      else none
  | .writeInternal =>
      if st.pending ≠ [] ∧ ¬ st.store.isFull then put st chunkAlignment else none
  | .writeFile n =>
      if 0 < n ∧ n ≤ st.store.bufUsed then
        (st.store.writeFile st.file n).map fun r => { st with store := r.1, file := r.2 }
      else none

/-- Every byte of the stream can be recovered from the file or the ring. -/
structure Recoverable (st : State) : Prop where
  ordered : st.store.head ≤ st.store.tail
  bounded : st.store.tail - st.store.head ≤ st.store.size
  inFile : ∀ i < st.store.head,
    st.stream[i]? = some (st.file.content (st.store.writtenLen + i))
  inRing : ∀ i, st.store.head ≤ i → i < st.store.tail →
    ∃ ptr, st.store.ptr = some ptr ∧ st.stream[i]? = some (ptr (i % st.store.size))

/-- An empty bounded store with an allocated ring of whole chunks. -/
structure Initial (st : State) : Prop where
  mode : st.store.mode.boundedMode = true
  head : st.store.head = 0
  tail : st.store.tail = 0
  alloc : st.store.ptr.isSome
  pos : 0 < st.store.size
  chunks : st.store.size % chunkAlignment = 0
  pending : st.pending = []
  stream : st.stream = []

/-- The stream is split between the file and the ring at the head, which is aligned. -/
structure Split (st : State) (ptr : Cells UInt8) : Prop where
  alloc : st.store.ptr = some ptr
  pos : 0 < st.store.size
  chunks : st.store.size % chunkAlignment = 0
  headAligned : st.store.head % chunkAlignment = 0
  ordered : st.store.head ≤ st.store.tail
  bounded : st.store.tail ≤ st.store.head + st.store.size
  length : st.stream.length = st.store.tail
  inFile : ∀ i < st.store.head, st.stream[i]? = some (st.file.content (st.store.writtenLen + i))
  inRing : ∀ i, st.store.head ≤ i → i < st.store.tail → st.stream[i]? = some (ptr (i % st.store.size))

/-- Between two phases of a `Write` the tail stands at the start of a chunk. -/
structure Inv (st : State) (ptr : Cells UInt8) : Prop extends Split st ptr where
  aligned : st.pending ≠ [] → st.store.tail % chunkAlignment = 0

theorem Split.recoverable {st : State} {ptr : Cells UInt8} (h : Split st ptr) : Recoverable st := by
  have hb := h.bounded
  refine ⟨h.ordered, by omega, h.inFile, fun i hi hi' => ⟨ptr, h.alloc, h.inRing i hi hi'⟩⟩

theorem tail_fits {st : State} {ptr : Cells UInt8} (h : Split st ptr) :
    st.store.tail % st.store.size + st.store.availableInChunk ≤ st.store.size := by
  have hmod : st.store.tail % st.store.size % chunkAlignment = st.store.tail % chunkAlignment :=
    Nat.mod_mod_of_dvd _ (Nat.dvd_of_mod_eq_zero h.chunks)
  have hle := next_chunk_le (Nat.mod_lt st.store.tail h.pos) h.chunks
  rw [hmod] at hle
  exact hle

theorem room_of_lt {st : State} {ptr : Cells UInt8} (h : Split st ptr)
    (hroom : st.store.tail < st.store.head + st.store.size) :
    st.store.tail + st.store.availableInChunk ≤ st.store.head + st.store.size := by
  refine next_chunk_le hroom ?_
  rw [Nat.add_mod, h.headAligned, h.chunks]
  exact Nat.zero_mod _

theorem put_inv {st st' : State} {ptr : Cells UInt8} (h : Split st ptr)
    (hroom : st.store.tail < st.store.head + st.store.size)
    (hput : put st st.store.availableInChunk = some st') : ∃ ptr', Inv st' ptr' := by
  have hfit := room_of_lt h hroom
  have hturn := tail_fits h
  have hpos := h.pos
  have hord := h.ordered
  have hlen := h.length
  have htake : (st.pending.take st.store.availableInChunk).length ≤ st.store.availableInChunk :=
    List.length_take_le _ _
  simp only [put, copyAtTail, h.alloc, Option.bind_eq_bind, Option.bind_some, Option.map_some,
    Option.some.injEq] at hput
  subst hput
  refine ⟨copyIn ptr (st.store.tail % st.store.size)
    (st.pending.take st.store.availableInChunk), ⟨rfl, h.pos, h.chunks, h.headAligned, ?_, ?_, ?_,
    ?_, ?_⟩, ?_⟩
  rotate_right
  · -- a piece that leaves something over has filled its chunk
    intro hne
    have hfull : (st.pending.take st.store.availableInChunk).length = st.store.availableInChunk := by
      rw [List.length_take]
      apply Nat.min_eq_left
      by_contra hlt
      exact hne (List.drop_eq_nil_of_le (by omega))
    dsimp only
    rw [hfull]
    exact next_chunk_aligned st.store.tail
  · dsimp only
    omega
  · dsimp only
    omega
  · dsimp only
    rw [List.length_append, hlen]
  · intro i hi
    dsimp only at hi ⊢
    rw [List.getElem?_append_left (by omega)]
    exact h.inFile i hi
  · intro i hi hi'
    dsimp only at hi hi' ⊢
    by_cases hold : i < st.store.tail
    · -- an old byte: less than one turn before the new piece
      rw [List.getElem?_append_left (by omega), h.inRing i hi hold]
      congr 1
      rw [copyIn_off]
      intro hin
      have hj : (st.store.tail + (i % st.store.size - st.store.tail % st.store.size)) %
          st.store.size = i % st.store.size := by
        rw [add_mod_of_fits (by omega)]
        omega
      exact mod_ne_of_lt (by omega) (by omega) hj.symm
    · obtain ⟨j, rfl⟩ := Nat.exists_eq_add_of_le (Nat.le_of_not_lt hold)
      have hget : (st.pending.take st.store.availableInChunk)[j]? =
          some (st.pending.take st.store.availableInChunk)[j] :=
        List.getElem?_eq_getElem (by omega)
      rw [List.getElem?_append_right (by omega), hlen, Nat.add_sub_cancel_left, hget,
        add_mod_of_fits (by omega), copyIn_at _ hget]

theorem put_overflows {st st' : State} {ptr : Cells UInt8} (h : Split st ptr)
    (hpend : st.pending ≠ []) (hfull : st.store.head + st.store.size ≤ st.store.tail)
    (hput : put st st.store.availableInChunk = some st') : ¬ Recoverable st' := by
  have havail : 0 < st.store.availableInChunk := by
    have := Nat.mod_lt st.store.tail chunkAlignment_pos
    unfold availableInChunk
    omega
  have hpos : 0 < st.pending.length := List.length_pos_of_ne_nil hpend
  have htake : 0 < (st.pending.take st.store.availableInChunk).length := by
    rw [List.length_take]
    omega
  simp only [put, copyAtTail, h.alloc, Option.bind_eq_bind, Option.bind_some, Option.map_some,
    Option.some.injEq] at hput
  subst hput
  intro hrec
  have hb := hrec.bounded
  dsimp only at hb
  omega

theorem step_writeFile {st : State} {n : ℕ} {f' : FileHandle} (hn : 0 < n)
    (hused : n ≤ st.store.bufUsed)
    (hf : st.store.copyBufferToFile st.file st.store.head n (st.store.head + st.store.writtenLen) =
      some f') :
    step st (.writeFile n) = some { st with
      store := { st.store with head := st.store.head + alignDown n }, file := f' } := by
  simp only [step, if_pos (And.intro hn hused), writeFile, hf, Option.bind_eq_bind,
    Option.bind_some, Option.map_some]

theorem flushed_inv {st : State} {ptr : Cells UInt8} {f' : FileHandle} {moved : ℕ} (h : Inv st ptr)
    (hmod : moved % chunkAlignment = 0) (hle : moved ≤ st.store.bufUsed)
    (hnew : ∀ k < moved, f'.content (st.store.head + st.store.writtenLen + k) =
      ptr ((st.store.head + k) % st.store.size))
    (hold : ∀ i < st.store.head + st.store.writtenLen, f'.content i = st.file.content i) :
    Inv { st with store := { st.store with head := st.store.head + moved }, file := f' } ptr := by
  have hord := h.ordered
  have hb := h.bounded
  unfold bufUsed at hle
  refine ⟨⟨h.alloc, h.pos, h.chunks, ?_, ?_, ?_, h.length, ?_, ?_⟩, h.aligned⟩
  · dsimp only
    rw [Nat.add_mod, h.headAligned, hmod, Nat.add_zero, Nat.zero_mod]
  · dsimp only
    omega
  · dsimp only
    omega
  · intro i hi
    dsimp only at hi ⊢
    by_cases hwritten : i < st.store.head
    · rw [hold _ (by omega), h.inFile i hwritten]
    · -- a byte that leaves the ring with this flush
      obtain ⟨k, rfl⟩ := Nat.exists_eq_add_of_le (Nat.le_of_not_lt hwritten)
      rw [h.inRing _ (Nat.le_add_right _ _) (by omega), ← hnew k (by omega)]
      congr 2
      omega
  · intro i hi hi'
    dsimp only at hi hi' ⊢
    exact h.inRing i (by omega) hi'

theorem writeFile_inv {st st' : State} {ptr : Cells UInt8} {n : ℕ} (h : Inv st ptr) (hn : 0 < n)
    (hused : n ≤ st.store.bufUsed) (hstep : step st (.writeFile n) = some st') : Inv st' ptr := by
  have hb := h.bounded
  have hle : n ≤ st.store.size := by
    unfold bufUsed at hused
    omega
  obtain ⟨f', hf', _, hnew, hold⟩ := copyBufferToFile_spec h.alloc h.pos h.chunks h.headAligned hn hle
    st.file (st.store.head + st.store.writtenLen)
  have hdown := alignDown_le n
  have hst := Option.some.inj ((step_writeFile hn hused hf').symm.trans hstep)
  rw [← hst]
  exact flushed_inv h (alignDown_mod n) (Nat.le_trans hdown hused)
    (fun k hk => hnew k (Nat.lt_of_lt_of_le hk hdown)) (fun i hi => hold i (Or.inl hi))

/-- A `Write` starts with room in the ring: it is not completely full. -/
def HasRoom (st : State) : Op → Prop
  | .write _ => st.store.bufUsed < st.store.size
  | _ => True

theorem step_inv {st st' : State} {op : Op} (h : ∃ ptr, Inv st ptr) (hroom : HasRoom st op)
    (hstep : step st op = some st') : ∃ ptr, Inv st' ptr := by
  obtain ⟨ptr, h⟩ := h
  have hord := h.ordered
  cases op with
  | write data =>
      simp only [step] at hstep
      split at hstep
      · next hen =>
        have h' : Split { st with pending := data } ptr :=
          ⟨h.alloc, h.pos, h.chunks, h.headAligned, h.ordered, h.bounded, h.length, h.inFile,
            h.inRing⟩
        exact put_inv h' (by unfold HasRoom bufUsed at hroom; dsimp only; omega) hstep
      · exact absurd hstep (by simp)
  | writeInternal =>
      simp only [step] at hstep
      split at hstep
      · next hen =>
        have hal := h.aligned hen.1
        have havail : st.store.availableInChunk = chunkAlignment := by
          rw [availableInChunk, hal, Nat.sub_zero]
        rw [← havail] at hstep
        have hnf := hen.2
        have hc := chunkAlignment_pos
        unfold isFull bufUsed at hnf
        exact put_inv h.toSplit (by omega) hstep
      · exact absurd hstep (by simp)
  | writeFile n =>
      simp only [step] at hstep
      split at hstep
      · next hen => exact ⟨ptr, writeFile_inv h hen.1 hen.2 (by rw [step, if_pos hen]; exact hstep)⟩
      · exact absurd hstep (by simp)

theorem step_bad {st st' : State} {op : Op} (h : ∃ ptr, Inv st ptr) (hroom : ¬ HasRoom st op)
    (hstep : step st op = some st') : ¬ Recoverable st' := by
  obtain ⟨ptr, h⟩ := h
  cases op with
  | write data =>
      simp only [step] at hstep
      split at hstep
      · next hen =>
        have h' : Split { st with pending := data } ptr :=
          ⟨h.alloc, h.pos, h.chunks, h.headAligned, h.ordered, h.bounded, h.length, h.inFile,
            h.inRing⟩
        have hne : data ≠ [] := List.ne_nil_of_length_pos hen.2.1
        have hord := h.ordered
        exact put_overflows h' hne (by unfold HasRoom bufUsed at hroom; dsimp only; omega) hstep
      · exact absurd hstep (by simp)
  | writeInternal => exact absurd trivial hroom
  | writeFile n => exact absurd trivial hroom

theorem initial_inv {st : State} (h : Initial st) : ∃ ptr, Inv st ptr := by
  obtain ⟨ptr, hptr⟩ := Option.isSome_iff_exists.mp h.alloc
  have hhead := h.head
  have htail := h.tail
  refine ⟨ptr, ⟨hptr, h.pos, h.chunks, ?_, by omega, by omega, ?_, ?_, ?_⟩, ?_⟩
  · rw [hhead]
    exact Nat.zero_mod _
  · rw [h.stream, htail]
    rfl
  · intro i hi
    omega
  · intro i hi hi'
    omega
  · intro hne
    exact absurd h.pending hne

/-- In every interleaving of the producer and the consumer the stream stays recoverable if and
only if no `Write` starts while the ring is completely full. -/
theorem stream_iff_room {st : State} (h : Initial st) (ops : List Op) :
    Runs.Always step Recoverable st ops ↔ Runs.Guarded step HasRoom st ops :=
  Runs.always_iff_guarded (I := fun st => ∃ ptr, Inv st ptr)
    (fun _ ⟨_, h⟩ => h.toSplit.recoverable)
    (fun _ _ _ hI hG hs => step_inv hI hG hs)
    (fun _ _ _ hI hG hs => step_bad hI hG hs) ops st (initial_inv h)

def oneChunk : State where
  store := { size := chunkAlignment, head := 0, tail := 0, growUnit := chunkAlignment, allocated := 1
             writtenLen := chunkAlignment, mode := { boundedMode := true }, ftype := .posixFile
             ptr := some fun _ => 0 }
  file := { offset := chunkAlignment, content := fun _ => 0 }
  pending := []
  stream := []

example : Initial oneChunk :=
  ⟨rfl, rfl, rfl, rfl, chunkAlignment_pos, Nat.mod_self _, rfl, rfl⟩

def twoChunks : State :=
  { oneChunk with store := { oneChunk.store with size := 2 * chunkAlignment } }

theorem twoChunks_initial : Initial twoChunks :=
  ⟨rfl, rfl, rfl, rfl, by decide, Nat.mul_mod_left _ _, rfl, rfl⟩

theorem put_advances (st : State) {ptr : Cells UInt8} (n : ℕ) (hptr : st.store.ptr = some ptr) :
    ∃ st', put st n = some st' ∧ st'.store.ptr.isSome ∧ st'.pending = st.pending.drop n ∧
      st'.store.head = st.store.head ∧ st'.store.tail = st.store.tail + min n st.pending.length ∧
      st'.store.size = st.store.size := by
  have hput : put st n = some { st with
      store := { st.store with
        ptr := some (copyIn ptr (st.store.tail % st.store.size) (st.pending.take n))
        tail := st.store.tail + (st.pending.take n).length }
      pending := st.pending.drop n
      stream := st.stream ++ st.pending.take n } := by
    simp only [put, copyAtTail, hptr, Option.bind_eq_bind, Option.bind_some, Option.map_some]
  refine ⟨_, hput, rfl, rfl, rfl, ?_, rfl⟩
  rw [← List.length_take]

theorem step_write (st : State) {ptr : Cells UInt8} (data : List UInt8)
    (hptr : st.store.ptr = some ptr) (hpend : st.pending = []) (hpos : 0 < data.length)
    (hsize : data.length ≤ st.store.size) :
    ∃ st', step st (.write data) = some st' ∧ st'.store.ptr.isSome ∧
      st'.pending = data.drop st.store.availableInChunk ∧ st'.store.head = st.store.head ∧
      st'.store.tail = st.store.tail + min st.store.availableInChunk data.length ∧
      st'.store.size = st.store.size := by
  rw [step, if_pos ⟨hpend, hpos, hsize⟩]
  exact put_advances { st with pending := data } st.store.availableInChunk hptr

theorem stream_of_two_chunks :
    Runs.Always step Recoverable twoChunks [.write [7],
      .write (List.replicate chunkAlignment 1), .writeInternal, .writeFile chunkAlignment] ∧
    ∃ st, Runs.run step twoChunks [.write [7],
        .write (List.replicate chunkAlignment 1), .writeInternal, .writeFile chunkAlignment] =
          some st ∧
      st.store.head = chunkAlignment ∧ st.store.tail = chunkAlignment + 1 := by
  have hc : chunkAlignment = 1048576 := rfl
  have hlen : (List.replicate chunkAlignment (1 : UInt8)).length = chunkAlignment :=
    List.length_replicate
  have hroom : twoChunks.store.bufUsed < twoChunks.store.size := by decide
  obtain ⟨st₁, hstep₁, hptr₁, hpend₁, hhead₁, htail₁, hsize₁⟩ :=
    step_write twoChunks [7] rfl rfl (by decide) (by decide)
  obtain ⟨ptr₁, hptr₁⟩ := Option.isSome_iff_exists.mp hptr₁
  replace hpend₁ : st₁.pending = [] := by
    rw [hpend₁]
    exact List.drop_eq_nil_of_le (by decide)
  replace htail₁ : st₁.store.tail = 1 := htail₁.trans (by decide)
  replace hhead₁ : st₁.store.head = 0 := hhead₁
  replace hsize₁ : st₁.store.size = 2 * chunkAlignment := hsize₁
  have havail₁ : st₁.store.availableInChunk = chunkAlignment - 1 := by
    rw [availableInChunk, htail₁]
    rfl
  have hroom₁ : st₁.store.bufUsed < st₁.store.size := by
    rw [bufUsed]
    omega
  obtain ⟨st₂, hstep₂, hptr₂, hpend₂, hhead₂, htail₂, hsize₂⟩ :=
    step_write st₁ (List.replicate chunkAlignment 1) hptr₁ hpend₁ (by omega) (by omega)
  obtain ⟨ptr₂, hptr₂⟩ := Option.isSome_iff_exists.mp hptr₂
  rw [havail₁, List.drop_replicate] at hpend₂
  rw [havail₁, hlen] at htail₂
  have hne₂ : st₂.pending ≠ [] := by
    rw [hpend₂]
    exact List.cons_ne_nil 1 []
  have hfull₂ : ¬ st₂.store.isFull := by
    rw [isFull, bufUsed]
    omega
  obtain ⟨st₃, hput₃, hptr₃, -, hhead₃, htail₃, hsize₃⟩ := put_advances st₂ chunkAlignment hptr₂
  have hstep₃ : step st₂ .writeInternal = some st₃ := by rw [step, if_pos ⟨hne₂, hfull₂⟩, hput₃]
  obtain ⟨ptr₃, hptr₃⟩ := Option.isSome_iff_exists.mp hptr₃
  rw [hpend₂, List.length_replicate] at htail₃
  have hend : st₃.store.head = 0 ∧ st₃.store.tail = chunkAlignment + 1 ∧
      st₃.store.size = 2 * chunkAlignment := by omega
  have hused : chunkAlignment ≤ st₃.store.bufUsed := by
    rw [bufUsed, hend.1, hend.2.1]
    exact Nat.le_add_right _ _
  have hzero : st₃.store.head % chunkAlignment = 0 := by
    rw [hend.1]
    exact Nat.zero_mod _
  obtain ⟨f', hf', -⟩ := copyBufferToFile_spec hptr₃ (by omega)
    (by rw [hend.2.2]; exact Nat.mul_mod_left _ _) hzero chunkAlignment_pos
    (by omega) st₃.file (st₃.store.head + st₃.store.writtenLen)
  have hstep₄ := step_writeFile chunkAlignment_pos hused hf'
  refine ⟨(stream_iff_room twoChunks_initial _).mpr ?_, { st₃ with
    store := { st₃.store with head := st₃.store.head + alignDown chunkAlignment }, file := f' },
    ?_, ?_, hend.2.1⟩
  · intro st hst
    obtain rfl := Option.some.inj (hstep₁.symm.trans hst)
    exact ⟨hroom, fun st _ => ⟨hroom₁, fun st _ => ⟨trivial, fun st _ => ⟨trivial, trivial⟩⟩⟩⟩
  · simp only [Runs.run, hstep₁, hstep₂, hstep₃, hstep₄, Option.bind_some]
  · dsimp only
    rw [hend.1]
    decide

theorem full_ring_overrun :
    ¬ Runs.Always step Recoverable oneChunk
      [.write (List.replicate chunkAlignment 1), .write [2]] := by
  intro h
  have hlen : (List.replicate chunkAlignment (1 : UInt8)).length = chunkAlignment :=
    List.length_replicate
  have hc := chunkAlignment_pos
  have hsize : oneChunk.store.size = chunkAlignment := rfl
  have htail : oneChunk.store.tail = 0 := rfl
  have hhead : oneChunk.store.head = 0 := rfl
  have hroom : oneChunk.store.availableInChunk = chunkAlignment := by
    rw [availableInChunk, htail, Nat.zero_mod, Nat.sub_zero]
  obtain ⟨st₁, hstep₁, hptr₁, hpend₁, hhead₁, htail₁, hsize₁⟩ :=
    step_write oneChunk (List.replicate chunkAlignment 1) rfl rfl
      (by rw [hlen]; exact hc) (Nat.le_of_eq (hlen.trans hsize.symm))
  obtain ⟨ptr, hptr⟩ := Option.isSome_iff_exists.mp hptr₁
  have hmod := Nat.mod_lt st₁.store.tail hc
  have hdone : (List.replicate chunkAlignment (1 : UInt8)).drop oneChunk.store.availableInChunk =
      [] := List.drop_eq_nil_of_le (Nat.le_of_eq (hlen.trans hroom.symm))
  obtain ⟨st₂, hstep₂, _, _, hhead₂, htail₂, hsize₂⟩ :=
    step_write st₁ [2] hptr (hpend₁.trans hdone) (by decide) (by rw [hsize₁]; exact hc)
  have hbound := ((h.2 st₁ hstep₁).2 st₂ hstep₂).bounded
  rw [List.length_singleton, availableInChunk] at htail₂
  omega

end Bounded

end CDRuntime
