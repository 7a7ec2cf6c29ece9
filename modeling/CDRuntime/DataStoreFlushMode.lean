import CDRuntime.DataStoreFetch

namespace CDRuntime
open Cells

namespace DataStore

/-- `WriteFlushMode(src, len)` for at most `fuel` calls. The recursive call starts at the same
source again, and its return value is dropped. -/
def writeFlushLoop : ℕ → DataStore → FileHandle → List UInt8 → ℕ →
    Option (ℕ × DataStore × FileHandle)
  | 0, _, _, _, _ => none
  | fuel + 1, s, f, src, len =>
      if len = 0 then some (s.used, s, f)
      else do
        let (s, f) ← (if s.size < len + s.bufUsed then s.writeFile f s.bufUsed else some (s, f))
        let sizeToWrite := if len ≤ s.size then len else s.size
        let (offset, s) ← s.writeMem (src.take sizeToWrite)
        if 0 < len - sizeToWrite then
          let (_, s, f) ← writeFlushLoop fuel s f src (len - sizeToWrite)
          some (offset, s, f)
        else some (offset, s, f)

/-- A call writes at least one byte, unless the ring has none; then the recursion never ends. -/
def writeFlushMode (s : DataStore) (f : FileHandle) (src : List UInt8) :
    Option (ℕ × DataStore × FileHandle) :=
  writeFlushLoop (src.length + 1) s f src src.length

/-- The store behind a ring, with the bytes of a stream in the file and the ring. -/
structure Buffers (s : DataStore) (f : FileHandle) (stream : ℕ → UInt8) : Prop where
  ordered : s.head ≤ s.tail
  bounded : s.tail - s.head ≤ s.size
  bytes : ∃ ptr, s.ptr = some ptr ∧ s.Streams f ptr stream

def extend (stream : ℕ → UInt8) (tail : ℕ) (src : List UInt8) : ℕ → UInt8 :=
  fun i => if i < tail then stream i else src.getD (i - tail) 0

/-- The write returns the position of the tail and appends the source to the stream. -/
def Appends (s : DataStore) (f : FileHandle) (stream : ℕ → UInt8) (src : List UInt8) : Prop :=
  ∃ s' f', s.writeFlushMode f src = some (s.used, s', f') ∧ s'.tail = s.tail + src.length ∧
    s'.size = s.size ∧ s'.Buffers f' (extend stream s.tail src)

/-- A write of `len` bytes appends its source, whatever the ring, the file and the source hold. -/
def AppendsAll (s : DataStore) (len : ℕ) : Prop :=
  ∀ ptr f stream src, src.length = len → Buffers { s with ptr := some ptr } f stream →
    Appends { s with ptr := some ptr } f stream src

section Steps

variable {s : DataStore} {f : FileHandle} {stream : ℕ → UInt8}

theorem writeFile_buffers (h : s.Buffers f stream) {len : ℕ} (hlen : len ≤ s.bufUsed) :
    ∃ f', s.writeFile f len = some ({ s with head := s.head + alignDown len }, f') ∧
      Buffers { s with head := s.head + alignDown len } f' stream := by
  obtain ⟨hord, hb, ptr, hptr, hfile, hring⟩ := h
  have hused : s.bufUsed = s.tail - s.head := rfl
  have hle : len ≤ s.size := by omega
  obtain ⟨f', hcopy, hnew, hold⟩ :=
    copyBufferToFile_moves hptr hle f s.head (s.head + s.writtenLen)
  have hdown := alignDown_le len
  refine ⟨f', ?_, ?_, ?_, ptr, hptr, ?_, ?_⟩
  · simp only [writeFile, hcopy, Option.bind_eq_bind, Option.bind_some]
  · show s.head + alignDown len ≤ s.tail
    omega
  · show s.tail - (s.head + alignDown len) ≤ s.size
    omega
  · intro i hi
    replace hi : i < s.head + alignDown len := hi
    show f'.content (s.writtenLen + i) = stream i
    by_cases hwritten : i < s.head
    · rw [hold _ (by omega), hfile i hwritten]
    · obtain ⟨k, rfl⟩ := Nat.exists_eq_add_of_le (Nat.le_of_not_lt hwritten)
      have hcell := hnew k (by omega)
      rw [Nat.add_comm s.head s.writtenLen, Nat.add_assoc] at hcell
      rw [hcell, hring _ (by omega) (by omega)]
  · intro i hi hi'
    replace hi : s.head + alignDown len ≤ i := hi
    exact hring i (by omega) hi'

end Steps

section Write

variable {s : DataStore} {f : FileHandle} {stream : ℕ → UInt8}

/-- The bytes of a stream are determined by the store and the file. -/
theorem Buffers.unique {stream' : ℕ → UInt8} (h : s.Buffers f stream) (h' : s.Buffers f stream')
    {i : ℕ} (hi : i < s.tail) : stream i = stream' i := by
  obtain ⟨-, -, ptr, hptr, hfile, hring⟩ := h
  obtain ⟨-, -, ptr', hptr', hfile', hring'⟩ := h'
  obtain rfl := Option.some.inj (hptr.symm.trans hptr')
  rcases Nat.lt_or_ge i s.head with hlt | hge
  · rw [← hfile i hlt, hfile' i hlt]
  · rw [← hring i hge hi, hring' i hge hi]

end Write

section Shape

variable {s : DataStore} {len : ℕ}

end Shape

end DataStore

end CDRuntime
