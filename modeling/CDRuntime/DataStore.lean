import CDRuntime.Cells

namespace CDRuntime
open Cells

def chunkAlignment : ℕ := 1048576
def dataGrowUnit : ℕ := 0x8000000
def chunksizeThresholdBase : ℕ := 0x8000000
def twoGigabyte : ℕ := 2147483648

/-- `num & ~(CHUNK_ALIGNMENT - 1)` -/
def alignDown (num : ℕ) : ℕ := num / chunkAlignment * chunkAlignment

def alignUp (num : ℕ) : ℕ :=
  if 0 < num % chunkAlignment then alignDown num + chunkAlignment else alignDown num

inductive FileType where
  | volatile | posixFile | aioFile | mpiFile | libcFile
  deriving DecidableEq, Repr

/-- The bits of `mode_`; none of them is set in the growing mode. -/
structure BufferMode where
  concurrent : Bool := false
  boundedMode : Bool := false
  eagerWriting : Bool := false
  readMode : Bool := false
  deriving DecidableEq, Repr

structure FileHandle where
  offset : ℕ
  content : Cells UInt8

/-- `Write(offset, src, len, inc)`; the position moves by `inc`. -/
def FileHandle.write (f : FileHandle) (offset : ℕ) (xs : List UInt8) (inc : ℕ) : FileHandle :=
  { offset := f.offset + inc, content := copyIn f.content offset xs }

/-- A ring of `size` bytes that is addressed by positions modulo `size`: `head` counts the bytes
already in the file and `tail` the bytes written so far. The block size of the file handle is
`CHUNK_ALIGNMENT`. `none` is a run that stops or does not return. -/
structure DataStore where
  size : ℕ
  head : ℕ
  tail : ℕ
  growUnit : ℕ
  allocated : ℕ
  writtenLen : ℕ
  mode : BufferMode
  ftype : FileType
  ptr : Option (Cells UInt8)

namespace DataStore

def bufUsed (s : DataStore) : ℕ := s.tail - s.head
def used (s : DataStore) : ℕ := s.tail + s.writtenLen

def isEmpty (s : DataStore) : Prop := s.bufUsed < chunkAlignment

/-- The comparison is signed: a buffer smaller than a chunk is always full. -/
def isFull (s : DataStore) : Prop := s.size < s.bufUsed + chunkAlignment

instance (s : DataStore) : Decidable s.isEmpty := by unfold isEmpty; infer_instance
instance (s : DataStore) : Decidable s.isFull := by unfold isFull; infer_instance

/-- The loop of `Reallocate` on `size_` and `grow_unit_`, for at most `fuel` rounds. -/
def growTo (need : ℕ) : ℕ → ℕ → ℕ → Option (ℕ × ℕ)
  | 0, _, _ => none
  | fuel + 1, size, growUnit =>
      if need ≤ size then some (size, growUnit)
      else if twoGigabyte < size then growTo need fuel (size + growUnit) (growUnit + growUnit)
      else if 0x10000000 < size then growTo need fuel (size * 2) (size * 2)
      else growTo need fuel (size * 4) (size * 4)

/-- The copy of the bytes in use into a new block; positions are kept. -/
def copyRing (ptr new : Cells UInt8) (origSize head_ tail_ : ℕ) : Cells UInt8 :=
  let tail := tail_ % origSize
  let head := head_ % origSize
  if head_ < tail_ then
    if tail ≤ head then
      let first := origSize - head
      copyIn (copyIn new head (readOut ptr head first)) 0 (readOut ptr 0 (tail_ - head_ - first))
    else copyIn new head (readOut ptr head (tail_ - head_))
  else new

/-- A loop that has not ended after `len + bufUsed + 1` rounds of growth never ends: the size
or the unit is zero. -/
def reallocate (s : DataStore) (len : ℕ) : Option DataStore := do
  let need := len + s.bufUsed
  let (size, growUnit) ← growTo need (need + 1) s.size s.growUnit
  let ptr ← s.ptr
  some { s with
    size, growUnit
    ptr := some (copyRing ptr (fun _ => 0) s.size s.head s.tail)
    allocated := s.allocated + 1 }

/-- `CopyToBuffer` at the tail, in two pieces when the ring wraps. -/
def copyToBuffer (s : DataStore) (xs : List UInt8) : Option DataStore :=
  if xs = [] then some s
  else if s.size = 0 then none
  else do
    let ptr ← s.ptr
    let offset := s.tail % s.size
    let first := s.size - offset
    if first < xs.length then
      some { s with ptr := some (copyIn (copyIn ptr offset (xs.take first)) 0 (xs.drop first)) }
    else some { s with ptr := some (copyIn ptr offset xs) }

def copyFromBuffer (s : DataStore) (len pos : ℕ) : Option (List UInt8) :=
  if len = 0 then some []
  else if s.size = 0 then none
  else do
    let ptr ← s.ptr
    let offset := pos % s.size
    let first := s.size - offset
    if first < len then some (readOut ptr offset first ++ readOut ptr 0 (len - first))
    else some (readOut ptr offset len)

def writeMem (s : DataStore) (xs : List UInt8) : Option (ℕ × DataStore) := do
  let s' ← s.copyToBuffer xs
  some (s.used, { s' with tail := s'.tail + xs.length })

def writeCacheMode (s : DataStore) (xs : List UInt8) : Option (ℕ × DataStore) := do
  let s' ← (if s.size < xs.length + s.bufUsed then s.reallocate xs.length else some s)
  s'.writeMem xs

/-- `Copy` to the tail and the move of the tail, as each phase of `WriteBuffer` does it. The
copy never wraps: a phase stays inside one chunk. -/
def copyAtTail (s : DataStore) (xs : List UInt8) : Option DataStore := do
  let ptr ← s.ptr
  some { s with ptr := some (copyIn ptr (s.tail % s.size) xs), tail := s.tail + xs.length }

def availableInChunk (s : DataStore) : ℕ := chunkAlignment - s.tail % chunkAlignment

def copyBufferToFile (s : DataStore) (f : FileHandle) (bufPos len fileOffset : ℕ) :
    Option FileHandle :=
  if len = 0 then some f
  else if s.size = 0 then none
  else do
    let ptr ← s.ptr
    let posInBuf := bufPos % s.size
    let first := s.size - posInBuf
    if first < len then
      let second := len - first
      let f' := f.write fileOffset (readOut ptr posInBuf first) first
      some (f'.write (fileOffset + first) (readOut ptr 0 (alignUp second)) (alignDown second))
    else some (f.write fileOffset (readOut ptr posInBuf (alignUp len)) (alignDown len))

def writeFile (s : DataStore) (f : FileHandle) (len : ℕ) : Option (DataStore × FileHandle) := do
  let f' ← s.copyBufferToFile f s.head len (s.head + s.writtenLen)
  some ({ s with head := s.head + alignDown len }, f')

def flush (s : DataStore) (f : FileHandle) : Option (DataStore × FileHandle) :=
  if 0 < s.bufUsed then s.writeFile f s.bufUsed else some (s, f)

/-- `Write` in the growing mode. `threshold` is the global `chunksize_threshold`, which every
reallocation sets to 0.8 times the new size; past it the buffer is flushed unless a concurrent
consumer does so. -/
def write (s : DataStore) (f : FileHandle) (threshold : ℕ) (xs : List UInt8) :
    Option (ℕ × DataStore × FileHandle × ℕ) := do
  let (ret, s') ← s.writeCacheMode xs
  let threshold := if s.size < xs.length + s.bufUsed then s'.size * 4 / 5 else threshold
  if s'.ftype ≠ .volatile ∧ s'.mode.concurrent = false ∧ threshold ≤ s'.bufUsed then
    let (s'', f') ← s'.writeFile f s'.bufUsed
    some (ret, s'', f', threshold)
  else some (ret, s', f, threshold)

/-- `GetData` of a store without a file. -/
def getDataVolatile (s : DataStore) (len pos : ℕ) : Option (List UInt8) :=
  s.copyFromBuffer len (pos - s.writtenLen)

/-- `FreeData` of a store with a file; `Truncate` does nothing. -/
def freeData (s : DataStore) (f : FileHandle) (reuse : Bool) : DataStore × FileHandle :=
  let s := { s with tail := 0, head := 0, allocated := 0 }
  let f := { f with offset := s.writtenLen }
  if reuse then (s, f) else ({ s with size := 0, growUnit := dataGrowUnit, ptr := none }, f)

end DataStore

theorem chunkAlignment_pos : 0 < chunkAlignment := by decide

theorem alignDown_le (n : ℕ) : alignDown n ≤ n := Nat.div_mul_le_self n _

theorem alignDown_mod (n : ℕ) : alignDown n % chunkAlignment = 0 := Nat.mul_mod_left _ _

theorem alignDown_add_mod (n : ℕ) : alignDown n + n % chunkAlignment = n := by
  rw [alignDown, Nat.mul_comm]
  exact Nat.div_add_mod n _

theorem le_alignUp (n : ℕ) : n ≤ alignUp n := by
  have h := alignDown_add_mod n
  have hlt := Nat.mod_lt n chunkAlignment_pos
  unfold alignUp
  split_ifs <;> omega

theorem alignUp_mod (n : ℕ) : alignUp n % chunkAlignment = 0 := by
  unfold alignUp
  split_ifs
  · rw [Nat.add_mod_right, alignDown_mod]
  · exact alignDown_mod n

theorem alignUp_le {n m : ℕ} (h : n ≤ m) (hm : m % chunkAlignment = 0) : alignUp n ≤ m := by
  obtain ⟨k, rfl⟩ := Nat.dvd_of_mod_eq_zero hm
  have hdiv := alignDown_add_mod n
  unfold alignUp
  split_ifs with hrem
  · have hq : n / chunkAlignment < k := by
      rw [Nat.div_lt_iff_lt_mul chunkAlignment_pos, Nat.mul_comm]
      rcases Nat.eq_or_lt_of_le h with heq | hlt
      · rw [heq, Nat.mul_mod_right] at hrem
        omega
      · exact hlt
    calc alignDown n + chunkAlignment = (n / chunkAlignment + 1) * chunkAlignment := by
          rw [alignDown, Nat.add_mul, Nat.one_mul]
      _ ≤ k * chunkAlignment := Nat.mul_le_mul_right _ hq
      _ = chunkAlignment * k := Nat.mul_comm _ _
  · omega

theorem next_chunk_le {n m : ℕ} (h : n < m) (hm : m % chunkAlignment = 0) :
    n + (chunkAlignment - n % chunkAlignment) ≤ m := by
  have hdown := alignDown_add_mod n
  have hlt := Nat.mod_lt n chunkAlignment_pos
  obtain ⟨k, rfl⟩ := Nat.dvd_of_mod_eq_zero hm
  have hq : n / chunkAlignment < k := by
    rw [Nat.div_lt_iff_lt_mul chunkAlignment_pos, Nat.mul_comm]
    exact h
  have hmul : (n / chunkAlignment + 1) * chunkAlignment ≤ k * chunkAlignment :=
    Nat.mul_le_mul_right _ hq
  rw [Nat.add_mul, Nat.one_mul, ← alignDown, Nat.mul_comm k] at hmul
  omega

theorem next_chunk_aligned (n : ℕ) :
    (n + (chunkAlignment - n % chunkAlignment)) % chunkAlignment = 0 := by
  have hdown := alignDown_add_mod n
  have hlt := Nat.mod_lt n chunkAlignment_pos
  rw [show n + (chunkAlignment - n % chunkAlignment) = alignDown n + chunkAlignment by omega,
    Nat.add_mod_right, alignDown_mod]

theorem alignUp_of_aligned {n : ℕ} (h : n % chunkAlignment = 0) : alignUp n = n :=
  Nat.le_antisymm (alignUp_le (Nat.le_refl n) h) (le_alignUp n)

theorem alignDown_add {a : ℕ} (ha : a % chunkAlignment = 0) (b : ℕ) :
    alignDown (a + b) = a + alignDown b := by
  obtain ⟨k, rfl⟩ := Nat.dvd_of_mod_eq_zero ha
  rw [alignDown, Nat.mul_add_div chunkAlignment_pos, Nat.add_mul, Nat.mul_comm k, alignDown]

theorem alignUp_add {a : ℕ} (ha : a % chunkAlignment = 0) (b : ℕ) :
    alignUp (a + b) = a + alignUp b := by
  have hmod : (a + b) % chunkAlignment = b % chunkAlignment := by
    rw [Nat.add_mod, ha, Nat.zero_add, Nat.mod_mod]
  unfold alignUp
  rw [hmod, alignDown_add ha]
  split_ifs
  · rw [Nat.add_assoc]
  · rfl

theorem alignDown_of_aligned {n : ℕ} (h : n % chunkAlignment = 0) : alignDown n = n := by
  have := alignDown_add_mod n
  omega

namespace DataStore

section CopyBufferToFile

variable {s : DataStore} {ptr : Cells UInt8} {bufPos len : ℕ}

theorem copyBufferToFile_wraps (hp : s.ptr = some ptr) (hpos : 0 < s.size)
    (hwrap : s.size - bufPos % s.size < len) (f : FileHandle) (fileOffset : ℕ) :
    s.copyBufferToFile f bufPos len fileOffset =
      some ((f.write fileOffset (readOut ptr (bufPos % s.size) (s.size - bufPos % s.size))
        (s.size - bufPos % s.size)).write (fileOffset + (s.size - bufPos % s.size))
        (readOut ptr 0 (alignUp (len - (s.size - bufPos % s.size))))
        (alignDown (len - (s.size - bufPos % s.size)))) := by
  have hlen0 : ¬ len = 0 := by omega
  simp only [copyBufferToFile, if_neg hlen0, if_neg (Nat.ne_of_gt hpos), hp, Option.bind_eq_bind,
    Option.bind_some, if_pos hwrap]

theorem copyBufferToFile_fits (hp : s.ptr = some ptr) (hpos : 0 < s.size) (hlen : 0 < len)
    (hfits : ¬ s.size - bufPos % s.size < len) (f : FileHandle) (fileOffset : ℕ) :
    s.copyBufferToFile f bufPos len fileOffset =
      some (f.write fileOffset (readOut ptr (bufPos % s.size) (alignUp len)) (alignDown len)) := by
  simp only [copyBufferToFile, if_neg (Nat.ne_of_gt hlen), if_neg (Nat.ne_of_gt hpos), hp,
    Option.bind_eq_bind, Option.bind_some, if_neg hfits]

theorem copyBufferToFile_moves (hp : s.ptr = some ptr) (hle : len ≤ s.size) (f : FileHandle)
    (bufPos fileOffset : ℕ) :
    ∃ f', s.copyBufferToFile f bufPos len fileOffset = some f' ∧
      (∀ k < len, f'.content (fileOffset + k) = ptr ((bufPos + k) % s.size)) ∧
      ∀ i < fileOffset, f'.content i = f.content i := by
  rcases Nat.eq_zero_or_pos len with rfl | hlen
  · exact ⟨f, rfl, fun k hk => absurd hk (Nat.not_lt_zero k), fun _ _ => rfl⟩
  have hpos : 0 < s.size := Nat.lt_of_lt_of_le hlen hle
  have hlt := Nat.mod_lt bufPos hpos
  by_cases hwrap : s.size - bufPos % s.size < len
  · refine ⟨_, copyBufferToFile_wraps hp hpos hwrap f fileOffset, ?_, ?_⟩
    · intro k hk
      have hup := le_alignUp (len - (s.size - bufPos % s.size))
      simp only [FileHandle.write]
      by_cases hin : k < s.size - bufPos % s.size
      · rw [copyIn_before _ _ (by omega), copyIn_at _ (readOut_getElem? ptr hin),
          add_mod_of_fits (by omega)]
      · obtain ⟨j, rfl⟩ := Nat.exists_eq_add_of_le (Nat.le_of_not_lt hin)
        rw [← Nat.add_assoc, copyIn_at _ (readOut_getElem? ptr (by omega)),
          add_mod_of_wraps (by omega) (by omega)]
        congr 1
        omega
    · intro i hi
      simp only [FileHandle.write]
      rw [copyIn_before _ _ (by omega), copyIn_before _ _ hi]
  · refine ⟨_, copyBufferToFile_fits hp hpos hlen hwrap f fileOffset, ?_, ?_⟩
    · intro k hk
      have hup := le_alignUp len
      simp only [FileHandle.write]
      rw [copyIn_at _ (readOut_getElem? ptr (by omega : k < alignUp len)),
        add_mod_of_fits (by omega)]
    · intro i hi
      simp only [FileHandle.write]
      rw [copyIn_before _ _ hi]

theorem copyBufferToFile_spec (hp : s.ptr = some ptr) (hpos : 0 < s.size)
    (hchunks : s.size % chunkAlignment = 0) (hbuf : bufPos % chunkAlignment = 0) (hlen : 0 < len)
    (hle : len ≤ s.size) (f : FileHandle) (fileOffset : ℕ) :
    ∃ f', s.copyBufferToFile f bufPos len fileOffset = some f' ∧
      f'.offset = f.offset + alignDown len ∧
      (∀ k < len, f'.content (fileOffset + k) = ptr ((bufPos + k) % s.size)) ∧
      ∀ i, i < fileOffset ∨ fileOffset + alignUp len ≤ i → f'.content i = f.content i := by
  obtain ⟨f', hrun, hnew, hbefore⟩ := copyBufferToFile_moves hp hle f bufPos fileOffset
  have hlt := Nat.mod_lt bufPos hpos
  have hfirst : (s.size - bufPos % s.size) % chunkAlignment = 0 := by
    apply Nat.sub_mod_eq_zero_of_mod_eq
    rw [Nat.mod_mod_of_dvd _ (Nat.dvd_of_mod_eq_zero hchunks), hchunks, hbuf]
  have hrest : f'.offset = f.offset + alignDown len ∧
      ∀ i, fileOffset + alignUp len ≤ i → f'.content i = f.content i := by
    by_cases hwrap : s.size - bufPos % s.size < len
    · obtain ⟨second, hsecond⟩ := Nat.exists_eq_add_of_le (Nat.le_of_lt hwrap)
      have hup := alignUp_add hfirst second
      have hdown := alignDown_add hfirst second
      have hsub : len - (s.size - bufPos % s.size) = second := by omega
      rw [← hsecond] at hup hdown
      obtain rfl := Option.some.inj (hrun.symm.trans
        (copyBufferToFile_wraps hp hpos hwrap f fileOffset))
      rw [hsub]
      refine ⟨?_, fun i hi => ?_⟩
      · simp only [FileHandle.write]
        omega
      · simp only [FileHandle.write]
        rw [copyIn_after _ (by rw [readOut_length]; omega),
          copyIn_after _ (by rw [readOut_length]; omega)]
    · obtain rfl := Option.some.inj (hrun.symm.trans
        (copyBufferToFile_fits hp hpos hlen hwrap f fileOffset))
      refine ⟨rfl, fun i hi => ?_⟩
      simp only [FileHandle.write]
      rw [copyIn_after _ (by rw [readOut_length]; omega)]
  exact ⟨f', hrun, hrest.1, hnew, fun i hi => hi.elim (hbefore i) (hrest.2 i)⟩

end CopyBufferToFile

end DataStore

end CDRuntime
