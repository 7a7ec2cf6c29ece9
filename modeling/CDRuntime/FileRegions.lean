import CDRuntime.DataStore
import CDRuntime.Runs

namespace CDRuntime
open Cells

namespace DataStore

/-- The constructor before `InitFile`. -/
def construct (initSize : ℕ) (ftype : FileType) : DataStore :=
  { size := initSize, head := 0, tail := 0, growUnit := initSize, allocated := 1, writtenLen := 0
    mode := {}, ftype, ptr := some fun _ => 0 }

/-- `InitFile` of a store with a file. The first store writes a `MagicStore`, which nothing here
fills. -/
def initFile (s : DataStore) (f : FileHandle) (filetype : FileType) : DataStore × FileHandle :=
  let ftype := if filetype ≠ .volatile then filetype else s.ftype
  let f := if f.offset < chunkAlignment then
    f.write 0 (List.replicate chunkAlignment 0) chunkAlignment else f
  ({ s with ftype, writtenLen := f.offset }, f)

def reInit (s : DataStore) : DataStore := { s with tail := 0, head := 0, allocated := 0 }

def padZeros (s : DataStore) (len : ℕ) : ℕ × DataStore :=
  (alignUp s.tail + s.writtenLen, { s with tail := alignUp (s.tail + len) })

/-- The offsets and lengths of the file writes of `WriteFile(len)`. -/
def fileWrites (s : DataStore) (len : ℕ) : List (ℕ × ℕ) :=
  let first := s.size - s.head % s.size
  if len = 0 then []
  else if first < len then
    [(s.head + s.writtenLen, first), (s.head + s.writtenLen + first, alignUp (len - first))]
  else [(s.head + s.writtenLen, alignUp len)]

/-- Those of `Flush`. -/
def flushWrites (s : DataStore) : List (ℕ × ℕ) :=
  if 0 < s.bufUsed then s.fileWrites s.bufUsed else []

def writeWrites (s : DataStore) (threshold : ℕ) (xs : List UInt8) : List (ℕ × ℕ) :=
  match s.writeCacheMode xs with
  | some (_, s') =>
      let threshold := if s.size < xs.length + s.bufUsed then s'.size * 4 / 5 else threshold
      if s'.ftype ≠ .volatile ∧ s'.mode.concurrent = false ∧ threshold ≤ s'.bufUsed then
        s'.fileWrites s'.bufUsed
      else []
  | none => []

end DataStore

namespace FileRegions

/-- Stores of nested CDs that flush to one file. Those that are begun are in `buf_list_`; only the
innermost one is written, any of them may be flushed. -/
structure System where
  begun : List DataStore
  idle : List DataStore
  file : FileHandle
  threshold : ℕ

/-- A call of `FileHandle::Write`, by a place in `begun` or by a store that is not begun. -/
structure FileWrite where
  owner : Option ℕ
  offset : ℕ
  len : ℕ

def logged (owner : Option ℕ) (ws : List (ℕ × ℕ)) : List FileWrite :=
  ws.map fun r => ⟨owner, r.1, r.2⟩

inductive Op where
  | create (initSize : ℕ) (ftype : FileType)
  | initFile (k : ℕ) (filetype : FileType)
  | begin (k : ℕ) (mode : BufferMode)
  | write (xs : List UInt8)
  | reallocate (len : ℕ)
  | put (xs : List UInt8)
  | writeFile (i n : ℕ)
  | flush
  | complete
  | destroy (k : ℕ)

/-- `InsertBuffer`: the store at the back is padded and the offset moves behind it. -/
def insertBuffer (begun : List DataStore) (f : FileHandle) (s : DataStore) :
    List DataStore × FileHandle :=
  match begun with
  | [] => ([s], f)
  | back :: rest =>
      let (offset, back) := back.padZeros 0
      (s :: back :: rest, { f with offset })

def magicWrites (f : FileHandle) : List FileWrite :=
  if f.offset < chunkAlignment then [⟨none, 0, chunkAlignment⟩] else []

def flush (st : System) : Option (System × List FileWrite) :=
  match st.begun with
  | [] => some (st, [])
  | s :: rest => do
      let (s', f) ← s.flush st.file
      some ({ st with begun := s' :: rest, file := f }, logged (some 0) s.flushWrites)

/-- `CD::Create` after the parent's table has been appended by writes: the parent is flushed,
then the store is constructed. -/
def create (st : System) (initSize : ℕ) (ftype : FileType) : Option (System × List FileWrite) := do
  let (st, ws) ← flush st
  let (s, f) := (DataStore.construct initSize ftype).initFile st.file .volatile
  some ({ st with idle := s :: st.idle, file := f }, ws ++ magicWrites st.file)

/-- The step and the file writes that it issues. In the bounded mode a `Write` is a sequence of
`put`s, after a `reallocate` when it is longer than the buffer. -/
def step (st : System) : Op → Option (System × List FileWrite)
  | .create initSize ftype => create st initSize ftype
  | .initFile k filetype => do
      let s ← st.idle[k]?
      let (s', f) := s.initFile st.file filetype
      some ({ st with idle := st.idle.set k s', file := f }, magicWrites st.file)
  | .begin k mode => do
      let s ← st.idle[k]?
      let (begun, f) := insertBuffer st.begun st.file { s.reInit with mode }
      some ({ st with begun, idle := st.idle.eraseIdx k, file := f }, [])
  | .write xs =>
      match st.begun with
      | [] => none
      | s :: rest => do
          let (_, s', f, threshold) ← s.write st.file st.threshold xs
          some ({ st with begun := s' :: rest, file := f, threshold },
            logged (some 0) (s.writeWrites st.threshold xs))
  | .reallocate len =>
      match st.begun with
      | [] => none
      | s :: rest => do
          let s' ← (if s.size < len then s.reallocate len else some s)
          some ({ st with begun := s' :: rest }, [])
  | .put xs =>
      match st.begun with
      | [] => none
      | s :: rest => do
          let s' ← s.copyAtTail xs
          some ({ st with begun := s' :: rest }, [])
  | .writeFile i n => do
      let s ← st.begun[i]?
      if 0 < n ∧ n ≤ s.bufUsed then
        let (s', f) ← s.writeFile st.file n
        some ({ st with begun := st.begun.set i s', file := f }, logged (some i) (s.fileWrites n))
      else none
  | .flush => flush st
  | .complete =>
      match st.begun with
      | [] => none
      | s :: rest =>
          let (s', f) := s.freeData st.file true
          some ({ st with begun := rest, idle := s' :: st.idle, file := f }, [])
  | .destroy k => do
      let s ← st.idle[k]?
      let (_, f) := s.freeData st.file false
      some ({ st with idle := st.idle.eraseIdx k, file := f }, [])

def next (st : System) (op : Op) : Option System := (step st op).map Prod.fst

/-- A write reaches into the region of a store, up to the end of its last chunk. -/
def Touches (w : FileWrite) (s : DataStore) : Prop :=
  ∃ p, (w.offset ≤ p ∧ p < w.offset + w.len) ∧
    s.writtenLen ≤ p ∧ p < s.writtenLen + alignUp s.tail

/-- What a step may do to the other stores: none of its writes reaches into their regions, and
their bytes in the file stay as they are. -/
def Apart (st : System) (op : Op) : Prop :=
  ∀ st' ws, step st op = some (st', ws) →
    (∀ w ∈ ws, (∀ j s, st.begun[j]? = some s → w.owner ≠ some j → ¬ Touches w s) ∧
      ∀ s ∈ st.idle, ¬ Touches w s) ∧
    ∀ j s, st.begun[j]? = some s → (∀ w ∈ ws, w.owner ≠ some j) →
      ∀ p, s.writtenLen ≤ p → p < s.writtenLen + alignUp s.tail →
        st'.file.content p = st.file.content p

/-- The buffers are whole chunks, and a store is begun only when the innermost begun one ends
before it. -/
def Clear (st : System) : Op → Prop
  | .create initSize _ => initSize % chunkAlignment = 0
  | .begin k _ => ∀ parent s, st.begun.head? = some parent → st.idle[k]? = some s →
      parent.used ≤ s.writtenLen
  | _ => True

structure Initial (st : System) : Prop where
  begun : st.begun = []
  idle : st.idle = []
  offset : st.file.offset = 0

end FileRegions

namespace DataStore

/-- The place of a store in the file and the ring are whole chunks, and the head is at the start
of one. -/
structure Placed (s : DataStore) : Prop where
  base : chunkAlignment ≤ s.writtenLen
  writtenLen : s.writtenLen % chunkAlignment = 0
  head : s.head % chunkAlignment = 0
  ordered : s.head ≤ s.tail
  size : s.size % chunkAlignment = 0
  growUnit : s.growUnit % chunkAlignment = 0

theorem alignUp_alignUp (n : ℕ) : alignUp (alignUp n) = alignUp n := alignUp_of_aligned (alignUp_mod n)

theorem aligned_add {a b : ℕ} (ha : a % chunkAlignment = 0) (hb : b % chunkAlignment = 0) :
    (a + b) % chunkAlignment = 0 := by
  rw [Nat.add_mod, ha, hb]
  rfl

theorem first_aligned {s : DataStore} (h : s.Placed) :
    (s.size - s.head % s.size) % chunkAlignment = 0 := by
  apply Nat.sub_mod_eq_zero_of_mod_eq
  rw [Nat.mod_mod_of_dvd _ (Nat.dvd_of_mod_eq_zero h.size), h.size, h.head]

theorem fileWrites_within {s : DataStore} (h : s.Placed) {len : ℕ} :
    ∀ r ∈ s.fileWrites len, s.head + s.writtenLen ≤ r.1 ∧
      r.1 + r.2 ≤ s.head + s.writtenLen + alignUp len := by
  intro r hr
  simp only [fileWrites] at hr
  split_ifs at hr with h0 hwrap
  · cases hr
  · obtain ⟨second, hsecond⟩ := Nat.exists_eq_add_of_le (Nat.le_of_lt hwrap)
    have hup := alignUp_add (first_aligned h) second
    rw [← hsecond] at hup
    rw [show len - (s.size - s.head % s.size) = second by omega] at hr
    rcases List.mem_cons.mp hr with rfl | hr
    · exact ⟨Nat.le_refl _, by dsimp only; omega⟩
    · rw [List.mem_singleton.mp hr]
      exact ⟨by dsimp only; omega, by dsimp only; omega⟩
  · rw [List.mem_singleton.mp hr]
    exact ⟨Nat.le_refl _, Nat.le_refl _⟩

theorem writeFile_content {s s' : DataStore} {f f' : FileHandle} {len : ℕ}
    (hw : s.writeFile f len = some (s', f')) {p : ℕ}
    (hp : ∀ r ∈ s.fileWrites len, ¬ (r.1 ≤ p ∧ p < r.1 + r.2)) : f'.content p = f.content p := by
  have houtside : ∀ (g : Cells UInt8) (pos n : ℕ) (ptr : Cells UInt8) (from_ : ℕ),
      ¬ (pos ≤ p ∧ p < pos + n) → copyIn g pos (readOut ptr from_ n) p = g p := by
    intro g pos n ptr from_ hout
    rw [copyIn_readOut, if_neg hout]
  rw [writeFile] at hw
  obtain ⟨g, hcopy, hw⟩ := Option.bind_eq_some_iff.mp hw
  cases hw
  simp only [fileWrites] at hp
  rw [copyBufferToFile] at hcopy
  split_ifs at hcopy with h0 hsize
  · cases hcopy
    rfl
  · obtain ⟨ptr, -, hcopy⟩ := Option.bind_eq_some_iff.mp hcopy
    dsimp only at hcopy
    rw [if_neg h0] at hp
    split_ifs at hcopy with hwrap
    · cases hcopy
      rw [if_pos hwrap] at hp
      simp only [FileHandle.write]
      rw [houtside _ _ _ _ _ ?_, houtside _ _ _ _ _ ?_]
      · have := hp _ List.mem_cons_self
        dsimp only at this
        omega
      · have := hp _ (List.mem_cons_of_mem _ List.mem_cons_self)
        dsimp only at this
        omega
    · cases hcopy
      rw [if_neg hwrap] at hp
      simp only [FileHandle.write]
      rw [houtside _ _ _ _ _ ?_]
      have := hp _ List.mem_cons_self
      dsimp only at this
      omega

theorem writeFile_moves {s s' : DataStore} (h : s.Placed) {f f' : FileHandle} {len : ℕ}
    (hw : s.writeFile f len = some (s', f')) :
    s' = { s with head := s.head + alignDown len } ∧ f'.offset = f.offset + alignDown len := by
  rw [writeFile] at hw
  obtain ⟨g, hcopy, hw⟩ := Option.bind_eq_some_iff.mp hw
  cases hw
  refine ⟨rfl, ?_⟩
  rw [copyBufferToFile] at hcopy
  split_ifs at hcopy with h0 hsize
  · cases hcopy
    rw [h0]
    rfl
  · obtain ⟨ptr, -, hcopy⟩ := Option.bind_eq_some_iff.mp hcopy
    dsimp only at hcopy
    split_ifs at hcopy with hwrap
    · cases hcopy
      obtain ⟨second, hsecond⟩ := Nat.exists_eq_add_of_le (Nat.le_of_lt hwrap)
      have hdown := alignDown_add (first_aligned h) second
      rw [← hsecond] at hdown
      simp only [FileHandle.write]
      rw [show len - (s.size - s.head % s.size) = second by omega]
      omega
    · cases hcopy
      rfl

/-- What an operation of a begun store does: it stays in its place and writes behind its
`written_len_`, up to the end of its last chunk. -/
structure Writes (s : DataStore) (f : FileHandle) (s' : DataStore) (f' : FileHandle)
    (ws : List (ℕ × ℕ)) : Prop where
  placed : s'.Placed
  writtenLen : s'.writtenLen = s.writtenLen
  offset : ∃ n, n % chunkAlignment = 0 ∧ f'.offset = f.offset + n
  within : ∀ r ∈ ws, s.writtenLen ≤ r.1 ∧ r.1 + r.2 ≤ s.writtenLen + alignUp s'.tail
  content : ∀ p, (∀ r ∈ ws, ¬ (r.1 ≤ p ∧ p < r.1 + r.2)) → f'.content p = f.content p

theorem Writes.silent {s s' : DataStore} (h : s'.Placed) (hw : s'.writtenLen = s.writtenLen)
    (f : FileHandle) : Writes s f s' f [] :=
  ⟨h, hw, ⟨0, rfl, rfl⟩, fun _ hr => (by cases hr), fun _ _ => rfl⟩

theorem writeFile_writes {s s' : DataStore} (h : s.Placed) {f f' : FileHandle} {len : ℕ}
    (hlen : len ≤ s.bufUsed) (hw : s.writeFile f len = some (s', f')) :
    Writes s f s' f' (s.fileWrites len) ∧ s'.tail = s.tail := by
  obtain ⟨rfl, hoff⟩ := writeFile_moves h hw
  have hdown := alignDown_le len
  have hord := h.ordered
  rw [bufUsed] at hlen
  refine ⟨⟨?_, rfl, ⟨_, alignDown_mod len, hoff⟩, ?_, fun p hp => writeFile_content hw hp⟩, rfl⟩
  · exact ⟨h.base, h.writtenLen, aligned_add h.head (alignDown_mod len), by dsimp only; omega,
      h.size, h.growUnit⟩
  · intro r hr
    have hwithin := fileWrites_within h r hr
    have hend : s.head + alignUp len ≤ alignUp s.tail := by
      rw [← alignUp_add h.head]
      apply alignUp_le _ (alignUp_mod s.tail)
      have := le_alignUp s.tail
      omega
    exact ⟨by omega, by dsimp only; omega⟩

theorem flush_writes {s s' : DataStore} (h : s.Placed) {f f' : FileHandle}
    (hw : s.flush f = some (s', f')) : Writes s f s' f' s.flushWrites ∧ s'.tail = s.tail := by
  rw [flush] at hw
  rw [flushWrites]
  split_ifs at hw ⊢ with hused
  · exact writeFile_writes h (Nat.le_refl _) hw
  · cases hw
    exact ⟨Writes.silent h rfl f, rfl⟩

theorem growTo_aligned {need : ℕ} (fuel : ℕ) : ∀ {size unit size' unit' : ℕ},
    size % chunkAlignment = 0 → unit % chunkAlignment = 0 →
    growTo need fuel size unit = some (size', unit') →
    size' % chunkAlignment = 0 ∧ unit' % chunkAlignment = 0 := by
  have hmul : ∀ {a : ℕ} (b : ℕ), a % chunkAlignment = 0 → a * b % chunkAlignment = 0 := by
    intro a b ha
    rw [Nat.mul_mod, ha, Nat.zero_mul]
    rfl
  induction fuel with
  | zero =>
      intro size unit size' unit' _ _ h
      cases h
  | succ fuel ih =>
      intro size unit size' unit' hs hu h
      rw [growTo] at h
      split_ifs at h
      · cases h
        exact ⟨hs, hu⟩
      · exact ih (aligned_add hs hu) (aligned_add hu hu) h
      · exact ih (hmul 2 hs) (hmul 2 hs) h
      · exact ih (hmul 4 hs) (hmul 4 hs) h

theorem reallocate_placed {s s' : DataStore} (h : s.Placed) {len : ℕ}
    (hr : s.reallocate len = some s') :
    s'.Placed ∧ s'.writtenLen = s.writtenLen ∧ s'.tail = s.tail := by
  rw [reallocate] at hr
  obtain ⟨r, hgrow, hr⟩ := Option.bind_eq_some_iff.mp hr
  obtain ⟨ptr, -, hr⟩ := Option.bind_eq_some_iff.mp hr
  cases hr
  obtain ⟨hsize, hunit⟩ := growTo_aligned _ h.size h.growUnit hgrow
  exact ⟨⟨h.base, h.writtenLen, h.head, h.ordered, hsize, hunit⟩, rfl, rfl⟩

theorem copyToBuffer_ptr {s s' : DataStore} {xs : List UInt8} (h : s.copyToBuffer xs = some s') :
    ∃ ptr, s' = { s with ptr } := by
  rw [copyToBuffer] at h
  split_ifs at h
  · cases h
    exact ⟨s.ptr, rfl⟩
  · obtain ⟨ptr, -, h⟩ := Option.bind_eq_some_iff.mp h
    dsimp only at h
    split_ifs at h
    · cases h
      exact ⟨_, rfl⟩
    · cases h
      exact ⟨_, rfl⟩

theorem writeCacheMode_placed {s s' : DataStore} (h : s.Placed) {xs : List UInt8} {ret : ℕ}
    (hw : s.writeCacheMode xs = some (ret, s')) : s'.Placed ∧ s'.writtenLen = s.writtenLen := by
  rw [writeCacheMode] at hw
  obtain ⟨s₁, hroom, hw⟩ := Option.bind_eq_some_iff.mp hw
  have h₁ : s₁.Placed ∧ s₁.writtenLen = s.writtenLen := by
    split_ifs at hroom
    · obtain ⟨hp, hwl, -⟩ := reallocate_placed h hroom
      exact ⟨hp, hwl⟩
    · cases hroom
      exact ⟨h, rfl⟩
  rw [writeMem] at hw
  obtain ⟨s₂, hcopy, hw⟩ := Option.bind_eq_some_iff.mp hw
  cases hw
  obtain ⟨ptr, rfl⟩ := copyToBuffer_ptr hcopy
  have hord := h₁.1.ordered
  exact ⟨⟨h₁.1.base, h₁.1.writtenLen, h₁.1.head, by dsimp only; omega, h₁.1.size, h₁.1.growUnit⟩,
    h₁.2⟩

theorem write_writes {s s' : DataStore} (h : s.Placed) {f f' : FileHandle} {threshold thr' ret : ℕ}
    {xs : List UInt8} (hw : s.write f threshold xs = some (ret, s', f', thr')) :
    Writes s f s' f' (s.writeWrites threshold xs) := by
  rw [write] at hw
  obtain ⟨⟨ret₁, s₁⟩, hcache, hw⟩ := Option.bind_eq_some_iff.mp hw
  obtain ⟨h₁, hwl⟩ := writeCacheMode_placed h hcache
  simp only [writeWrites, hcache]
  dsimp only at hw
  generalize (if s.size < xs.length + s.bufUsed then s₁.size * 4 / 5 else threshold) = t at hw ⊢
  split_ifs at hw ⊢ with hflush
  · obtain ⟨⟨s₂, f₂⟩, hfile, hw⟩ := Option.bind_eq_some_iff.mp hw
    cases hw
    have hwrites := (writeFile_writes h₁ (Nat.le_refl _) hfile).1
    exact ⟨hwrites.placed, hwrites.writtenLen.trans hwl, hwrites.offset, hwl ▸ hwrites.within,
      hwrites.content⟩
  · cases hw
    exact Writes.silent h₁ hwl f

theorem copyAtTail_placed {s s' : DataStore} (h : s.Placed) {xs : List UInt8}
    (hput : s.copyAtTail xs = some s') : s'.Placed ∧ s'.writtenLen = s.writtenLen := by
  rw [copyAtTail] at hput
  obtain ⟨ptr, -, hput⟩ := Option.bind_eq_some_iff.mp hput
  cases hput
  have hord := h.ordered
  exact ⟨⟨h.base, h.writtenLen, h.head, by dsimp only; omega, h.size, h.growUnit⟩, rfl⟩

end DataStore

end CDRuntime
