import CDRuntime.DataStoreRead

namespace CDRuntime
open Cells

/-- A copy to the ring in two pieces when it passes the end of the block. -/
def ringIn (ptr : Cells UInt8) (size pos : ℕ) (xs : List UInt8) : Cells UInt8 :=
  let first := size - pos % size
  if first < xs.length then copyIn (copyIn ptr (pos % size) (xs.take first)) 0 (xs.drop first)
  else copyIn ptr (pos % size) xs

theorem ringIn_at {ptr : Cells UInt8} {size pos k : ℕ} {xs : List UInt8} {x : UInt8}
    (hpos : 0 < size) (hlen : xs.length ≤ size) (h : xs[k]? = some x) :
    ringIn ptr size pos xs ((pos + k) % size) = x := by
  have hlt := Nat.mod_lt pos hpos
  have hk : k < xs.length := (List.getElem?_eq_some_iff.mp h).1
  unfold ringIn
  split_ifs with hwrap
  · rcases Nat.lt_or_ge (pos % size + k) size with hfit | hover
    · -- in the first piece, which the second does not reach
      rw [add_mod_of_fits hfit, copyIn_after _ (by rw [List.length_drop]; omega)]
      apply copyIn_at
      rw [List.getElem?_take_of_lt (by omega), h]
    · rw [add_mod_of_wraps hover (by omega)]
      have hcell : copyIn (copyIn ptr (pos % size) (xs.take (size - pos % size))) 0
          (xs.drop (size - pos % size)) (0 + (pos % size + k - size)) = x := by
        apply copyIn_at
        rw [List.getElem?_drop, show size - pos % size + (pos % size + k - size) = k by omega, h]
      rwa [Nat.zero_add] at hcell
  · rw [add_mod_of_fits (by omega)]
    exact copyIn_at _ h

def DataStore.setReadMode (s : DataStore) (on : Bool) : DataStore :=
  { s with mode := { s.mode with readMode := on } }

/-- The store with the fields that reading uses. The window of the file is counted in positions of
the buffer, which are those of the file plus `head`. -/
structure ReadStore where
  store : DataStore
  rHead : ℕ
  rTail : ℕ
  tailPreserved : ℕ
  bufPreserved : Option (List UInt8)

namespace ReadStore

/-- The branch of `InitReadMode` that saves the bytes that are not in the file. -/
def savePending (c : ReadStore) : Option ReadStore :=
  if 0 < c.store.bufUsed then do
    let xs ← c.store.copyFromBuffer c.store.bufUsed c.store.head
    some { c with
      store := { c.store with tail := c.store.head }
      tailPreserved := c.store.bufUsed
      bufPreserved := some xs }
  else some c

def initReadMode (c : ReadStore) : Option ReadStore :=
  if c.store.mode.readMode then some c
  else do
    let c ← savePending { c with store := c.store.setReadMode true }
    some { c with
      rTail := c.store.head + c.store.writtenLen
      rHead := c.store.head + c.store.writtenLen }

def restorePending (c : ReadStore) : Option DataStore :=
  if 0 < c.tailPreserved then do
    let xs ← c.bufPreserved
    let s ← c.store.copyToBuffer (xs.take c.tailPreserved)
    some { s with tail := s.head + c.tailPreserved }
  else some c.store

def finReadMode (c : ReadStore) : Option ReadStore :=
  if c.store.mode.readMode then do
    let s ← restorePending { c with store := c.store.setReadMode false }
    some { c with store := s, tailPreserved := 0, bufPreserved := none }
  else some c

end ReadStore

/-- What `CalcOffset` returns. The length is the difference of two unsigned positions. -/
structure Window where
  lenToRead : ℤ
  bufOffset : ℕ
  rTailNext : ℕ
  rHeadNext : ℕ
  maxLenToRead : ℕ
  deriving DecidableEq, Repr

/-- The cases have the numbers of the comments in `CalcOffset`. -/
def ReadStore.calcOffset (c : ReadStore) (bufPosLow bufPosHigh : ℕ) (locality : Bool) :
    Option Window :=
  let size := c.store.size
  let totalLen := bufPosHigh - bufPosLow
  let overflow := size < totalLen
  let maxLenToRead := if overflow then size else totalLen
  if c.rTail < bufPosHigh then
    if bufPosLow < c.rHead then none -- case 1, `assert(0)`
    else if bufPosLow < c.rTail then
      -- case 2
      let rTailNext := if overflow then size + bufPosLow else bufPosHigh
      some ⟨(rTailNext : ℤ) - c.rTail, c.rTail, rTailNext, c.rHead, maxLenToRead⟩
    else if locality then
      -- case 0, reading as much as possible
      if overflow then some ⟨size, bufPosLow, bufPosLow + size, bufPosLow, maxLenToRead⟩
      else if size < bufPosHigh - c.rTail then
        some ⟨maxLenToRead, bufPosLow, bufPosHigh, bufPosLow, maxLenToRead⟩
      else
        let rHeadNext := if size < bufPosHigh - c.rHead then bufPosHigh - size else c.rHead
        some ⟨(bufPosHigh : ℤ) - c.rTail, c.rTail, bufPosHigh, rHeadNext, maxLenToRead⟩
    else
      -- case 0, reading the required size
      let rTailNext := if overflow then bufPosLow + size else bufPosHigh
      some ⟨maxLenToRead, bufPosLow, rTailNext, bufPosLow, maxLenToRead⟩
  else if bufPosLow < c.rHead then
    if c.rHead < bufPosHigh then
      -- case 4
      let rHeadNext := if overflow then bufPosHigh - size else bufPosLow
      some ⟨(c.rHead : ℤ) - rHeadNext, c.rHead, c.rTail, rHeadNext, maxLenToRead⟩
    else if locality then none -- `assert(0)`
    else
      -- case 5
      let rHeadNext := if overflow then bufPosHigh - size else bufPosLow
      some ⟨maxLenToRead, bufPosLow, bufPosHigh, rHeadNext, maxLenToRead⟩
  else some ⟨0, 0, c.rTail, c.rHead, maxLenToRead⟩ -- case 3

/-- `CopyFileToBuffer(buf_pos, len, pos)`. A negative length stops in the file handle. -/
def DataStore.copyFileToBuffer (s : DataStore) (f : FileHandle) (bufPos : ℕ) (len : ℤ) (pos : ℕ) :
    Option DataStore :=
  if len = 0 then some s
  else if s.size = 0 ∨ len < 0 then none
  else do
    let ptr ← s.ptr
    let tail := bufPos % s.size
    let first := s.size - tail
    if first < len.toNat then
      if s.size < len.toNat - first then none
      else do
        let xs ← s.readHandle f first pos
        let ys ← s.readHandle f (len.toNat - first) (pos + first)
        some { s with ptr := some (copyIn (copyIn ptr tail xs) 0 ys) }
    else do
      let xs ← s.readHandle f len.toNat pos
      some { s with ptr := some (copyIn ptr tail xs) }

namespace ReadStore

/-- The length consumed, the increments of the window, and the state. The locality that the
caller asks for is not passed on. -/
def fetchInternal (c : ReadStore) (f : FileHandle) (len pos : ℕ) (_locality : Bool) :
    Option (ℕ × ℤ × ℤ × ReadStore) := do
  let offsetDiff := c.store.head
  let bufPosLow := alignDown pos + offsetDiff
  let bufPosHigh := alignUp (pos + len) + offsetDiff
  let w ← c.calcOffset bufPosLow bufPosHigh false
  let s ← c.store.copyFileToBuffer f w.bufOffset w.lenToRead (w.bufOffset - offsetDiff)
  some (w.maxLenToRead, (w.rTailNext : ℤ) - c.rTail, (w.rHeadNext : ℤ) - c.rHead,
    { c with store := s })

def moveWindow (c : ReadStore) (tailInc headInc : ℤ) : ReadStore :=
  { c with rHead := (c.rHead + headInc).toNat, rTail := (c.rTail + tailInc).toNat }

def fetch (c : ReadStore) (f : FileHandle) (len pos : ℕ) (locality : Bool) :
    Option (ℕ × ReadStore) := do
  let c ← c.initReadMode
  let (consumed, tailInc, headInc, c) ← c.fetchInternal f len pos locality
  let c ← (c.moveWindow tailInc headInc).finReadMode
  some (consumed, c)

/-- `Fetch(tail_inc, head_inc, len, pos, locality)` leaves the window to the caller. -/
def fetchInc (c : ReadStore) (f : FileHandle) (len pos : ℕ) (locality : Bool) :
    Option (ℕ × ℤ × ℤ × ReadStore) := do
  let c ← c.initReadMode
  let (consumed, tailInc, headInc, c) ← c.fetchInternal f len pos locality
  let c ← c.finReadMode
  some (consumed, tailInc, headInc, c)

/-- The loop of `GetData`, for at most `fuel` rounds. Every round copies to the start of the
destination, from the place of the first byte. -/
def getDataLoop (f : FileHandle) (pos : ℕ) : ℕ → ReadStore → ℕ → ℕ → (ℤ → UInt8) →
    Option (ReadStore × (ℤ → UInt8))
  | 0, c, len, _, mem => if len = 0 then some (c, mem) else none
  | fuel + 1, c, len, fetchPos, mem =>
      if len = 0 then some (c, mem)
      else do
        let (consumed, tailInc, headInc, c) ← c.fetchInternal f len fetchPos false
        let readsize := min len consumed
        let xs ← c.store.copyFromBuffer readsize (pos + c.store.head)
        getDataLoop f pos fuel (c.moveWindow tailInc headInc) (len - readsize)
          (fetchPos + readsize) (copyTo mem 0 xs)

/-- `GetData(dst, len, pos)` with `dst = 0`. A round consumes a byte at least unless the size is
zero, when the loop never ends. -/
def getData (c : ReadStore) (f : FileHandle) (len pos : ℕ) (mem : ℤ → UInt8) :
    Option (ReadStore × (ℤ → UInt8)) :=
  if c.store.ftype = .volatile then do
    let xs ← c.store.getDataVolatile len pos
    some (c, copyTo mem 0 xs)
  else do
    let c ← c.initReadMode
    let (c, mem) ← getDataLoop f pos len c len pos mem
    let c ← c.finReadMode
    some (c, mem)

structure Idle (c : ReadStore) : Prop where
  mode : c.store.mode.readMode = false
  tailPreserved : c.tailPreserved = 0
  bufPreserved : c.bufPreserved = none

end ReadStore

def DataStore.ringByte (s : DataStore) (i : ℕ) : Option UInt8 := s.ptr.map fun ptr => ptr (i % s.size)

namespace ReadStore

/-- Reading changes neither the counters nor the bytes that are not in the file yet. -/
structure KeepsPending (c c' : ReadStore) : Prop where
  head : c'.store.head = c.store.head
  tail : c'.store.tail = c.store.tail
  writtenLen : c'.store.writtenLen = c.store.writtenLen
  size : c'.store.size = c.store.size
  mode : c'.store.mode = c.store.mode
  pending : ∀ i, c.store.head ≤ i → i < c.store.tail → c'.store.ringByte i = c.store.ringByte i

def pendingBytes (s : DataStore) (ptr : Cells UInt8) : List UInt8 :=
  (List.range s.bufUsed).map fun k => ptr ((s.head + k) % s.size)

/-- The read mode of a store: only the ring differs, and the pending bytes are saved. -/
structure Saved (c c' : ReadStore) : Prop where
  store : ∃ ptr, c'.store = { c.store.setReadMode true with tail := c.store.head, ptr }
  length : c'.tailPreserved = c.store.bufUsed
  bytes : 0 < c.store.bufUsed →
    ∃ ptr, c.store.ptr = some ptr ∧ c'.bufPreserved = some (pendingBytes c.store ptr)

section Pending

variable {c c' c'' : ReadStore} {f : FileHandle} {len pos : ℕ}

theorem pendingBytes_length (s : DataStore) (ptr : Cells UInt8) :
    (pendingBytes s ptr).length = s.bufUsed := by
  rw [pendingBytes, List.length_map, List.length_range]

theorem pendingBytes_getElem? (s : DataStore) (ptr : Cells UInt8) {k : ℕ} (hk : k < s.bufUsed) :
    (pendingBytes s ptr)[k]? = some (ptr ((s.head + k) % s.size)) := by
  rw [pendingBytes, List.getElem?_map, List.getElem?_range hk, Option.map_some]

theorem savePending_eq (hpos : 0 < c.store.size) (hused : 0 < c.store.bufUsed)
    (hb : c.store.bufUsed ≤ c.store.size) : c.savePending =
      c.store.ptr.map fun ptr => { c with
        store := { c.store with tail := c.store.head }
        tailPreserved := c.store.bufUsed
        bufPreserved := some (pendingBytes c.store ptr) } := by
  rw [savePending, if_pos hused]
  cases hptr : c.store.ptr with
  | none =>
      rw [DataStore.copyFromBuffer, if_neg (Nat.ne_of_gt hused), if_neg (Nat.ne_of_gt hpos), hptr]
      rfl
  | some ptr =>
      rw [DataStore.copyFromBuffer_eq hptr hpos hb]
      rfl

theorem initReadMode_saved (hidle : c.Idle) (hpos : 0 < c.store.size)
    (hord : c.store.head ≤ c.store.tail) (hb : c.store.bufUsed ≤ c.store.size)
    (h : c.initReadMode = some c') : c.Saved c' := by
  have hmode : ¬ c.store.mode.readMode := by rw [hidle.mode]; decide
  rw [initReadMode, if_neg hmode] at h
  obtain ⟨c₁, hsave, hc'⟩ := Option.bind_eq_some_iff.mp h
  obtain rfl := Option.some.inj hc'
  by_cases hused : 0 < c.store.bufUsed
  · rw [savePending_eq (c := { c with store := c.store.setReadMode true }) hpos hused hb,
      Option.map_eq_some_iff] at hsave
    obtain ⟨ptr, hptr, rfl⟩ := hsave
    exact ⟨⟨_, rfl⟩, rfl, fun _ => ⟨ptr, hptr, rfl⟩⟩
  · -- nothing is pending, so the tail is at the head
    have hempty : c.store.tail = c.store.head := by
      unfold DataStore.bufUsed at hused
      omega
    have hkeep : savePending { c with store := c.store.setReadMode true } =
        some { c with store := c.store.setReadMode true } := if_neg hused
    rw [hkeep] at hsave
    obtain rfl := Option.some.inj hsave
    refine ⟨⟨c.store.ptr, ?_⟩, ?_, fun h => absurd h hused⟩
    · simp only [DataStore.setReadMode, hempty]
    · show c.tailPreserved = c.store.bufUsed
      rw [hidle.tailPreserved]
      omega

theorem copyFileToBuffer_ptr {s s' : DataStore} {bufPos : ℕ} {n : ℤ}
    (h : s.copyFileToBuffer f bufPos n pos = some s') : ∃ ptr, s' = { s with ptr } := by
  unfold DataStore.copyFileToBuffer at h
  split_ifs at h with hzero hbad
  · exact ⟨s.ptr, (Option.some.inj h).symm⟩
  · obtain ⟨ptr, -, h⟩ := Option.bind_eq_some_iff.mp h
    simp only at h
    split_ifs at h
    · obtain ⟨xs, -, h⟩ := Option.bind_eq_some_iff.mp h
      obtain ⟨ys, -, h⟩ := Option.bind_eq_some_iff.mp h
      exact ⟨_, (Option.some.inj h).symm⟩
    · obtain ⟨xs, -, h⟩ := Option.bind_eq_some_iff.mp h
      exact ⟨_, (Option.some.inj h).symm⟩

theorem Saved.fetchInternal (hs : c.Saved c') {locality : Bool} {consumed : ℕ}
    {tailInc headInc : ℤ}
    (h : c'.fetchInternal f len pos locality = some (consumed, tailInc, headInc, c'')) :
    c.Saved c'' := by
  obtain ⟨w, -, h⟩ := Option.bind_eq_some_iff.mp h
  obtain ⟨s, hcopy, h⟩ := Option.bind_eq_some_iff.mp h
  obtain ⟨ptr, rfl⟩ := copyFileToBuffer_ptr hcopy
  obtain ⟨-, -, -, rfl⟩ := by simpa only [Option.some.injEq, Prod.mk.injEq] using h
  obtain ⟨ptr', hstore⟩ := hs.store
  exact ⟨⟨ptr, by rw [hstore]⟩, hs.length, hs.bytes⟩

theorem Saved.moveWindow (hs : c.Saved c') (tailInc headInc : ℤ) :
    c.Saved (c'.moveWindow tailInc headInc) :=
  ⟨hs.store, hs.length, hs.bytes⟩

theorem Saved.loop {fuel : ℕ} : ∀ {c' : ReadStore} {len fetchPos : ℕ} {mem mem' : ℤ → UInt8},
    c.Saved c' → getDataLoop f pos fuel c' len fetchPos mem = some (c'', mem') →
      c.Saved c'' := by
  induction fuel with
  | zero =>
      intro c' len fetchPos mem mem' hs h
      rw [getDataLoop] at h
      split_ifs at h
      rwa [(Prod.mk.inj (Option.some.inj h)).1] at hs
  | succ fuel ih =>
      intro c' len fetchPos mem mem' hs h
      rw [getDataLoop] at h
      split_ifs at h with hzero
      · rwa [(Prod.mk.inj (Option.some.inj h)).1] at hs
      · obtain ⟨⟨consumed, tailInc, headInc, c₁⟩, hfetch, h⟩ := Option.bind_eq_some_iff.mp h
        obtain ⟨xs, -, h⟩ := Option.bind_eq_some_iff.mp h
        exact ih ((hs.fetchInternal hfetch).moveWindow tailInc headInc) h

theorem copyToBuffer_eq {s : DataStore} {xs : List UInt8} (hpos : 0 < s.size) (hne : xs ≠ []) :
    s.copyToBuffer xs =
      s.ptr.map fun ptr => { s with ptr := some (ringIn ptr s.size s.tail xs) } := by
  rw [DataStore.copyToBuffer, if_neg hne, if_neg (Nat.ne_of_gt hpos)]
  cases s.ptr with
  | none => rfl
  | some ptr =>
      simp only [Option.bind_eq_bind, Option.bind_some, Option.map_some, ringIn]
      split_ifs
      · rfl
      · rfl

/-- Leaving the read mode puts the tail, the mode and the pending bytes back. -/
theorem Saved.finReadMode (hs : c.Saved c') (hidle : c.Idle) (hpos : 0 < c.store.size)
    (hord : c.store.head ≤ c.store.tail) (hb : c.store.bufUsed ≤ c.store.size)
    (h : c'.finReadMode = some c'') : c.KeepsPending c'' ∧ c''.Idle := by
  obtain ⟨ptr', hstore⟩ := hs.store
  have hmode : c.store.mode = { c.store.mode with readMode := false } := by rw [← hidle.mode]
  have hread : c'.store.mode.readMode := by rw [hstore]; rfl
  rw [ReadStore.finReadMode, if_pos hread] at h
  obtain ⟨s, hrestore, hc''⟩ := Option.bind_eq_some_iff.mp h
  obtain rfl := Option.some.inj hc''
  by_cases hused : 0 < c.store.bufUsed
  · obtain ⟨ptr, hptr, hsaved⟩ := hs.bytes hused
    have hlen := pendingBytes_length c.store ptr
    have hne : pendingBytes c.store ptr ≠ [] := by
      apply List.ne_nil_of_length_pos
      omega
    rw [restorePending, if_pos (show 0 < c'.tailPreserved by rw [hs.length]; exact hused)] at hrestore
    obtain ⟨xs, hxs, hrestore⟩ := Option.bind_eq_some_iff.mp hrestore
    obtain ⟨s', hcopy, hs'⟩ := Option.bind_eq_some_iff.mp hrestore
    obtain rfl := Option.some.inj (hxs.symm.trans hsaved)
    obtain rfl := Option.some.inj hs'
    simp only [hs.length, hstore, DataStore.setReadMode, ← hlen, List.take_length] at hcopy ⊢
    rw [copyToBuffer_eq (by exact hpos) hne, Option.map_eq_some_iff] at hcopy
    obtain ⟨ring, -, rfl⟩ := hcopy
    refine ⟨⟨rfl, ?_, rfl, rfl, hmode.symm, ?_⟩, rfl, rfl, rfl⟩
    · show c.store.head + (pendingBytes c.store ptr).length = c.store.tail
      rw [hlen, DataStore.bufUsed]
      omega
    · -- the cell of each byte, wherever the ring wraps
      intro i hi hi'
      obtain ⟨k, rfl⟩ := Nat.exists_eq_add_of_le hi
      have hk : k < c.store.bufUsed := by
        unfold DataStore.bufUsed
        omega
      simp only [DataStore.ringByte, hptr, Option.map_some]
      rw [ringIn_at hpos (by omega) (pendingBytes_getElem? _ _ hk)]
  · have hempty : c.store.head = c.store.tail := by
      unfold DataStore.bufUsed at hused
      omega
    rw [restorePending, if_neg (show ¬ 0 < c'.tailPreserved by rw [hs.length]; exact hused)]
      at hrestore
    obtain rfl := Option.some.inj hrestore
    simp only [hstore, DataStore.setReadMode]
    refine ⟨⟨rfl, hempty, rfl, rfl, hmode.symm, fun i hi hi' => ?_⟩, rfl, rfl, rfl⟩
    omega

end Pending

/-- Whatever the window does to the ring, `GetData` and both forms of `Fetch` leave the counters,
the mode and the pending bytes as they were, and the store out of the read mode. -/
theorem reading_keeps_pending {c : ReadStore} (hidle : c.Idle) (hfile : c.store.ftype ≠ .volatile)
    (hpos : 0 < c.store.size) (hord : c.store.head ≤ c.store.tail)
    (hb : c.store.bufUsed ≤ c.store.size) (f : FileHandle) (len pos : ℕ) :
    (∀ mem c' mem', c.getData f len pos mem = some (c', mem') → c.KeepsPending c' ∧ c'.Idle) ∧
    ∀ locality,
      (∀ consumed c', c.fetch f len pos locality = some (consumed, c') →
        c.KeepsPending c' ∧ c'.Idle) ∧
      ∀ consumed tailInc headInc c',
        c.fetchInc f len pos locality = some (consumed, tailInc, headInc, c') →
          c.KeepsPending c' ∧ c'.Idle := by
  refine ⟨fun mem c' mem' h => ?_, fun locality => ⟨fun consumed c' h => ?_,
    fun consumed tailInc headInc c' h => ?_⟩⟩
  · rw [getData, if_neg hfile] at h
    obtain ⟨c₁, hinit, h⟩ := Option.bind_eq_some_iff.mp h
    obtain ⟨⟨c₂, mem₂⟩, hloop, h⟩ := Option.bind_eq_some_iff.mp h
    obtain ⟨c₃, hfin, h⟩ := Option.bind_eq_some_iff.mp h
    obtain ⟨rfl, -⟩ := Prod.mk.inj (Option.some.inj h)
    have hs := initReadMode_saved hidle hpos hord hb hinit
    exact (hs.loop hloop).finReadMode hidle hpos hord hb hfin
  · obtain ⟨c₁, hinit, h⟩ := Option.bind_eq_some_iff.mp h
    obtain ⟨⟨consumed', tailInc, headInc, c₂⟩, hfetch, h⟩ := Option.bind_eq_some_iff.mp h
    obtain ⟨c₃, hfin, h⟩ := Option.bind_eq_some_iff.mp h
    obtain ⟨-, rfl⟩ := Prod.mk.inj (Option.some.inj h)
    have hs := initReadMode_saved hidle hpos hord hb hinit
    exact ((hs.fetchInternal hfetch).moveWindow tailInc headInc).finReadMode hidle hpos hord hb hfin
  · obtain ⟨c₁, hinit, h⟩ := Option.bind_eq_some_iff.mp h
    obtain ⟨⟨consumed', tailInc', headInc', c₂⟩, hfetch, h⟩ := Option.bind_eq_some_iff.mp h
    obtain ⟨c₃, hfin, h⟩ := Option.bind_eq_some_iff.mp h
    obtain ⟨-, -, -, rfl⟩ := by simpa only [Option.some.injEq, Prod.mk.injEq] using h
    have hs := initReadMode_saved hidle hpos hord hb hinit
    exact (hs.fetchInternal hfetch).finReadMode hidle hpos hord hb hfin

def idle (s : DataStore) : ReadStore :=
  { store := s, rHead := 0, rTail := 0, tailPreserved := 0, bufPreserved := none }

theorem idle_idle {s : DataStore} (h : s.mode.readMode = false) : (idle s).Idle := ⟨h, rfl, rfl⟩

def fourRing : DataStore := { DataStore.chunkRing 3 4 with size := 4 }

theorem pending_byte_kept : ∃ c' mem', (idle fourRing).getData ⟨0, fun _ => 7⟩ 2 chunkAlignment
    (fun _ => 0) = some (c', mem') ∧ (idle fourRing).KeepsPending c' := by
  have hrun : ((idle fourRing).getData ⟨0, fun _ => 7⟩ 2 chunkAlignment fun _ => 0).isSome := rfl
  obtain ⟨⟨c', mem'⟩, h⟩ := Option.isSome_iff_exists.mp hrun
  exact ⟨c', mem', h, ((reading_keeps_pending (idle_idle rfl) (by decide) (by decide) (by decide)
    (by decide) _ _ _).1 _ _ _ h).1⟩

end ReadStore

end CDRuntime
