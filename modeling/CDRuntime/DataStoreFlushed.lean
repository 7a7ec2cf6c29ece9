import CDRuntime.DataStoreFetch

namespace CDRuntime
open Cells

namespace ReadStore

section Rounds

variable {c c' : ReadStore} {f : FileHandle} {ptr : Cells UInt8} {len pos : ℕ}

theorem copyFromBuffer_some {s : DataStore} (hptr : s.ptr = some ptr) (hpos : 0 < s.size)
    (n p : ℕ) : ∃ xs, s.copyFromBuffer n p = some xs := by
  unfold DataStore.copyFromBuffer
  rw [hptr, if_neg (Nat.ne_of_gt hpos)]
  simp only [Option.bind_eq_bind, Option.bind_some]
  split_ifs
  · exact ⟨_, rfl⟩
  · exact ⟨_, rfl⟩
  · exact ⟨_, rfl⟩

theorem copyFromBuffer_length {s : DataStore} {n p : ℕ} {xs : List UInt8}
    (h : s.copyFromBuffer n p = some xs) : xs.length = n := by
  unfold DataStore.copyFromBuffer at h
  split_ifs at h with hzero
  · rw [← Option.some.inj h, hzero]
    rfl
  · obtain ⟨ptr, -, h⟩ := Option.bind_eq_some_iff.mp h
    simp only at h
    split_ifs at h with hwrap
    · rw [← Option.some.inj h, List.length_append, readOut_length, readOut_length]
      omega
    · rw [← Option.some.inj h, readOut_length]

/-- A store that starts to read: an empty window at the start of its bytes in the file. -/
structure Starts (c c' : ReadStore) : Prop where
  store : c'.store.size = c.store.size ∧ c'.store.head = c.store.head ∧
    c'.store.writtenLen = c.store.writtenLen ∧ c'.store.ftype = c.store.ftype ∧
    c'.store.ptr = c.store.ptr
  mode : c'.store.mode.readMode = true
  window : c'.rHead = c.store.head + c.store.writtenLen ∧
    c'.rTail = c.store.head + c.store.writtenLen
  saved : 0 < c'.tailPreserved → ∃ xs, c'.bufPreserved = some xs

theorem initReadMode_starts (hidle : c.Idle) (hptr : c.store.ptr = some ptr)
    (hpos : 0 < c.store.size) : ∃ c', c.initReadMode = some c' ∧ c.Starts c' := by
  have hmode : ¬ c.store.mode.readMode := by rw [hidle.mode]; decide
  rw [initReadMode, if_neg hmode]
  by_cases hused : 0 < c.store.bufUsed
  · obtain ⟨xs, hxs⟩ := copyFromBuffer_some (s := c.store.setReadMode true) hptr hpos
      c.store.bufUsed c.store.head
    have hsave : savePending { c with store := c.store.setReadMode true } = some { c with
        store := { c.store.setReadMode true with tail := c.store.head }
        tailPreserved := c.store.bufUsed
        bufPreserved := some xs } := by
      rw [savePending, if_pos (by exact hused)]
      exact Option.bind_eq_some_iff.mpr ⟨xs, hxs, rfl⟩
    rw [hsave]
    exact ⟨_, rfl, ⟨rfl, rfl, rfl, rfl, rfl⟩, rfl, ⟨rfl, rfl⟩, fun _ => ⟨xs, rfl⟩⟩
  · have hkeep : savePending { c with store := c.store.setReadMode true } =
        some { c with store := c.store.setReadMode true } := if_neg hused
    rw [hkeep]
    refine ⟨_, rfl, ⟨rfl, rfl, rfl, rfl, rfl⟩, rfl, ⟨rfl, rfl⟩, fun h => ?_⟩
    exact absurd h (by rw [show ({ c with store := c.store.setReadMode true } :
      ReadStore).tailPreserved = 0 from hidle.tailPreserved]; decide)

theorem finReadMode_some (hmode : c.store.mode.readMode = true)
    (hsaved : 0 < c.tailPreserved → ∃ xs, c.bufPreserved = some xs)
    (hptr : c.store.ptr = some ptr) (hpos : 0 < c.store.size) : ∃ c', c.finReadMode = some c' := by
  have hrestore : ∃ s, restorePending { c with store := c.store.setReadMode false } = some s := by
    by_cases hused : 0 < c.tailPreserved
    · obtain ⟨xs, hxs⟩ := hsaved hused
      have hcopy : ∃ s, (c.store.setReadMode false).copyToBuffer (xs.take c.tailPreserved) =
          some s := by
        by_cases hne : xs.take c.tailPreserved = []
        · exact ⟨_, if_pos hne⟩
        · rw [copyToBuffer_eq (s := c.store.setReadMode false) hpos hne,
            show (c.store.setReadMode false).ptr = some ptr from hptr]
          exact ⟨_, rfl⟩
      obtain ⟨s, hs⟩ := hcopy
      rw [restorePending, if_pos hused]
      refine ⟨_, Option.bind_eq_some_iff.mpr ⟨xs, hxs, Option.bind_eq_some_iff.mpr ⟨s, hs, rfl⟩⟩⟩
    · exact ⟨_, if_neg hused⟩
  obtain ⟨s, hs⟩ := hrestore
  rw [finReadMode, if_pos hmode]
  exact ⟨_, Option.bind_eq_some_iff.mpr ⟨s, hs, rfl⟩⟩

theorem copyFileToBuffer_eq {s : DataStore} (hptr : s.ptr = some ptr) (hpos : 0 < s.size)
    (hfile : s.ftype.hasHandle) {n : ℕ} (hn : 0 < n) (hle : n ≤ s.size) (bufPos p : ℕ) :
    s.copyFileToBuffer f bufPos n p =
      some { s with ptr := some (ringIn ptr s.size bufPos (readOut f.content p n)) } := by
  have hlt := Nat.mod_lt bufPos hpos
  have hread : ∀ k q, 0 < k → s.readHandle f k q = some (readOut f.content q k) := by
    intro k q hk
    rw [DataStore.readHandle, if_pos hfile, if_neg]
    rintro ⟨-, hzero⟩
    omega
  have hzero : ¬ (n : ℤ) = 0 := by omega
  have hbad : ¬ (s.size = 0 ∨ (n : ℤ) < 0) := by omega
  rw [DataStore.copyFileToBuffer, if_neg hzero, if_neg hbad, hptr, ringIn, readOut_length]
  simp only [Option.bind_eq_bind, Option.bind_some, Int.toNat_natCast]
  split_ifs with hwrap hover
  · omega
  · have hfirst : (readOut f.content p n).take (s.size - bufPos % s.size) =
        readOut f.content p (s.size - bufPos % s.size) := by
      have hpart := readOut_part f.content p
        (show 0 + (s.size - bufPos % s.size) ≤ n by omega)
      rwa [List.drop_zero, Nat.add_zero] at hpart
    have hrest : (readOut f.content p n).drop (s.size - bufPos % s.size) =
        readOut f.content (p + (s.size - bufPos % s.size)) (n - (s.size - bufPos % s.size)) := by
      have htotal : s.size - bufPos % s.size + (n - (s.size - bufPos % s.size)) ≤ n := by omega
      rw [← readOut_part f.content p htotal, List.take_of_length_le]
      exact Nat.le_of_eq (by rw [List.length_drop, readOut_length])
    rw [hread _ _ (by omega), hread _ _ (by omega), hfirst, hrest]
    rfl
  · rw [hread _ _ hn]
    rfl

theorem calcOffset_max {low high : ℕ} {locality : Bool} {w : Window}
    (h : c.calcOffset low high locality = some w) : w.maxLenToRead ≤ c.store.size := by
  unfold calcOffset at h
  simp only at h
  split_ifs at h
  all_goals
    obtain rfl := Option.some.inj h
    simp only
    omega

theorem calcOffset_behind {low high : ℕ} (hhigh : c.rTail < high) (hhead : c.rHead ≤ low)
    (htail : c.rTail ≤ low) : ∃ rTailNext, c.calcOffset low high false =
      some ⟨(min (high - low) c.store.size : ℕ), low, rTailNext, low,
        min (high - low) c.store.size⟩ := by
  have hmax : (if c.store.size < high - low then c.store.size else high - low) =
      min (high - low) c.store.size := by
    split_ifs with hover
    · exact (Nat.min_eq_right (Nat.le_of_lt hover)).symm
    · exact (Nat.min_eq_left (Nat.le_of_not_lt hover)).symm
  simp only [calcOffset, hmax, if_pos hhigh, if_neg (Nat.not_lt_of_le hhead),
    if_neg (Nat.not_lt_of_le htail), Bool.false_eq_true, if_false]
  exact ⟨_, rfl⟩

theorem fetchInternal_first (hptr : c.store.ptr = some ptr) (hpos : 0 < c.store.size)
    (hfile : c.store.ftype.hasHandle) (hlen : 0 < len) {start : ℕ}
    (hhead : c.rHead = start + c.store.head) (htail : c.rTail = start + c.store.head)
    (hstart : start ≤ alignDown pos) : ∃ c' tailInc headInc,
      c.fetchInternal f len pos false =
        some (min (alignUp (pos + len) - alignDown pos) c.store.size, tailInc, headInc, c') ∧
      c' = { c with store := { c.store with ptr := some (ringIn ptr c.store.size
        (alignDown pos + c.store.head) (readOut f.content (alignDown pos)
          (min (alignUp (pos + len) - alignDown pos) c.store.size))) } } := by
  have hdown := alignDown_le pos
  have hup := le_alignUp (pos + len)
  unfold fetchInternal
  generalize alignDown pos = low at *
  generalize alignUp (pos + len) = high at *
  obtain ⟨rTailNext, hwindow⟩ := calcOffset_behind (c := c) (show c.rTail < high + c.store.head by
    omega) (show c.rHead ≤ low + c.store.head by omega) (by omega)
  rw [Nat.add_sub_add_right] at hwindow
  have hcopy := copyFileToBuffer_eq (f := f) hptr hpos hfile
    (n := min (high - low) c.store.size) (by omega) (Nat.min_le_right _ _) (low + c.store.head)
    (low + c.store.head - c.store.head)
  refine ⟨_, _, _, Option.bind_eq_some_iff.mpr ⟨_, hwindow,
    Option.bind_eq_some_iff.mpr ⟨_, hcopy, rfl⟩⟩, ?_⟩
  rw [Nat.add_sub_cancel]

theorem getDataLoop_zero (fuel : ℕ) (c : ReadStore) (p : ℕ) (mem : ℤ → UInt8) :
    getDataLoop f pos fuel c 0 p mem = some (c, mem) := by
  cases fuel with
  | zero => rw [getDataLoop, if_pos rfl]
  | succ fuel => rw [getDataLoop, if_pos rfl]

theorem getDataLoop_once {consumed : ℕ} {tailInc headInc : ℤ} {xs : List UInt8}
    (hlen : 0 < len) (hfetch : c.fetchInternal f len pos false = some (consumed, tailInc, headInc, c'))
    (hle : len ≤ consumed) (hread : c'.store.copyFromBuffer len (pos + c'.store.head) = some xs)
    (mem : ℤ → UInt8) :
    getDataLoop f pos len c len pos mem =
      some (c'.moveWindow tailInc headInc, copyTo mem 0 xs) := by
  obtain ⟨fuel, rfl⟩ := Nat.exists_eq_add_of_lt hlen
  rw [Nat.zero_add] at *
  rw [getDataLoop, if_neg (Nat.succ_ne_zero _), hfetch]
  simp only [Option.bind_eq_bind, Option.bind_some, Nat.min_eq_left hle, hread, Nat.sub_self]
  exact getDataLoop_zero _ _ _ _

theorem getDataLoop_first (hmode : c.store.mode.readMode = true)
    (hsaved : 0 < c.tailPreserved → ∃ xs, c.bufPreserved = some xs)
    (hptr : c.store.ptr = some ptr) (hpos : 0 < c.store.size) (hfile : c.store.ftype.hasHandle)
    (hlen : 0 < len) (hle : len ≤ c.store.size) {start : ℕ}
    (hhead : c.rHead = start + c.store.head) (htail : c.rTail = start + c.store.head)
    (hstart : start ≤ alignDown pos) (mem : ℤ → UInt8) :
    ∃ c', ∃ ring : Cells UInt8,
      getDataLoop f pos len c len pos mem = some (c', copyTo mem 0
        ((List.range len).map fun k => ring ((pos + c.store.head + k) % c.store.size))) ∧
      (∀ k < min (alignUp (pos + len) - alignDown pos) c.store.size,
        ring ((alignDown pos + c.store.head + k) % c.store.size) = f.content (alignDown pos + k)) ∧
      ∃ c'', c'.finReadMode = some c'' := by
  have hdown := alignDown_le pos
  have hup := le_alignUp (pos + len)
  obtain ⟨c', tailInc, headInc, hfetch, hc'⟩ :=
    fetchInternal_first (f := f) hptr hpos hfile hlen hhead htail hstart
  refine ⟨c'.moveWindow tailInc headInc, ringIn ptr c.store.size (alignDown pos + c.store.head)
    (readOut f.content (alignDown pos)
      (min (alignUp (pos + len) - alignDown pos) c.store.size)), ?_, fun k hk => ?_, ?_⟩
  · apply getDataLoop_once hlen hfetch (by omega)
    rw [hc']
    exact DataStore.copyFromBuffer_eq (s := { c.store with ptr := some _ }) rfl hpos hle _
  · exact ringIn_at hpos (by rw [readOut_length]; exact Nat.min_le_right _ _)
      (readOut_getElem? f.content hk)
  · rw [hc']
    exact finReadMode_some hmode hsaved rfl hpos

theorem getDataLoop_frame {fuel : ℕ} {z : ℤ} : ∀ {c c' : ReadStore} {len p : ℕ}
    {mem mem' : ℤ → UInt8}, (c.store.size : ℤ) ≤ z →
      getDataLoop f pos fuel c len p mem = some (c', mem') → mem' z = mem z := by
  induction fuel with
  | zero =>
      intro c c' len p mem mem' hz h
      rw [getDataLoop] at h
      split_ifs at h
      rw [(Prod.mk.inj (Option.some.inj h)).2]
  | succ fuel ih =>
      intro c c' len p mem mem' hz h
      rw [getDataLoop] at h
      split_ifs at h with hzero
      · rw [(Prod.mk.inj (Option.some.inj h)).2]
      · obtain ⟨⟨consumed, tailInc, headInc, c₁⟩, hfetch, h⟩ := Option.bind_eq_some_iff.mp h
        obtain ⟨xs, hxs, h⟩ := Option.bind_eq_some_iff.mp h
        obtain ⟨w, hw, hfetch⟩ := Option.bind_eq_some_iff.mp hfetch
        obtain ⟨s, hcopy, hfetch⟩ := Option.bind_eq_some_iff.mp hfetch
        obtain ⟨ptr, rfl⟩ := copyFileToBuffer_ptr hcopy
        obtain ⟨rfl, -, -, rfl⟩ := by simpa only [Option.some.injEq, Prod.mk.injEq] using hfetch
        have hmax := calcOffset_max hw
        have hlen := copyFromBuffer_length hxs
        rw [ih (by exact hz) h]
        apply copyTo_off
        right
        omega

end Rounds

/-- `GetData` ends and returns the bytes of the stream that are in the file, from whatever window
was left behind and whatever the ring holds. -/
def ReadsFlushed (s : DataStore) (len pos : ℕ) : Prop :=
  ∀ rHead rTail f ptr stream mem, (∀ i < s.tail, f.content (s.writtenLen + i) = stream i) →
    ∃ c' mem', getData ⟨{ s with ptr := some ptr }, rHead, rTail, 0, none⟩ f len pos mem =
        some (c', mem') ∧ s.ReadInto stream len pos mem mem'

section Requests

variable {s : DataStore} {len pos : ℕ}

theorem ne_volatile {t : FileType} (h : t.hasHandle) : t ≠ .volatile := by
  rintro rfl
  exact absurd h (by decide)

theorem getData_one_round (hmode : s.mode.readMode = false) (hpos : 0 < s.size)
    (hfile : s.ftype.hasHandle) (hwritten : s.writtenLen % chunkAlignment = 0)
    (hlow : s.writtenLen ≤ pos) (hlen : 0 < len) (hle : len ≤ s.size) (rHead rTail : ℕ)
    (f : FileHandle) (ptr : Cells UInt8) (mem : ℤ → UInt8) :
    ∃ c', ∃ ring : Cells UInt8,
      getData ⟨{ s with ptr := some ptr }, rHead, rTail, 0, none⟩ f len pos mem =
        some (c', copyTo mem 0 ((List.range len).map fun k => ring ((pos + s.head + k) % s.size))) ∧
      ∀ k < min (alignUp (pos + len) - alignDown pos) s.size,
        ring ((alignDown pos + s.head + k) % s.size) = f.content (alignDown pos + k) := by
  obtain ⟨c₁, hinit, hstarts⟩ := initReadMode_starts
    (c := ⟨{ s with ptr := some ptr }, rHead, rTail, 0, none⟩) ⟨hmode, rfl, rfl⟩ rfl hpos
  have hsize : c₁.store.size = s.size := hstarts.store.1
  have hhead : c₁.store.head = s.head := hstarts.store.2.1
  have hft : c₁.store.ftype = s.ftype := hstarts.store.2.2.2.1
  have hwindow : c₁.rHead = s.writtenLen + c₁.store.head ∧
      c₁.rTail = s.writtenLen + c₁.store.head := by
    rw [hhead, Nat.add_comm]
    exact hstarts.window
  have hstart : s.writtenLen ≤ alignDown pos := by
    rw [← alignDown_of_aligned hwritten]
    exact Nat.mul_le_mul_right _ (Nat.div_le_div_right hlow)
  obtain ⟨c₂, ring, hloop, hring, c₃, hfin⟩ := getDataLoop_first (f := f) hstarts.mode
    hstarts.saved hstarts.store.2.2.2.2 (by rw [hsize]; exact hpos) (by rw [hft]; exact hfile) hlen
    (by rw [hsize]; exact hle) hwindow.1 hwindow.2 hstart mem
  rw [hsize, hhead] at hloop hring
  refine ⟨c₃, ring, ?_, hring⟩
  rw [getData, if_neg (by exact ne_volatile hfile), hinit]
  simp only [Option.bind_eq_bind, Option.bind_some, hloop, hfin]

theorem readsFlushed_of_span (hmode : s.mode.readMode = false) (hpos : 0 < s.size)
    (hfile : s.ftype.hasHandle) (hwritten : s.writtenLen % chunkAlignment = 0)
    (hlow : s.writtenLen ≤ pos) (hlen : 0 < len) (hhigh : pos + len ≤ s.writtenLen + s.tail)
    (hspan : alignUp (pos + len) - alignDown pos ≤ s.size) : ReadsFlushed s len pos := by
  intro rHead rTail f ptr stream mem hstream
  have hdown := alignDown_le pos
  have hup := le_alignUp (pos + len)
  obtain ⟨c', ring, hget, hring⟩ := getData_one_round hmode hpos hfile hwritten hlow hlen
    (by omega) rHead rTail f ptr mem
  generalize alignDown pos = low at *
  generalize alignUp (pos + len) = high at *
  rw [Nat.min_eq_left hspan] at hring
  refine ⟨c', _, hget, fun k hk => ?_, fun z hz => ?_⟩
  · -- the byte is in the window, and the window starts in front of the request
    have hcell := hring (pos - low + k) (by omega)
    rw [show low + s.head + (pos - low + k) = pos + s.head + k by omega,
      show low + (pos - low + k) = s.writtenLen + (pos - s.writtenLen + k) by omega,
      hstream _ (by omega)] at hcell
    rw [← Int.zero_add (k : ℤ)]
    apply copyTo_at
    rw [List.getElem?_map, List.getElem?_range hk, Option.map_some, hcell]
  · apply copyTo_off
    rw [List.length_map, List.length_range]
    omega

theorem getData_frame (hmode : s.mode.readMode = false) (hpos : 0 < s.size)
    (hfile : s.ftype.hasHandle) {rHead rTail : ℕ} {f : FileHandle} {ptr : Cells UInt8}
    {mem mem' : ℤ → UInt8} {c' : ReadStore}
    (h : getData ⟨{ s with ptr := some ptr }, rHead, rTail, 0, none⟩ f len pos mem =
      some (c', mem')) {z : ℤ} (hz : s.size ≤ z) : mem' z = mem z := by
  obtain ⟨c₁, hinit, hstarts⟩ := initReadMode_starts
    (c := ⟨{ s with ptr := some ptr }, rHead, rTail, 0, none⟩) ⟨hmode, rfl, rfl⟩ rfl hpos
  have hsize : c₁.store.size = s.size := hstarts.store.1
  rw [getData, if_neg (by exact ne_volatile hfile), hinit, Option.bind_eq_bind,
    Option.bind_some] at h
  obtain ⟨⟨c₂, mem₂⟩, hloop, h⟩ := Option.bind_eq_some_iff.mp h
  obtain ⟨c₃, -, h⟩ := Option.bind_eq_some_iff.mp h
  obtain ⟨-, rfl⟩ := Prod.mk.inj (Option.some.inj h)
  exact getDataLoop_frame (by rw [hsize]; exact hz) hloop

theorem span_of_readsFlushed (hmode : s.mode.readMode = false) (hpos : 0 < s.size)
    (hsize : s.size % chunkAlignment = 0) (hfile : s.ftype.hasHandle)
    (hwritten : s.writtenLen % chunkAlignment = 0) (hlow : s.writtenLen ≤ pos) (hlen : 0 < len)
    (h : ReadsFlushed s len pos) : alignUp (pos + len) - alignDown pos ≤ s.size := by
  have hdown := alignDown_add_mod pos
  have hmod := Nat.mod_lt pos chunkAlignment_pos
  have hchunk : chunkAlignment ≤ s.size := Nat.le_of_dvd hpos (Nat.dvd_of_mod_eq_zero hsize)
  by_contra hover
  rcases Nat.lt_or_ge s.size len with hlong | hshort
  · -- no round writes the cell behind the first ring full of bytes
    obtain ⟨c', mem', hget, hcells, -⟩ := h 0 0 ⟨0, fun _ => 0⟩ (fun _ => 0) (fun _ => 0)
      (fun _ => 1) fun _ _ => rfl
    have hframe := getData_frame hmode hpos hfile hget (Int.le_refl s.size)
    rw [hcells s.size hlong] at hframe
    exact absurd hframe (by decide)
  · -- the byte behind the window is looked for in the first cell of the window
    have hbehind : alignDown pos + s.size < pos + len := by
      by_contra hin
      have haligned : (alignDown pos + s.size) % chunkAlignment = 0 := by
        rw [Nat.add_mod, alignDown_mod, hsize, Nat.add_zero, Nat.zero_mod]
      have := alignUp_le (Nat.le_of_not_lt hin) haligned
      omega
    obtain ⟨c', mem', hget, hcells, -⟩ := h 0 0
      ⟨0, fun x => if x = alignDown pos + s.size then 1 else 0⟩ (fun _ => 0)
      (fun i => if s.writtenLen + i = alignDown pos + s.size then 1 else 0) (fun _ => 0)
      fun _ _ => rfl
    obtain ⟨c'', ring, hget', hring⟩ := getData_one_round hmode hpos hfile hwritten hlow hlen
      hshort 0 0 ⟨0, fun x => if x = alignDown pos + s.size then 1 else 0⟩ (fun _ => 0) (fun _ => 0)
    obtain ⟨-, rfl⟩ := Prod.mk.inj (Option.some.inj (hget.symm.trans hget'))
    rw [Nat.min_eq_right (Nat.le_of_not_le hover)] at hring
    generalize alignDown pos = low at *
    have hk : low + s.size - pos < len := by omega
    have hcell := hcells _ hk
    rw [if_pos (by omega), ← Int.zero_add ((low + s.size - pos : ℕ) : ℤ),
      copyTo_at _ _ (by rw [List.getElem?_map, List.getElem?_range hk, Option.map_some])] at hcell
    have hfirst : ring ((low + s.head + 0) % s.size) = 0 :=
      (hring 0 hpos).trans (if_neg (by omega))
    rw [show pos + s.head + (low + s.size - pos) = low + s.head + 0 + s.size by omega,
      Nat.add_mod_right, hfirst] at hcell
    exact absurd hcell (by decide)

/-- `GetData` returns the bytes of the file exactly when the aligned span of the request fits into
the ring. -/
theorem reads_flushed_iff (hmode : s.mode.readMode = false) (hpos : 0 < s.size)
    (hsize : s.size % chunkAlignment = 0) (hfile : s.ftype.hasHandle)
    (hwritten : s.writtenLen % chunkAlignment = 0) (hlow : s.writtenLen ≤ pos) (hlen : 0 < len)
    (hhigh : pos + len ≤ s.writtenLen + s.tail) :
    ReadsFlushed s len pos ↔ alignUp (pos + len) - alignDown pos ≤ s.size :=
  ⟨span_of_readsFlushed hmode hpos hsize hfile hwritten hlow hlen,
    readsFlushed_of_span hmode hpos hfile hwritten hlow hlen hhigh⟩

end Requests

theorem one_byte_read_back : ReadsFlushed (DataStore.chunkRing 0 2) 1 (chunkAlignment + 1) :=
  (reads_flushed_iff rfl (by decide) (by decide) rfl (by decide) (by decide) (by decide)
    (by decide)).mpr (by decide)

theorem two_chunks_not_read_back : ¬ ReadsFlushed
    (DataStore.chunkRing (2 * chunkAlignment) (2 * chunkAlignment)) (2 * chunkAlignment)
    chunkAlignment := by
  intro h
  exact absurd (span_of_readsFlushed rfl (by decide) (by decide) rfl (by decide) (by decide)
    (by decide) h) (by decide)

end ReadStore

end CDRuntime
