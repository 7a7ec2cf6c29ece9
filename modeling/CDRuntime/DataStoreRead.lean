import CDRuntime.DataStoreRealloc
import CDRuntime.Packer
import Mathlib.Algebra.Group.Int.Defs

namespace CDRuntime
open Cells

def copyTo (mem : ℤ → UInt8) (dst : ℤ) (xs : List UInt8) : ℤ → UInt8 :=
  fun z => if dst ≤ z then (xs[(z - dst).toNat]?).getD (mem z) else mem z

theorem copyTo_at (mem : ℤ → UInt8) (dst : ℤ) {xs : List UInt8} {k : ℕ} {x : UInt8}
    (h : xs[k]? = some x) : copyTo mem dst xs (dst + k) = x := by
  rw [copyTo, if_pos (by omega), show (dst + k - dst).toNat = k by omega, h, Option.getD_some]

theorem copyTo_start (mem : ℤ → UInt8) (dst : ℤ) {xs : List UInt8} {x : UInt8}
    (h : xs[0]? = some x) : copyTo mem dst xs dst = x := by
  have hcell := copyTo_at mem dst h
  rwa [Int.natCast_zero, Int.add_zero] at hcell

theorem copyTo_off (mem : ℤ → UInt8) {dst z : ℤ} {xs : List UInt8}
    (h : z < dst ∨ dst + xs.length ≤ z) : copyTo mem dst xs z = mem z := by
  unfold copyTo
  split_ifs with hle
  · rw [List.getElem?_eq_none (by omega), Option.getD_none]
  · rfl

theorem copyTo_nil (mem : ℤ → UInt8) (dst : ℤ) : copyTo mem dst [] = mem := by
  funext z
  apply copyTo_off
  rw [List.length_nil]
  omega

theorem readOut_part {α : Type*} (m : Cells α) (pos : ℕ) {skip n total : ℕ}
    (h : skip + n ≤ total) :
    ((readOut m pos total).drop skip).take n = readOut m (pos + skip) n := by
  apply List.ext_getElem?
  intro i
  by_cases hi : i < n
  · rw [List.getElem?_take_of_lt hi, List.getElem?_drop, readOut_getElem? m (by omega),
      readOut_getElem? m hi, Nat.add_assoc]
  · rw [List.getElem?_take_eq_none (by omega),
      List.getElem?_eq_none (by rw [readOut_length]; omega)]

/-- `GetFileHandle` returns no handle for the other types. -/
def FileType.hasHandle : FileType → Bool
  | .posixFile | .mpiFile | .libcFile => true
  | .volatile | .aioFile => false

namespace DataStore

/-- `fh_->Read`; the one of a POSIX file asserts a positive length. -/
def readHandle (s : DataStore) (f : FileHandle) (len offset : ℕ) : Option (List UInt8) :=
  if s.ftype.hasHandle then
    if s.ftype = .posixFile ∧ len = 0 then none
    else some (readOut f.content offset len)
  else none

/-- The bytes that `FileRead` copies, out of a block of whole chunks. -/
def fileRead (s : DataStore) (f : FileHandle) (chunkInFile pos : ℕ) : Option (List UInt8) := do
  let redundantLen := pos % chunkAlignment
  let tmp ← s.readHandle f (alignUp (chunkInFile + redundantLen)) (alignDown pos)
  some ((tmp.drop redundantLen).take chunkInFile)

/-- `Read(pto, len, pos)` with `pto = 0`. The differences of the unsigned offsets are stored in
signed variables, but the offset in the buffer is taken from the unsigned one. -/
def read (s : DataStore) (f : FileHandle) (len pos : ℕ) (mem : ℤ → UInt8) :
    Option (ℤ → UInt8) := do
  let fileOffset := s.writtenLen + s.head
  let chunkInFile : ℤ := if len + pos ≤ fileOffset then len else fileOffset - pos
  let chunkInMemory : ℤ := if len + pos ≤ fileOffset then 0 else len - chunkInFile
  let mem ← (if pos < fileOffset then do
      let xs ← s.fileRead f chunkInFile.toNat pos
      some (copyTo mem 0 xs)
    else some mem)
  if s.size = 0 then none
  else do
    let pto : ℤ := if chunkInFile ≠ 0 then chunkInFile else 0
    let src := if chunkInFile ≠ 0 then s.head % s.size
      else (((pos : ℤ) - fileOffset) % 2 ^ 64).toNat % s.size
    let chunkInMemory := if chunkInFile ≠ 0 then chunkInMemory else len
    if chunkInMemory = 0 then some mem
    else do
      let ptr ← s.ptr
      if s.size < src + chunkInMemory.toNat then none
      else some (copyTo mem pto (readOut ptr src chunkInMemory.toNat))

end DataStore

/-- `GetAt(id, ret_size)`: the size and the memory around the new array. -/
def Packer.getAt (p : Packer) (id : UInt64) (mem : ℤ → UInt8) : Option (ℕ × (ℤ → UInt8)) := do
  match ← p.table.find id with
  | none => none
  | some entry =>
      let mem' ← p.data.read p.file entry.size entry.offset mem
      some (entry.size, mem')

namespace DataStore

section Regions

variable {s : DataStore} {f : FileHandle} {ptr : Cells UInt8} {len pos : ℕ} {mem : ℤ → UInt8}

theorem fileRead_eq (hfile : s.ftype.hasHandle) {n : ℕ} (hn : 0 < n) :
    s.fileRead f n pos = some (readOut f.content pos n) := by
  have hup := le_alignUp (n + pos % chunkAlignment)
  have hnonzero : ¬ (s.ftype = .posixFile ∧ alignUp (n + pos % chunkAlignment) = 0) := by
    rintro ⟨-, hzero⟩
    omega
  simp only [fileRead, readHandle, if_pos hfile, if_neg hnonzero, Option.bind_eq_bind,
    Option.bind_some]
  rw [readOut_part _ _ (by omega), alignDown_add_mod]

theorem read_in_file (hpos : 0 < s.size) (hfile : s.ftype.hasHandle) (hlen : 0 < len)
    (hle : pos + len ≤ s.writtenLen + s.head) :
    s.read f len pos mem = some (copyTo mem 0 (readOut f.content pos len)) := by
  have hin : len + pos ≤ s.writtenLen + s.head := by omega
  have hlt : pos < s.writtenLen + s.head := by omega
  have hchunk : (len : ℤ) ≠ 0 := by omega
  simp only [read, if_pos hin, if_pos hlt, Int.toNat_natCast, fileRead_eq hfile hlen,
    Option.bind_eq_bind, Option.bind_some, if_neg (Nat.ne_of_gt hpos), if_pos hchunk, if_true]

theorem read_across (hpos : 0 < s.size) (hfile : s.ftype.hasHandle) {inFile inMemory : ℕ}
    (hfo : pos + inFile = s.writtenLen + s.head) (hin : 0 < inFile) (hmem : 0 < inMemory)
    (hlen : len = inFile + inMemory) :
    ({ s with ptr := some ptr }).read f len pos mem =
      if s.size < s.head % s.size + inMemory then none
      else some (copyTo (copyTo mem 0 (readOut f.content pos inFile)) inFile
        (readOut ptr (s.head % s.size) inMemory)) := by
  have hout : ¬ len + pos ≤ s.writtenLen + s.head := by omega
  have hlt : pos < s.writtenLen + s.head := by omega
  have hchunk : ((s.writtenLen + s.head : ℕ) : ℤ) - pos = inFile := by omega
  have hrest : (len : ℤ) - inFile = inMemory := by omega
  have hne : (inFile : ℤ) ≠ 0 := by omega
  have hne' : ¬ (inMemory : ℤ) = 0 := by omega
  simp only [read, if_neg hout, if_pos hlt, hchunk, hrest, Int.toNat_natCast,
    fileRead_eq (s := { s with ptr := some ptr }) hfile hin, Option.bind_eq_bind,
    Option.bind_some, if_neg (Nat.ne_of_gt hpos), if_pos hne, if_neg hne']

theorem read_at_end (hpos : 0 < s.size) (hlen : 0 < len) (heq : pos = s.writtenLen + s.head) :
    ({ s with ptr := some ptr }).read f len pos mem = if s.size < len then none
      else some (copyTo mem 0 (readOut ptr 0 len)) := by
  have hout : ¬ len + pos ≤ s.writtenLen + s.head := by omega
  have hlt : ¬ pos < s.writtenLen + s.head := by omega
  have hchunk : ((s.writtenLen + s.head : ℕ) : ℤ) - pos = 0 := by omega
  have hsrc : (pos : ℤ) - (s.writtenLen + s.head : ℕ) = 0 := by omega
  have hne : ¬ (len : ℤ) = 0 := by omega
  simp only [read, if_neg hout, if_neg hlt, hchunk, hsrc, Option.bind_eq_bind,
    Option.bind_some, if_neg (Nat.ne_of_gt hpos), ne_eq, not_true_eq_false, if_false, if_neg hne,
    Int.toNat_natCast, Int.zero_emod, Int.toNat_zero, Nat.zero_mod, Nat.zero_add]

theorem read_behind (hpos : 0 < s.size) {ahead : ℕ}
    (hfo : pos = s.writtenLen + s.head + ahead) (hahead : 0 < ahead) :
    ({ s with ptr := some ptr }).read f len pos mem =
      if s.size < s.head % s.size + (ahead + len) then none
      else some (copyTo mem (-(ahead : ℤ)) (readOut ptr (s.head % s.size) (ahead + len))) := by
  have hout : ¬ len + pos ≤ s.writtenLen + s.head := by omega
  have hlt : ¬ pos < s.writtenLen + s.head := by omega
  have hchunk : ((s.writtenLen + s.head : ℕ) : ℤ) - pos = -(ahead : ℤ) := by omega
  have hrest : (len : ℤ) - -(ahead : ℤ) = (ahead + len : ℕ) := by omega
  have hne : -(ahead : ℤ) ≠ 0 := by omega
  have hne' : ¬ ((ahead + len : ℕ) : ℤ) = 0 := by omega
  simp only [read, if_neg hout, if_neg hlt, hchunk, hrest, Option.bind_eq_bind,
    Option.bind_some, if_neg (Nat.ne_of_gt hpos), if_pos hne, if_neg hne', Int.toNat_natCast]

end Regions

/-- The bytes of the stream: the first are in the file, the others in the ring. -/
structure Streams (s : DataStore) (f : FileHandle) (ptr : Cells UInt8) (stream : ℕ → UInt8) :
    Prop where
  file : ∀ i < s.head, f.content (s.writtenLen + i) = stream i
  ring : ∀ i, s.head ≤ i → i < s.tail → ptr (i % s.size) = stream i

/-- The memory after a read into the `len` cells from `0` on. -/
structure ReadInto (s : DataStore) (stream : ℕ → UInt8) (len pos : ℕ) (mem mem' : ℤ → UInt8) :
    Prop where
  cells : ∀ k : ℕ, k < len → mem' k = stream (pos - s.writtenLen + k)
  frame : ∀ z : ℤ, z < 0 ∨ len ≤ z → mem' z = mem z

/-- The read returns the bytes of the stream, whatever they are. -/
def ReadsStream (s : DataStore) (len pos : ℕ) : Prop :=
  ∀ f ptr stream mem, s.Streams f ptr stream →
    ∃ mem', ({ s with ptr := some ptr }).read f len pos mem = some mem' ∧
      s.ReadInto stream len pos mem mem'

/-- The bytes are all in the file, or the rest of them is at the head of the ring without a wrap,
or they start where the file ends while the head is at the start of the block. -/
def ReadsInOrder (s : DataStore) (len pos : ℕ) : Prop :=
  pos + len ≤ s.writtenLen + s.head ∨
    (pos < s.writtenLen + s.head ∧
      s.head % s.size + (pos + len - (s.writtenLen + s.head)) ≤ s.size) ∨
    (pos = s.writtenLen + s.head ∧ s.head % s.size = 0)

section Stream

variable {s : DataStore} {len pos : ℕ}

theorem streams_mark (hb : s.tail - s.head ≤ s.size) {i : ℕ} (hi : s.head ≤ i) (hi' : i < s.tail) :
    s.Streams ⟨0, fun _ => 0⟩ (fun k => if k = i % s.size then 1 else 0)
      (fun k => if k = i then 1 else 0) := by
  refine ⟨fun k hk => (if_neg (by omega)).symm, fun k hk hk' => ?_⟩
  by_cases hki : k = i
  · rw [if_pos (by rw [hki]), if_pos hki]
  · have hcell : k % s.size ≠ i % s.size := by
      rcases Nat.lt_or_gt_of_ne hki with hlt | hlt
      · exact mod_ne_of_lt hlt (by omega)
      · exact (mod_ne_of_lt hlt (by omega)).symm
    rw [if_neg hcell, if_neg hki]

theorem readsStream_of_inOrder (hpos : 0 < s.size) (hb : s.tail - s.head ≤ s.size)
    (hfile : 0 < s.head → s.ftype.hasHandle) (hlen : 0 < len) (hlow : s.writtenLen ≤ pos)
    (hhigh : pos + len ≤ s.writtenLen + s.tail) (h : s.ReadsInOrder len pos) :
    s.ReadsStream len pos := by
  obtain ⟨start, rfl⟩ := Nat.exists_eq_add_of_le hlow
  intro f ptr stream mem hstream
  by_cases hin : s.writtenLen + start + len ≤ s.writtenLen + s.head
  · -- all in the file
    refine ⟨_, read_in_file hpos (hfile (by omega)) hlen hin, fun k hk => ?_, fun z hz => ?_⟩
    · rw [← Int.zero_add (k : ℤ), copyTo_at _ _ (readOut_getElem? _ hk), Nat.add_sub_cancel_left,
        Nat.add_assoc]
      exact hstream.file _ (by omega)
    · apply copyTo_off
      rw [readOut_length]
      omega
  · rcases Nat.lt_or_ge start s.head with hlt | hge
    · -- the end of the file and the first bytes of the ring
      obtain ⟨inFile, hinFile⟩ := Nat.exists_eq_add_of_lt hlt
      obtain ⟨inMemory, hinMemory⟩ := Nat.exists_eq_add_of_lt (show inFile + 1 < len by omega)
      have hfits : s.head % s.size + (inMemory + 1) ≤ s.size := by
        rcases h with h | ⟨-, h⟩ | ⟨h, -⟩
        · omega
        · omega
        · omega
      have hread := @read_across s f ptr _ _ mem hpos (hfile (by omega)) _ _
        (show s.writtenLen + start + (inFile + 1) = s.writtenLen + s.head by omega) (by omega)
        (show 0 < inMemory + 1 by omega) (show len = inFile + 1 + (inMemory + 1) by omega)
      rw [if_neg (Nat.not_lt_of_le hfits)] at hread
      refine ⟨_, hread, fun k hk => ?_, fun z hz => ?_⟩
      · rw [Nat.add_sub_cancel_left]
        rcases Nat.lt_or_ge k (inFile + 1) with hk' | hk'
        · rw [copyTo_off _ (by omega), ← Int.zero_add (k : ℤ),
            copyTo_at _ _ (readOut_getElem? _ hk'), Nat.add_assoc]
          exact hstream.file _ (by omega)
        · obtain ⟨j, rfl⟩ := Nat.exists_eq_add_of_le hk'
          rw [Int.natCast_add (inFile + 1) j,
            copyTo_at _ _ (readOut_getElem? _ (by omega : j < inMemory + 1)),
            ← add_mod_of_fits (by omega), show start + (inFile + 1 + j) = s.head + j by omega]
          exact hstream.ring _ (by omega) (by omega)
      · rw [copyTo_off _ (by rw [readOut_length]; omega),
          copyTo_off _ (by rw [readOut_length]; omega)]
    · -- the ring from its first cell on
      have hstart : start = s.head ∧ s.head % s.size = 0 := by
        rcases h with h | ⟨h, -⟩ | ⟨h, hcell⟩
        · omega
        · omega
        · exact ⟨by omega, hcell⟩
      obtain ⟨rfl, hcell⟩ := hstart
      have hread := @read_at_end s f ptr _ _ mem hpos hlen
        (show s.writtenLen + s.head = s.writtenLen + s.head from rfl)
      rw [if_neg (show ¬ s.size < len by omega)] at hread
      refine ⟨_, hread, fun k hk => ?_, fun z hz => ?_⟩
      · rw [← Int.zero_add (k : ℤ), copyTo_at _ _ (readOut_getElem? _ hk), Nat.add_sub_cancel_left,
          ← hcell, ← add_mod_of_fits (by omega)]
        exact hstream.ring _ (by omega) (by omega)
      · apply copyTo_off
        rw [readOut_length]
        omega

theorem inOrder_of_readsStream (hpos : 0 < s.size) (hb : s.tail - s.head ≤ s.size)
    (hfile : 0 < s.head → s.ftype.hasHandle) (hlen : 0 < len) (hlow : s.writtenLen ≤ pos)
    (hhigh : pos + len ≤ s.writtenLen + s.tail) (h : s.ReadsStream len pos) :
    s.ReadsInOrder len pos := by
  rcases Nat.lt_or_ge (s.writtenLen + s.head) (pos + len) with hout | hin
  · -- the first byte of the ring is marked, in memory that is otherwise zero
    have hmark := streams_mark (s := s) hb (Nat.le_refl s.head) (by omega)
    obtain ⟨mem', hread, hcells, hframe⟩ := h _ _ _ (fun _ => 0) hmark
    rcases Nat.lt_trichotomy pos (s.writtenLen + s.head) with hlt | heq | hgt
    · -- a copy over the end of the block stops
      obtain ⟨inFile, hinFile⟩ := Nat.exists_eq_add_of_le (Nat.le_of_lt hlt)
      obtain ⟨inMemory, hinMemory⟩ := Nat.exists_eq_add_of_le (Nat.le_of_lt hout)
      rw [read_across hpos (hfile (by omega)) hinFile.symm (by omega)
        (show 0 < inMemory by omega) (by omega)] at hread
      refine .inr (.inl ⟨hlt, ?_⟩)
      rw [hinMemory, Nat.add_sub_cancel_left]
      by_contra hover
      rw [if_pos (Nat.lt_of_not_le hover)] at hread
      exact absurd hread (by simp)
    · -- the first cell read is that of the mark
      rw [read_at_end hpos hlen heq, if_neg (show ¬ s.size < len by omega)] at hread
      obtain rfl := Option.some.inj hread
      have hfirst := hcells 0 hlen
      rw [Int.natCast_zero, copyTo_start _ _ (readOut_getElem? _ hlen), heq,
        Nat.add_sub_cancel_left, Nat.add_zero, Nat.add_zero, if_pos rfl] at hfirst
      refine .inr (.inr ⟨heq, ?_⟩)
      by_contra hcell
      rw [if_neg (Ne.symm hcell)] at hfirst
      exact absurd hfirst (by decide)
    · -- the mark is copied in front of the destination
      obtain ⟨ahead, hahead⟩ := Nat.exists_eq_add_of_le (Nat.le_of_lt hgt)
      rw [read_behind hpos hahead (by omega)] at hread
      split_ifs at hread
      obtain rfl := Option.some.inj hread
      have hfront := hframe (-(ahead : ℤ)) (.inl (by omega))
      rw [copyTo_start _ _ (readOut_getElem? _ (by omega)), Nat.add_zero, if_pos rfl] at hfront
      exact absurd hfront (by decide)
  · exact .inl hin

theorem read_empty {f : FileHandle} {ptr : Cells UInt8} {mem : ℤ → UInt8} (hpos : 0 < s.size) :
    ({ s with ptr := some ptr }).read f 0 0 mem =
      if s.writtenLen + s.head = 0 ∨ (s.ftype.hasHandle ∧ s.ftype ≠ .posixFile) then some mem
      else none := by
  have hin : 0 + 0 ≤ s.writtenLen + s.head := Nat.zero_le _
  by_cases hfo : s.writtenLen + s.head = 0
  · have hlt : ¬ 0 < s.writtenLen + s.head := by omega
    simp only [read, if_pos hin, if_neg hlt, Option.bind_eq_bind, Option.bind_some,
      if_neg (Nat.ne_of_gt hpos), Int.natCast_zero, ne_eq, not_true_eq_false, if_false, if_true,
      if_pos (Or.inl hfo)]
  · have hlt : 0 < s.writtenLen + s.head := by omega
    have hread : ({ s with ptr := some ptr }).fileRead f 0 0 =
        if s.ftype.hasHandle ∧ s.ftype ≠ .posixFile then some [] else none := by
      simp only [fileRead, readHandle, Nat.zero_mod, Nat.add_zero, Option.bind_eq_bind,
        show alignUp 0 = 0 from rfl, and_true]
      cases hft : s.ftype with
      | posixFile => rfl
      | mpiFile => rfl
      | libcFile => rfl
      | volatile => rfl
      | aioFile => rfl
    simp only [read, if_pos hin, if_pos hlt, Int.natCast_zero, Int.toNat_zero, hread,
      Option.bind_eq_bind]
    by_cases hhandle : s.ftype.hasHandle ∧ s.ftype ≠ .posixFile
    · simp only [if_pos hhandle, if_pos (Or.inr hhandle), Option.bind_some, copyTo_nil,
        if_neg (Nat.ne_of_gt hpos), ne_eq, not_true_eq_false, if_false, if_true]
    · have hstop : ¬ (s.writtenLen + s.head = 0 ∨
          (s.ftype.hasHandle ∧ s.ftype ≠ .posixFile)) := not_or.mpr ⟨hfo, hhandle⟩
      simp only [if_neg hhandle, if_neg hstop, Option.bind_none]

end Stream

end DataStore

namespace Packer
open DataStore

/-- The first entry with the id has the index `k`, and this size and offset. -/
def StoresAt (p : Packer) (id : UInt64) (k len pos : ℕ) : Prop :=
  ∃ es e, p.table.Holds es ∧ es[k]? = some e ∧ e.id = id ∧ e.size = len ∧ e.offset = pos ∧
    ∀ (j : ℕ) e', j < k → es[j]? = some e' → e'.id ≠ id

/-- `GetAt` returns the size and the bytes of the stream, in the new array only. -/
def GetsStream (p : Packer) (id : UInt64) (len pos : ℕ) : Prop :=
  ∀ f ptr stream mem, p.data.Streams f ptr stream →
    ∃ mem', ({ p with data := { p.data with ptr := some ptr }, file := f }).getAt id mem =
        some (len, mem') ∧ p.data.ReadInto stream len pos mem mem'

theorem getsStream_iff {p : Packer} {id : UInt64} {k len pos : ℕ} (h : p.StoresAt id k len pos) :
    p.GetsStream id len pos ↔ p.data.ReadsStream len pos ∧ k < 2 ^ 32 := by
  obtain ⟨es, e, hholds, hk, rfl, rfl, rfl, hfirst⟩ := h
  rcases Nat.lt_or_ge k (2 ^ 32) with hsmall | hbig
  · -- the read with the size and offset of the entry
    have hget : ∀ f ptr mem, ({ p with data := { p.data with ptr := some ptr }, file := f }).getAt
        e.id mem = (({ p.data with ptr := some ptr }).read f e.size e.offset mem).map
          fun mem' => (e.size, mem') := by
      intro f ptr mem
      have hfind := TableStore.find_found hholds.shows hk hsmall hfirst
      simp only [getAt, show p.table.find e.id = some (some e) from hfind, Option.bind_eq_bind,
        Option.bind_some]
      cases ({ p.data with ptr := some ptr }).read f e.size e.offset mem with
      | none => rfl
      | some mem' => rfl
    rw [and_iff_left hsmall]
    constructor
    · intro h f ptr stream mem hstream
      obtain ⟨mem', hread, hinto⟩ := h f ptr stream mem hstream
      rw [hget, Option.map_eq_some_iff] at hread
      obtain ⟨mem'', hread, hmem⟩ := hread
      exact ⟨mem', (Prod.mk.inj hmem).2 ▸ hread, hinto⟩
    · intro h f ptr stream mem hstream
      obtain ⟨mem', hread, hinto⟩ := h f ptr stream mem hstream
      exact ⟨mem', by rw [hget, hread, Option.map_some], hinto⟩
  · -- the search does not end
    refine iff_of_false (fun h => ?_) (fun h => Nat.not_lt_of_le hbig h.2)
    obtain ⟨mem', hread, -⟩ := h ⟨0, fun _ => 0⟩ (fun _ => 0) (fun _ => 0) (fun _ => 0)
      ⟨fun _ _ => rfl, fun _ _ _ => rfl⟩
    have hend : p.table.find e.id = none :=
      TableStore.find_beyond hholds.shows
        (fun j e' hj he' => hfirst j e' (Nat.lt_of_lt_of_le hj hbig) he')
        (Nat.le_trans hbig (Nat.le_of_lt (List.getElem?_eq_some_iff.mp hk).1))
    simp only [getAt, hend, Option.bind_eq_bind, Option.bind_none] at hread
    exact absurd hread (by simp)

theorem readsStream_empty_iff {s : DataStore} (hpos : 0 < s.size) : s.ReadsStream 0 0 ↔
    s.writtenLen + s.head = 0 ∨ (s.ftype.hasHandle ∧ s.ftype ≠ .posixFile) := by
  constructor
  · intro h
    obtain ⟨mem', hread, -⟩ := h ⟨0, fun _ => 0⟩ (fun _ => 0) (fun _ => 0) (fun _ => 0)
      ⟨fun _ _ => rfl, fun _ _ _ => rfl⟩
    by_contra hno
    rw [read_empty hpos, if_neg hno] at hread
    exact absurd hread (by simp)
  · intro h f ptr stream mem _
    exact ⟨mem, by rw [read_empty hpos, if_pos h], fun k hk => by omega, fun z _ => rfl⟩

/-- What `Read` and `GetAt` return: the bytes of the stream exactly when they are in the file, or
follow it from the head of the ring without a wrap, or start at its end in the first cell of the
block. An entry without bytes is read from the start of the file. -/
theorem reads_stream_iff {s : DataStore} (hpos : 0 < s.size) (hb : s.tail - s.head ≤ s.size)
    (hfile : 0 < s.head → s.ftype.hasHandle) :
    (∀ len pos, 0 < len → s.writtenLen ≤ pos → pos + len ≤ s.writtenLen + s.tail →
      (s.ReadsStream len pos ↔ s.ReadsInOrder len pos) ∧
      ∀ (p : Packer) id k, p.data = s → p.StoresAt id k len pos →
        (p.GetsStream id len pos ↔ s.ReadsInOrder len pos ∧ k < 2 ^ 32)) ∧
    ∀ (p : Packer) id k, p.data = s → p.StoresAt id k 0 0 →
      (p.GetsStream id 0 0 ↔ (s.writtenLen + s.head = 0 ∨
        (s.ftype.hasHandle ∧ s.ftype ≠ .posixFile)) ∧ k < 2 ^ 32) := by
  constructor
  · intro len pos hlen hlow hhigh
    have hread : s.ReadsStream len pos ↔ s.ReadsInOrder len pos :=
      ⟨inOrder_of_readsStream hpos hb hfile hlen hlow hhigh,
        readsStream_of_inOrder hpos hb hfile hlen hlow hhigh⟩
    refine ⟨hread, ?_⟩
    rintro p id k rfl hstored
    rw [getsStream_iff hstored, hread]
  · rintro p id k rfl hstored
    rw [getsStream_iff hstored, readsStream_empty_iff hpos]

theorem bytes_read_across_file_end :
    (chunkRing chunkAlignment (chunkAlignment + 1)).ReadsStream 2 (2 * chunkAlignment - 1) :=
  (((reads_stream_iff (by decide) (by decide) (fun _ => rfl)).1 2 (2 * chunkAlignment - 1)
    (by decide) (by decide) (by decide)).1).mpr (.inr (.inl (by decide)))

theorem second_byte_read_moves_first : ¬ (chunkRing 0 2).ReadsStream 1 (chunkAlignment + 1) := by
  intro h
  have hmark : (chunkRing 0 2).Streams ⟨0, fun _ => 0⟩ (fun _ => 1) (fun _ => 1) :=
    ⟨fun i hi => absurd hi (Nat.not_lt_zero i), fun _ _ _ => rfl⟩
  obtain ⟨mem', hread, -, hframe⟩ := h _ _ _ (fun _ => 0) hmark
  have hahead : chunkAlignment + 1 =
      (chunkRing 0 2).writtenLen + (chunkRing 0 2).head + 1 := by decide
  rw [read_behind (by decide) hahead (by decide), if_neg (by decide)] at hread
  obtain rfl := Option.some.inj hread
  exact absurd (hframe (-1) (.inl (by decide))) (by decide)

end Packer

end CDRuntime
