import CDRuntime.DataStoreRead
import CDRuntime.Layout
import CDRuntime.PackerRestore
import CDRuntime.TableOps

namespace CDRuntime
open Cells Splice

structure MagicStore where
  totalSize : ℕ
  tableOffset : ℕ
  entryType : ℕ

/-- The header fills a chunk. -/
def MagicStore.layout : Layout MagicStore :=
  (((Layout.nat 8).seq ((Layout.nat 8).seq (Layout.nat 4))).padded (chunkAlignment - 20)).iso
    (fun (total, offset, type) => ⟨total, offset, type⟩)
    (fun m => (m.totalSize, m.tableOffset, m.entryType)) fun _ => rfl

def CDEntry.layout : Layout CDEntry :=
  (Layout.uint64.seq ((Layout.nat 8).seq ((Layout.nat 8).seq (Layout.nat 8)))).iso
    (fun (id, code, offset, src) => ⟨id, ⟨code⟩, offset, src⟩)
    (fun e => (e.id, e.size_.code, e.offset, e.src)) fun _ => rfl

theorem MagicStore.layout_size : MagicStore.layout.size = chunkAlignment := by decide

theorem CDEntry.layout_size : CDEntry.layout.size = Entry.sizeOf CDEntry := by decide

def kCDEntry : ℕ := 2

/-- `ReadAll(pto)`. The ring is copied in one piece, to its own place in the block. -/
def DataStore.readAll (s : DataStore) (f : FileHandle) (mem : Cells UInt8) (pto : ℕ) :
    Option (Cells UInt8) := do
  let mem ← (if s.head ≠ 0 then do
      let xs ← s.readHandle f s.head s.writtenLen
      some (copyIn mem pto xs)
    else some mem)
  if s.size = 0 then none
  else
    let ptr ← s.ptr
    let pos := s.head % s.size
    if s.size < pos + s.bufUsed then none
    else some (copyIn mem (pto + pos) (readOut ptr pos s.bufUsed))

def TableStore.read (t : TableStore CDEntry) (mem : Cells UInt8) (pto size pos : ℕ) :
    Option (Cells UInt8) := do
  if t.size = 0 then none
  else
    let i := (t.head + pos) % t.size
    let ptr ← t.ptr
    let xs ← load (CDEntry.layout.encAll ptr) (i * Entry.sizeOf CDEntry) size
    some (copyIn mem pto xs)

namespace Packer

/-- `GetTotalData(total_data_size)` into a block with the bytes `mem`; the total size is never
zero. -/
def getTotalData (p : Packer) (mem : Cells UInt8) : Option (ℕ × Cells UInt8) := do
  let tablesize := (p.table.tail - p.table.head) * Entry.sizeOf CDEntry
  let datasize := p.data.tail
  let tableOffset := datasize + MagicStore.layout.size
  let totalSize := tablesize + tableOffset
  let target := MagicStore.layout.size
  let mem := copyIn mem 0 (MagicStore.layout.enc ⟨totalSize, tableOffset, kCDEntry⟩)
  let mem ← p.data.readAll p.file mem target
  let mem ← p.table.read mem (target + datasize) tablesize 0
  some (totalSize, mem)

/-- `ReadFromMemory(chunk)`. The size of the table is a `uint32_t`, and the constructor of the
table is given the number of the entries where it asks for that of the bytes. -/
def readFromMemory (chunk : Cells UInt8) : TableStore CDEntry :=
  let magic := MagicStore.layout.dec (readOut chunk 0 MagicStore.layout.size)
  let tableSize := (magic.totalSize + 2 ^ 64 - magic.tableOffset) % 2 ^ 32
  let numEntry := tableSize / Entry.sizeOf CDEntry
  let ptable := CDEntry.layout.decAll numEntry (readOut chunk magic.tableOffset tableSize)
  TableStore.wrap 0 none (some ptable) numEntry

/-- The table read from the image has the entries in use, and under the id of a call that has it
alone it finds the size of the call and the offset of its bytes among the data. -/
def RoundTrip (p : Packer) (calls : List AddCall) (mem : Cells UInt8) : Prop :=
  ∃ total chunk, p.getTotalData mem = some (total, chunk) ∧
    (readFromMemory chunk).entries = p.table.entries ∧
    ∀ c ∈ calls, (∀ c' ∈ calls, c'.id = c.id → c' = c) →
      ∃ e, (readFromMemory chunk).find c.id = some (some e) ∧ e.size = c.len ∧
        readOut chunk (MagicStore.layout.size + (e.offset - p.data.writtenLen)) c.len = c.bytes

end Packer

namespace TableStore

variable {t t' : TableStore CDEntry} {e : CDEntry}

theorem wrap_entries (garbage : ℕ) (wild : Option (List CDEntry)) (block : List CDEntry)
    (len : ℕ) : (wrap garbage wild (some block) len).entries = some [] := by
  have hload : load block 0 0 = some [] := load_of_le (Nat.zero_le block.length)
  exact hload

theorem insert_tail (h : t.insert e = some t') : 0 < t'.tail := by
  obtain ⟨t₁, -, h⟩ := Option.bind_eq_some_iff.mp h
  obtain ⟨ptr, -, h⟩ := Option.bind_eq_some_iff.mp h
  obtain ⟨ptr', -, h⟩ := Option.bind_eq_some_iff.mp h
  exact Option.some.inj h ▸ Nat.succ_pos _

theorem reallocate_head (h : t.reallocate = some t') (hhead : t.head = 0) : t'.head = 0 := by
  unfold reallocate at h
  split at h
  · obtain ⟨used, -, h⟩ := Option.bind_eq_some_iff.mp h
    obtain ⟨newptr, -, h⟩ := Option.bind_eq_some_iff.mp h
    exact Option.some.inj h ▸ hhead
  · rename_i hnone
    have heq := Option.some.inj h
    rw [← heq, allocateTable]
    dsimp only
    rw [if_pos (by decide), hnone]

theorem insert_head (h : t.insert e = some t') (hhead : t.head = 0) : t'.head = 0 := by
  obtain ⟨t₁, hroom, h⟩ := Option.bind_eq_some_iff.mp h
  obtain ⟨ptr, -, h⟩ := Option.bind_eq_some_iff.mp h
  obtain ⟨ptr', -, h⟩ := Option.bind_eq_some_iff.mp h
  have hhead₁ : t₁.head = 0 := by
    obtain ⟨⟨grow, t₂⟩, hneed, hroom⟩ := Option.bind_eq_some_iff.mp hroom
    obtain ⟨⟨growUnit, size⟩, -, hneed⟩ := Option.bind_eq_some_iff.mp hneed
    cases hneed
    dsimp only at hroom
    split_ifs at hroom
    · exact reallocate_head hroom hhead
    · exact Option.some.inj hroom ▸ hhead
  exact Option.some.inj h ▸ hhead₁

theorem entries_length {es : List CDEntry} (h : t.entries = some es) : es.length = t.tail := by
  obtain ⟨ptr, -, hload⟩ := Option.bind_eq_some_iff.mp h
  have hle := le_of_load hload
  rw [load_of_le hle] at hload
  rw [← Option.some.inj hload, slice_length hle]

end TableStore

namespace Packer

theorem writeData_table {p p' : Packer} {offset : ℕ} {xs : List UInt8}
    (h : p.writeData xs = some (offset, p')) : p'.table = p.table := by
  obtain ⟨w, -, h⟩ := Option.bind_eq_some_iff.mp h
  cases h
  rfl

theorem call_table {p p' : Packer} {c : AddCall} (h : p.call c = some p') :
    ∃ e, p.table.insert e = some p'.table := by
  rw [call] at h
  cases hkind : c.kind with
  | add =>
      rw [hkind] at h
      obtain ⟨⟨offset, p₁⟩, hwrite, h⟩ := Option.bind_eq_some_iff.mp h
      obtain ⟨table, hinsert, h⟩ := Option.bind_eq_some_iff.mp h
      cases h
      split_ifs at hwrite
      · exact ⟨_, writeData_table hwrite ▸ hinsert⟩
      · cases hwrite
        exact ⟨_, hinsert⟩
  | addEntry offset =>
      rw [hkind] at h
      obtain ⟨⟨offset', p₁⟩, hwrite, h⟩ := Option.bind_eq_some_iff.mp h
      obtain ⟨table, hinsert, h⟩ := Option.bind_eq_some_iff.mp h
      cases h
      split_ifs at hwrite
      · exact ⟨_, writeData_table hwrite ▸ hinsert⟩
      · cases hwrite
        exact ⟨_, hinsert⟩

theorem call_tail {p p' : Packer} {c : AddCall} (h : p.call c = some p') : 0 < p'.table.tail := by
  obtain ⟨e, hinsert⟩ := call_table h
  exact TableStore.insert_tail hinsert

theorem run_tail {p₀ p : Packer} {calls : List AddCall} (hne : calls ≠ [])
    (hrun : Runs.run call p₀ calls = some p) : 0 < p.table.tail := by
  obtain ⟨front, c, rfl⟩ := (List.eq_nil_or_concat' calls).resolve_left hne
  rw [Runs.run_append] at hrun
  obtain ⟨p₁, -, hlast⟩ := Option.bind_eq_some_iff.mp hrun
  obtain ⟨p₂, hcall, hend⟩ := Option.bind_eq_some_iff.mp hlast
  exact Option.some.inj hend ▸ call_tail hcall

theorem run_head (calls : List AddCall) :
    ∀ p p' : Packer, p.table.head = 0 → Runs.run call p calls = some p' → p'.table.head = 0 := by
  induction calls with
  | nil =>
      intro p p' hhead hrun
      exact Option.some.inj hrun ▸ hhead
  | cons c calls ih =>
      intro p p' hhead hrun
      obtain ⟨p₁, hcall, hrest⟩ := Option.bind_eq_some_iff.mp hrun
      obtain ⟨e, hinsert⟩ := call_table hcall
      exact ih p₁ p' (TableStore.insert_head hinsert hhead) hrest

theorem not_roundTrip {p : Packer} (htail : 0 < p.table.tail) (calls : List AddCall)
    (mem : Cells UInt8) : ¬ RoundTrip p calls mem := by
  rintro ⟨total, chunk, -, hentries, -⟩
  rw [readFromMemory, TableStore.wrap_entries] at hentries
  have hlen := TableStore.entries_length hentries.symm
  rw [List.length_nil] at hlen
  omega

/-- Whatever a packer holds after the calls, wherever its ring stands and however much of it is in
the file, its image is not read back. -/
theorem round_trip_fails {p₀ p : Packer} {calls : List AddCall}
    (hpos : 0 < (calls.map AddCall.len).sum) (hrun : Runs.run call p₀ calls = some p)
    (mem : Cells UInt8) : ¬ RoundTrip p calls mem := by
  have hne : calls ≠ [] := by
    rintro rfl
    exact absurd hpos (by decide)
  exact not_roundTrip (run_tail hne hrun) calls mem

theorem round_trip_fails_once : ∃ p, Runs.run call tiny [byteCall 0] = some p ∧
    ¬ RoundTrip p [byteCall 0] fun _ => 0 := by
  obtain ⟨p, hrun, -⟩ := run_packed [byteCall 0] tiny [] tiny_initial.stored (by decide) (by decide)
  exact ⟨p, hrun, round_trip_fails (by decide) hrun _⟩

theorem image_not_read_back : ∃ p, Runs.run call tiny [byteCall 0, byteCall 1] = some p ∧
    ¬ RoundTrip p [byteCall 0, byteCall 1] fun _ => 0 := by
  obtain ⟨p, hrun, -⟩ := run_packed [byteCall 0, byteCall 1] tiny [] tiny_initial.stored
    (by decide) (by decide)
  exact ⟨p, hrun, not_roundTrip (run_tail (List.cons_ne_nil _ _) hrun) _ _⟩

theorem readOut_copyIn_after {m : Cells UInt8} {pos pos' n : ℕ} {xs : List UInt8}
    (h : pos' + n ≤ pos) : readOut (copyIn m pos xs) pos' n = readOut m pos' n :=
  readOut_congr fun i hi => copyIn_before m xs (by omega)

theorem readOut_copyIn_same (m : Cells UInt8) (pos : ℕ) (xs : List UInt8) :
    readOut (copyIn m pos xs) pos xs.length = xs :=
  readOut_eq fun _ _ h => copyIn_at m h

theorem table_read {t : TableStore CDEntry} {es : List CDEntry} (h : t.Holds es)
    (hhead : t.head = 0) (mem : Cells UInt8) (pto : ℕ) :
    t.read mem pto ((t.tail - t.head) * Entry.sizeOf CDEntry) 0 =
      some (copyIn mem pto (CDEntry.layout.encAll es)) := by
  obtain ⟨ptr, hptr, -, htake⟩ := h.alloc
  have hsize : ¬ t.size = 0 := by
    rw [h.bytes]
    exact Nat.ne_of_gt (Nat.mul_pos h.unit entrySize_pos)
  have hsplit : CDEntry.layout.encAll ptr =
      CDEntry.layout.encAll es ++ CDEntry.layout.encAll (ptr.drop t.tail) := by
    rw [← htake, Layout.encAll, Layout.encAll, Layout.encAll, ← List.flatMap_append,
      List.take_append_drop]
  have hlen : (CDEntry.layout.encAll es).length = (t.tail - t.head) * Entry.sizeOf CDEntry := by
    rw [Layout.encAll_length, CDEntry.layout_size, hhead, Nat.sub_zero, h.tail, Nat.mul_comm]
  have hload : load (CDEntry.layout.encAll ptr) 0 ((t.tail - t.head) * Entry.sizeOf CDEntry) =
      some (CDEntry.layout.encAll es) := by
    rw [hsplit, ← hlen, load_of_le (by rw [List.length_append]; omega), slice_zero,
      List.take_left]
  simp only [TableStore.read, if_neg hsize, hhead, Nat.add_zero, Nat.zero_mod, hptr, Nat.zero_mul,
    Option.bind_eq_bind, Option.bind_some]
  rw [hhead] at hload
  rw [hload, Option.bind_some]

theorem image_of_packed {p : Packer} {calls : List AddCall} (h : Packed p calls)
    (hhead : p.table.head = 0)
    (hfits : ∀ e ∈ layout AddCall.entry AddCall.bytes p.data.writtenLen calls,
      CDEntry.layout.Fits e)
    (hsmall : calls.length * Entry.sizeOf CDEntry < 2 ^ 32) (hdata : p.data.tail < 2 ^ 63)
    (mem : Cells UInt8) :
    ∃ total chunk, p.getTotalData mem = some (total, chunk) ∧
      readOut chunk MagicStore.layout.size p.data.tail = calls.flatMap AddCall.bytes ∧
      (readFromMemory chunk).ptr =
        some (layout AddCall.entry AddCall.bytes p.data.writtenLen calls) := by
  obtain ⟨ptr, hptr, hring⟩ := h.data.alloc
  set es := layout AddCall.entry AddCall.bytes p.data.writtenLen calls with hes
  have hcount : es.length = calls.length := layout_length _ _
  have htail : p.table.tail = es.length := h.table.tail
  set magic : MagicStore := ⟨(p.table.tail - p.table.head) * Entry.sizeOf CDEntry +
    (p.data.tail + MagicStore.layout.size), p.data.tail + MagicStore.layout.size, kCDEntry⟩
    with hmagic
  have hbytes : readOut ptr 0 p.data.bufUsed = calls.flatMap AddCall.bytes := by
    rw [DataStore.bufUsed, h.data.head, Nat.sub_zero, h.data.tail]
    apply readOut_eq
    intro i x hx
    rw [Nat.zero_add]
    exact hring i x hx
  have hreadAll : ∀ m pto, p.data.readAll p.file m pto =
      some (copyIn m pto (calls.flatMap AddCall.bytes)) := by
    intro m pto
    have hfits := h.data.fits
    have hin : ¬ p.data.size < 0 + p.data.bufUsed := by
      rw [DataStore.bufUsed]
      omega
    simp only [DataStore.readAll, h.data.head, Nat.zero_mod, if_neg hin, hptr, hbytes,
      if_neg (Nat.ne_of_gt h.data.size), ne_eq, not_true_eq_false, if_false, Nat.add_zero,
      Option.bind_eq_bind, Option.bind_some]
  set header := copyIn mem 0 (MagicStore.layout.enc magic) with hheader
  set chunk := copyIn (copyIn header MagicStore.layout.size (calls.flatMap AddCall.bytes))
    (MagicStore.layout.size + p.data.tail) (CDEntry.layout.encAll es) with hchunk
  have hlen : (MagicStore.layout.enc magic).length = MagicStore.layout.size :=
    MagicStore.layout.enc_length _
  have hms : MagicStore.layout.size = 1048576 := MagicStore.layout_size
  have htable : (p.table.tail - p.table.head) * Entry.sizeOf CDEntry < 2 ^ 32 := by
    rw [hhead, Nat.sub_zero, htail, hcount]
    exact hsmall
  have hdec : MagicStore.layout.dec (readOut chunk 0 MagicStore.layout.size) = magic := by
    have hhdr := readOut_copyIn_same mem 0 (MagicStore.layout.enc magic)
    rw [hlen] at hhdr
    rw [hchunk, readOut_copyIn_after (by omega), readOut_copyIn_after (by omega), hheader, hhdr]
    apply MagicStore.layout.dec_enc
    refine ⟨?_, ?_, show kCDEntry < 256 ^ 4 by decide⟩
    · show magic.totalSize < 256 ^ 8
      simp only [hmagic]
      omega
    · show magic.tableOffset < 256 ^ 8
      simp only [hmagic]
      omega
  have hsame : (magic.totalSize + 2 ^ 64 - magic.tableOffset) % 2 ^ 32 =
      es.length * Entry.sizeOf CDEntry := by
    rw [← htail]
    rw [hhead, Nat.sub_zero] at htable
    simp only [hmagic, hhead, Nat.sub_zero]
    omega
  have hentries : (CDEntry.layout.encAll es).length = es.length * Entry.sizeOf CDEntry := by
    rw [Layout.encAll_length, CDEntry.layout_size, Nat.mul_comm]
  refine ⟨magic.totalSize, chunk, ?_, ?_, ?_⟩
  · simp only [getTotalData, hreadAll, table_read h.table hhead, Option.bind_eq_bind,
      Option.bind_some]
    rfl
  · have hsecond := readOut_copyIn_same header MagicStore.layout.size
      (calls.flatMap AddCall.bytes)
    rw [← h.data.tail] at hsecond
    rw [hchunk, readOut_copyIn_after (Nat.le_refl _), hsecond]
  · have hthird := readOut_copyIn_same
      (copyIn header MagicStore.layout.size (calls.flatMap AddCall.bytes))
      (MagicStore.layout.size + p.data.tail) (CDEntry.layout.encAll es)
    rw [← hchunk, hentries, Nat.add_comm MagicStore.layout.size] at hthird
    have hptable : (readFromMemory chunk).ptr = some (CDEntry.layout.decAll
        ((magic.totalSize + 2 ^ 64 - magic.tableOffset) % 2 ^ 32 / Entry.sizeOf CDEntry)
        (readOut chunk magic.tableOffset
          ((magic.totalSize + 2 ^ 64 - magic.tableOffset) % 2 ^ 32))) := by
      rw [readFromMemory, hdec]
      rfl
    rw [hptable, hsame, hthird, Nat.mul_div_cancel _ entrySize_pos,
      Layout.decAll_encAll CDEntry.layout es hfits]

theorem layout_fits (calls : List AddCall) :
    ∀ off, (∀ c ∈ calls, c.len < 2 ^ 48 ∧ c.src < 2 ^ 64) →
      off + (calls.flatMap AddCall.bytes).length < 2 ^ 64 →
      ∀ e ∈ layout AddCall.entry AddCall.bytes off calls, CDEntry.layout.Fits e := by
  induction calls with
  | nil =>
      intro off _ _ e he
      cases he
  | cons c calls ih =>
      intro off hcalls hoff e he
      rw [List.flatMap_cons, List.length_append] at hoff
      rcases List.mem_cons.mp he with rfl | he
      · obtain ⟨hlen, hsrc⟩ := hcalls c List.mem_cons_self
        have hoffset : off < 256 ^ 8 := by omega
        have hcode : c.len < 256 ^ 8 := by omega
        exact ⟨c.id.toNat_lt, hcode, hoffset, hsrc⟩
      · exact ih _ (fun d hd => hcalls d (List.mem_cons_of_mem _ hd)) (by omega) e he

/-- After any sequence of calls on a fresh packer the image has the bytes of all calls one behind
the other, and the block of the table that is read from it has their entries in order. -/
theorem image_of_run {p₀ p : Packer} {calls : List AddCall} (h : Initial p₀)
    (hwf : WellFormed calls) (hsrc : ∀ c ∈ calls, c.src < 2 ^ 64)
    (hsmall : calls.length * Entry.sizeOf CDEntry < 2 ^ 32)
    (hrun : Runs.run call p₀ calls = some p) (hoffset : p.data.writtenLen + p.data.tail < 2 ^ 63)
    (mem : Cells UInt8) :
    ∃ total chunk, p.getTotalData mem = some (total, chunk) ∧
      readOut chunk MagicStore.layout.size p.data.tail = calls.flatMap AddCall.bytes ∧
      (readFromMemory chunk).ptr =
        some (layout AddCall.entry AddCall.bytes p.data.writtenLen calls) := by
  obtain ⟨p', hrun', hpacked⟩ := run_packed calls p₀ [] h.stored hwf.src hwf.len
  obtain rfl : p' = p := Option.some.inj (hrun'.symm.trans hrun)
  rw [List.nil_append] at hpacked
  have hhead : p'.table.head = 0 := by
    obtain ⟨alloc, -, htable⟩ := h.table
    refine run_head calls p₀ p' ?_ hrun
    rw [htable, TableStore.create, TableStore.allocateTable]
    dsimp only
    split_ifs <;> rfl
  have htail := hpacked.data.tail
  refine image_of_packed hpacked hhead (layout_fits calls _ (fun c hc => ?_) (by omega)) hsmall
    (by omega) mem
  exact ⟨(hwf.len c hc).2, hsrc c hc⟩

theorem image_of_two : ∃ p, Runs.run call tiny [byteCall 0, byteCall 1] = some p ∧
    ∃ total chunk, p.getTotalData (fun _ => 0) = some (total, chunk) ∧
      readOut chunk MagicStore.layout.size p.data.tail =
        [byteCall 0, byteCall 1].flatMap AddCall.bytes ∧
      (readFromMemory chunk).ptr = some
        (layout AddCall.entry AddCall.bytes p.data.writtenLen [byteCall 0, byteCall 1]) := by
  have hwf : WellFormed [byteCall 0, byteCall 1] := ⟨by decide, by decide, by decide, by decide⟩
  have hend : (Runs.run call tiny [byteCall 0, byteCall 1]).any
      (fun p => p.data.writtenLen + p.data.tail < 2 ^ 63) = true := by decide +kernel
  obtain ⟨p, hrun, -⟩ := run_packed [byteCall 0, byteCall 1] tiny [] tiny_initial.stored
    (by decide) (by decide)
  rw [hrun] at hend
  exact ⟨p, hrun, image_of_run tiny_initial hwf (by decide) (by decide) hrun
    (of_decide_eq_true hend) _⟩

end Packer

end CDRuntime
