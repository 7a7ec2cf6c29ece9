import CDRuntime.PreserveLog

namespace CDRuntime.Preserve
open Cells Packer TableStore Loop32

def giveMembers (old : Cells UInt8) (members : List Member) (mem : Cells UInt8) : Cells UInt8 :=
  members.foldl (fun mem m => copyIn mem m.data (readOut old m.data m.len)) mem

def Call.give (c : Call) (old mem : Cells UInt8) : Cells UInt8 :=
  if c.serdes then giveMembers old c.members mem else copyIn mem c.data (readOut old c.data c.len)

/-- The first entry of each member has the data that it has in `mem`. -/
def Log.Fresh (log : Log) (members : List Member) (mem : Cells UInt8) : Prop :=
  ∀ m ∈ members, ∃ remote array old,
    log.items.find? (fun it => it.id = m.id) = some (.plain m.id remote array m.data m.len old) ∧
      readOut old m.data m.len = readOut mem m.data m.len

/-- An item that a call can be restored from. -/
def Log.Suits (log : Log) (c : Call) : Item → Prop
  | .plain _ _ _ src len _ => c.serdes = false ∧ src = c.data ∧ len = c.len
  | .refer .. => False
  | .object _ _ members mem _ _ => c.serdes = true ∧ members = c.members ∧ log.Fresh members mem

/-- The enclosing CDs have the data of a call under a tag. -/
def Outer.Has (outer : Outer) (tag : UInt64) (c : Call) : Prop :=
  ∃ e lv, outer tag = some (e, lv) ∧
    if c.serdes then ∀ mem, (deserialize lv mem c.members).isSome
    else e.src = c.data ∧ e.size = c.len ∧ (lv.getData c.len e.offset).isSome

def Outer.give (outer : Outer) (tag : UInt64) (c : Call) (mem : Cells UInt8) :
    Option (Cells UInt8) :=
  (outer tag).bind fun (e, lv) =>
    if c.serdes then deserialize lv mem c.members
    else (lv.getData c.len e.offset).map (copyIn mem c.data)

section Restore

variable {hash : String → UInt64} {outer : Outer} {base a : ℕ}

theorem restoreMember_spec {dir : Packer} {items : List Item} (h : Kept base a dir items)
    (hsmall : items.length < 2 ^ 32) {m : Member} (hdata : m.data ≠ 0) (hlen : m.len < 2 ^ 48)
    {remote array : Bool} {old : Cells UInt8}
    (hfirst : items.find? (fun it => it.id = m.id) =
      some (.plain m.id remote array m.data m.len old)) (mem : Cells UInt8) :
    ∃ e, dir.restore mem m.id m.data m.len =
      some (some e, copyIn mem m.data (readOut old m.data m.len)) := by
  obtain ⟨-, pre, post, hitems, hpre⟩ := List.find?_eq_some_iff_append.mp hfirst
  have hstored := h.stored
  rw [hitems] at hstored hsmall
  have hne : ∀ it' ∈ pre, it'.id ≠ (Item.plain m.id remote array m.data m.len old).id := by
    intro it' hit'
    exact of_decide_eq_false (Bool.not_eq_true' _ |>.mp (hpre it' hit'))
  have hfind := find_first hstored hne
    (by rw [List.length_append] at hsmall; omega)
  have hread := entry_reads hstored
  set e := (Item.plain m.id remote array m.data m.len old).entry
    (dir.data.writtenLen + (pre.flatMap Item.bytes).length) with he
  have hsrc : e.src = m.data := rfl
  have hsize : e.size = m.len := Item.entry_size hlen
  have hnested : e.size_.check Attr.knested = false := Item.not_nested _ _ _ _ _ _ _
  refine ⟨e, ?_⟩
  rw [Packer.restore, show m.id = (Item.plain m.id remote array m.data m.len old).id from rfl,
    hfind]
  simp only [Option.bind_eq_bind, Option.bind_some, hsrc, hsize, hnested, if_neg hdata]
  by_cases h0 : m.len = 0
  · have hnil : copyIn mem m.data (readOut old m.data 0) = mem := by
      funext i
      apply copyIn_off
      rw [readOut_length]
      omega
    rw [if_pos (Or.inr h0), h0, hnil]
  · rw [if_neg (not_or.mpr ⟨hdata, h0⟩), if_pos h0, hread]
    rfl

theorem deserialize_spec {dir : Packer} {log : Log} (h : Kept base a dir log.items)
    (hsmall : log.items.length < 2 ^ 32) {old : Cells UInt8} (members : List Member) :
    ∀ mem : Cells UInt8, (∀ m ∈ members, m.data ≠ 0 ∧ m.len < 2 ^ 48) → log.Fresh members old →
      deserialize (.own dir) mem members = some (giveMembers old members mem) := by
  induction members with
  | nil => exact fun mem _ _ => rfl
  | cons m members ih =>
      intro mem hm hfresh
      obtain ⟨⟨hdata, hlen⟩, hrest⟩ := List.forall_mem_cons.mp hm
      obtain ⟨⟨remote, array, old', hfirst, hsame⟩, hfresh'⟩ := List.forall_mem_cons.mp hfresh
      obtain ⟨e, hrestore⟩ := restoreMember_spec h hsmall hdata hlen hfirst mem
      rw [hsame] at hrestore
      rw [deserialize, Level.own]
      simp only [hrestore, Option.bind_eq_bind, Option.bind_some]
      exact ih _ hrest hfresh'

/-- A directory that `RestoreAll` can read: its index has 32 bits, and every array goes into the
same object. -/
structure Log.Readable (log : Log) : Prop where
  count : log.items.length < 2 ^ 32
  arrays : ∀ it ∈ log.items, it.isArray → it.size ≤ sizeofInternal

end Restore

end CDRuntime.Preserve
