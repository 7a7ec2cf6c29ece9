import Mathlib.Data.List.Basic

namespace CDRuntime.YamlBlocks

inductive Event where
  | seqStart | seqEnd | mapStart | mapEnd
  | scalar (text : List Char)
  deriving DecidableEq, Repr

/-- A line that starts at a column, with or without the dash of an item, and holds a key and
perhaps its value. -/
structure Line where
  indent : ℕ
  dash : Bool
  key : List Char
  value : Option (List Char)
  deriving DecidableEq, Repr

/-- What a reader of blocks finds: the events of a block and the lines behind it. -/
abbrev Reader := List Line → Option (List Event × List Line)

def parseBlock (items keys : ℕ → Reader) : Reader
  | [] => some ([.scalar []], [])
  | l :: ls =>
      if l.dash = true then do
        let (es, rest) ← items l.indent (l :: ls)
        return (.seqStart :: es ++ [.seqEnd], rest)
      else do
        let (es, rest) ← keys l.indent (l :: ls)
        return (.mapStart :: es ++ [.mapEnd], rest)

/-- The value of a key at column `c`.  Behind a key without one a deeper block may follow; a
sequence may also start at the column of the key. -/
def parseValue (items keys : ℕ → Reader) (c : ℕ) : Option (List Char) → Reader
  | some v, ls => some ([.scalar v], ls)
  | none, [] => some ([.scalar []], [])
  | none, l :: ls =>
      if c < l.indent ∨ c = l.indent ∧ l.dash = true then parseBlock items keys (l :: ls)
      else some ([.scalar []], l :: ls)

mutual

/-- The items of a block sequence at column `c`.  What stands behind the dash of an item is a
mapping, whose first key starts two columns further. -/
def parseItems : ℕ → ℕ → Reader
  | 0, _, _ => none
  | _ + 1, _, [] => some ([], [])
  | fuel + 1, c, l :: ls =>
      if l.indent = c ∧ l.dash = true then do
        let (es, rest) ← parseKeys fuel (c + 2) ({ l with indent := c + 2, dash := false } :: ls)
        let (items, rest) ← parseItems fuel c rest
        return (.mapStart :: es ++ .mapEnd :: items, rest)
      else some ([], l :: ls)

def parseKeys : ℕ → ℕ → Reader
  | 0, _, _ => none
  | _ + 1, _, [] => some ([], [])
  | fuel + 1, c, l :: ls =>
      if l.indent = c ∧ l.dash = false then do
        let (es, rest) ← parseValue (parseItems fuel) (parseKeys fuel) c l.value ls
        let (keys, rest) ← parseKeys fuel c rest
        return (.scalar l.key :: es ++ keys, rest)
      else some ([], l :: ls)

end

/-- The events of a document of one block; a line that belongs to no open block is an error. -/
def blockEvents : List Line → Option (List Event)
  | [] => some []
  | l :: ls =>
      let fuel := 2 * (l :: ls).length + 1
      match parseBlock (parseItems fuel) (parseKeys fuel) (l :: ls) with
      | some (es, []) => some es
      | _ => none

section Steps

variable {fuel c : ℕ} {l : Line} {ls : List Line}

def StopsItems (c : ℕ) (ls : List Line) : Prop :=
  ∀ l ∈ ls.head?, ¬ (l.indent = c ∧ l.dash = true)

def StopsKeys (c : ℕ) (ls : List Line) : Prop :=
  ∀ l ∈ ls.head?, ¬ (l.indent = c ∧ l.dash = false)

theorem parseItems_stop (fuel : ℕ) (h : StopsItems c ls) : parseItems (fuel + 1) c ls = some ([], ls) := by
  cases ls with
  | nil => rfl
  | cons l ls =>
      rw [parseItems]
      exact if_neg (h l rfl)

theorem parseKeys_stop (fuel : ℕ) (h : StopsKeys c ls) : parseKeys (fuel + 1) c ls = some ([], ls) := by
  cases ls with
  | nil => rfl
  | cons l ls =>
      rw [parseKeys]
      exact if_neg (h l rfl)

theorem parseItems_item (key : List Char) {v : Option (List Char)} {es items : List Event}
    {rest rest' : List Line}
    (hkeys : parseKeys fuel (c + 2) (⟨c + 2, false, key, v⟩ :: ls) = some (es, rest))
    (hitems : parseItems fuel c rest = some (items, rest')) :
    parseItems (fuel + 1) c (⟨c, true, key, v⟩ :: ls) =
      some (.mapStart :: es ++ .mapEnd :: items, rest') := by
  rw [parseItems, if_pos ⟨rfl, rfl⟩]
  dsimp only
  rw [hkeys, Option.bind_eq_bind, Option.bind_some]
  dsimp only
  rw [hitems]
  rfl

theorem parseKeys_scalar (key value : List Char) {keys : List Event} {rest : List Line}
    (h : parseKeys fuel c ls = some (keys, rest)) :
    parseKeys (fuel + 1) c (⟨c, false, key, some value⟩ :: ls) =
      some (.scalar key :: .scalar value :: keys, rest) := by
  rw [parseKeys, if_pos ⟨rfl, rfl⟩, parseValue, Option.bind_eq_bind, Option.bind_some]
  dsimp only
  rw [h]
  rfl

theorem parseKeys_items (key : List Char) {es keys : List Event} {rest rest' : List Line}
    (hcolumn : l.indent = c) (hdash : l.dash = true) (hitems : parseItems fuel c (l :: ls) = some (es, rest))
    (hkeys : parseKeys fuel c rest = some (keys, rest')) :
    parseKeys (fuel + 1) c (⟨c, false, key, none⟩ :: l :: ls) =
      some (.scalar key :: (.seqStart :: es ++ [.seqEnd]) ++ keys, rest') := by
  have hvalue : parseValue (parseItems fuel) (parseKeys fuel) c none (l :: ls) =
      some (.seqStart :: es ++ [.seqEnd], rest) := by
    rw [parseValue, if_pos (.inr ⟨hcolumn.symm, hdash⟩), parseBlock, if_pos hdash, hcolumn, hitems]
    rfl
  rw [parseKeys, if_pos ⟨rfl, rfl⟩]
  dsimp only
  rw [hvalue, Option.bind_eq_bind, Option.bind_some]
  dsimp only
  rw [hkeys]
  rfl

theorem blockEvents_items (hdash : l.dash = true) {es : List Event} {rest : List Line}
    (h : parseItems (2 * (l :: ls).length + 1) l.indent (l :: ls) = some (es, rest)) :
    blockEvents (l :: ls) =
      match rest with
      | [] => some (.seqStart :: es ++ [.seqEnd])
      | _ :: _ => none := by
  have hblock : parseBlock (parseItems (2 * (l :: ls).length + 1))
      (parseKeys (2 * (l :: ls).length + 1)) (l :: ls) =
        some (.seqStart :: es ++ [.seqEnd], rest) := by
    rw [parseBlock, if_pos hdash, h]
    rfl
  rw [blockEvents, hblock]
  cases rest <;> rfl

end Steps

end CDRuntime.YamlBlocks
