import Mathlib.Algebra.Group.Int.Defs
import Mathlib.Algebra.Group.Nat.Defs
import Mathlib.Data.List.TakeWhile

namespace CDRuntime.ConfigText

/-- `%lu` and `%u`. -/
def printNat (n : ℕ) : List Char :=
  Nat.toDigits 10 n

/-- `%ld`. -/
def printInt : ℤ → List Char
  | .ofNat n => printNat n
  | .negSucc n => '-' :: printNat (n + 1)

def printHex (i : ℤ) : List Char :=
  (Nat.toDigits 16 (i % 2 ^ 64).toNat).map Char.toUpper

def digits (cs : List Char) : ℕ :=
  Nat.ofDigitChars 10 (cs.takeWhile Char.isDigit) 0

def atol (cs : List Char) : ℤ :=
  match cs.dropWhile Char.isWhitespace with
  | '-' :: ds => -(digits ds : ℤ)
  | '+' :: ds => digits ds
  | ds => digits ds

def hexDigit? (c : Char) : Option ℕ :=
  if '0' ≤ c ∧ c ≤ '9' then some (c.toNat - 48)
  else if 'a' ≤ c ∧ c ≤ 'f' then some (c.toNat - 87)
  else if 'A' ≤ c ∧ c ≤ 'F' then some (c.toNat - 55)
  else none

/-- The value of the longest leading run of hexadecimal digits. -/
def hexDigits : ℕ → List Char → ℕ
  | acc, [] => acc
  | acc, c :: cs =>
      match hexDigit? c with
      | some d => hexDigits (16 * acc + d) cs
      | none => acc

def stripHex : List Char → List Char
  | '0' :: 'x' :: cs => cs
  | '0' :: 'X' :: cs => cs
  | cs => cs

/-- `strtol(_, NULL, 16)`, with `LONG_MAX` and `LONG_MIN` for what does not fit. -/
def strtol16 (cs : List Char) : ℤ :=
  match cs.dropWhile Char.isWhitespace with
  | '-' :: ds => max (-(hexDigits 0 (stripHex ds) : ℤ)) (-(2 ^ 63))
  | '+' :: ds => min (hexDigits 0 (stripHex ds) : ℤ) (2 ^ 63 - 1)
  | ds => min (hexDigits 0 (stripHex ds) : ℤ) (2 ^ 63 - 1)

/-- `strtok(_, "_")`: the next token and what is left. -/
def strtok (cs : List Char) : List Char × List Char :=
  let cs := cs.dropWhile (· == '_')
  (cs.takeWhile (· != '_'), cs.dropWhile (· != '_'))

theorem isDigit_of_mem_printNat {n : ℕ} {c : Char} (h : c ∈ printNat n) : c.isDigit = true :=
  Nat.isDigit_of_mem_toDigits (by decide) (by decide) h

theorem printNat_ne_nil (n : ℕ) : printNat n ≠ [] :=
  Nat.toDigits_ne_nil

theorem digits_printNat (n : ℕ) : digits (printNat n) = n := by
  unfold digits
  rw [List.takeWhile_eq_self_iff.mpr fun c hc => isDigit_of_mem_printNat hc]
  exact Nat.ofDigitChars_ten_toDigits

theorem digit_facts {c : Char} (h : c.isDigit = true) :
    c.isWhitespace = false ∧ c ≠ '-' ∧ c ≠ '+' ∧ c ≠ '_' ∧ c ≠ 'x' ∧ c ≠ 'X' := by
  refine ⟨?_, ?_, ?_, ?_, ?_, ?_⟩
  · cases hw : c.isWhitespace with
    | false => rfl
    | true =>
        simp only [Char.isWhitespace, Bool.or_eq_true, decide_eq_true_eq] at hw
        obtain ((rfl | rfl) | rfl) | rfl := hw <;> exact absurd h (by decide)
  all_goals
    rintro rfl
    exact absurd h (by decide)

theorem atol_of_digits {ds : List Char} (hne : ds ≠ []) (h : ∀ c ∈ ds, c.isDigit = true) :
    atol ds = digits ds := by
  obtain ⟨c, cs, rfl⟩ := List.exists_cons_of_ne_nil hne
  obtain ⟨hw, hminus, hplus, -⟩ := digit_facts (h c List.mem_cons_self)
  unfold atol
  rw [List.dropWhile_cons_of_neg (by simp [hw])]
  split
  · rename_i heq
    exact absurd (List.cons.inj heq).1 hminus
  · rename_i heq
    exact absurd (List.cons.inj heq).1 hplus
  · rfl

@[simp] theorem atol_printInt (i : ℤ) : atol (printInt i) = i := by
  cases i with
  | ofNat n =>
      rw [printInt, atol_of_digits (printNat_ne_nil n) fun c hc => isDigit_of_mem_printNat hc,
        digits_printNat]
      rfl
  | negSucc n =>
      have h : atol ('-' :: printNat (n + 1)) = -(digits (printNat (n + 1)) : ℤ) := rfl
      rw [printInt, h, digits_printNat]
      rfl

theorem atol_printNat (n : ℕ) : atol (printNat n) = n := by
  rw [atol_of_digits (printNat_ne_nil n) fun c hc => isDigit_of_mem_printNat hc, digits_printNat]

theorem hexDigit?_digitChar : ∀ d < 16, hexDigit? (Nat.digitChar d).toUpper = some d := by
  decide

theorem hexDigits_append (ds : List ℕ) (hds : ∀ d ∈ ds, d < 16) :
    ∀ acc, hexDigits acc (ds.map fun d => (Nat.digitChar d).toUpper) =
      ds.foldl (fun a d => 16 * a + d) acc := by
  induction ds with
  | nil => intro acc; rfl
  | cons d ds ih =>
      intro acc
      rw [List.map_cons, hexDigits, hexDigit?_digitChar d (hds d List.mem_cons_self)]
      exact ih (fun e he => hds e (List.mem_cons_of_mem d he)) _

theorem exists_digits (n : ℕ) : ∃ ds : List ℕ, (∀ d ∈ ds, d < 16) ∧ ds ≠ [] ∧
    Nat.toDigits 16 n = ds.map Nat.digitChar ∧ ds.foldl (fun a d => 16 * a + d) 0 = n := by
  induction n using Nat.strongRecOn with
  | ind n ih =>
      by_cases hn : n < 16
      · refine ⟨[n], by simpa using hn, by simp, ?_, by simp⟩
        rw [Nat.toDigits_of_lt_base hn]
        rfl
      · obtain ⟨ds, hds, hne, hdigits, hvalue⟩ := ih (n / 16) (by omega)
        refine ⟨ds ++ [n % 16], ?_, by simp, ?_, ?_⟩
        · intro d hd
          obtain hd | hd := List.mem_append.mp hd
          · exact hds d hd
          · rw [List.mem_singleton.mp hd]
            omega
        · rw [Nat.toDigits_of_base_le (by decide) (by omega), hdigits, List.map_append]
          rfl
        · rw [List.foldl_append, hvalue]
          simp
          omega

theorem strtol16_printHex (i : ℤ) : strtol16 ('0' :: 'x' :: printHex i) =
    min (i % 2 ^ 64) (2 ^ 63 - 1) := by
  obtain ⟨ds, hds, -, hdigits, hvalue⟩ := exists_digits (i % 2 ^ 64).toNat
  have hhex : hexDigits 0 (printHex i) = (i % 2 ^ 64).toNat := by
    rw [printHex, hdigits, List.map_map]
    exact (hexDigits_append ds hds 0).trans hvalue
  have h : strtol16 ('0' :: 'x' :: printHex i) =
      min (hexDigits 0 (printHex i) : ℤ) (2 ^ 63 - 1) := rfl
  rw [h, hhex, Int.toNat_of_nonneg (by omega)]

theorem strtol16_printHex_iff {i : ℤ} (hlow : -2 ^ 63 ≤ i) (hhigh : i < 2 ^ 63) :
    strtol16 ('0' :: 'x' :: printHex i) = i ↔ 0 ≤ i := by
  rw [strtol16_printHex]
  omega

theorem strtok_token {us ds rest : List Char} (hus : ∀ c ∈ us, c = '_') (hne : ds ≠ [])
    (hds : ∀ c ∈ ds, c ≠ '_') (hrest : rest = [] ∨ ∃ r, rest = '_' :: r) :
    strtok (us ++ (ds ++ rest)) = (ds, rest) := by
  have hskip : (us ++ (ds ++ rest)).dropWhile (· == '_') = ds ++ rest := by
    obtain ⟨d, ds', rfl⟩ := List.exists_cons_of_ne_nil hne
    rw [List.dropWhile_append_of_pos fun c hc => by simp [hus c hc], List.cons_append,
      List.dropWhile_cons_of_neg (by simp [hds d List.mem_cons_self])]
  have hpos : ∀ c ∈ ds, (c != '_') = true := fun c hc => by simp [hds c hc]
  unfold strtok
  dsimp only
  rw [hskip, List.takeWhile_append_of_pos hpos, List.dropWhile_append_of_pos hpos]
  obtain rfl | ⟨r, rfl⟩ := hrest
  · simp
  · simp

theorem strtok_number (n : ℕ) {rest : List Char} (hrest : rest = [] ∨ ∃ r, rest = '_' :: r) :
    strtok ('_' :: (printNat n ++ rest)) = (printNat n, rest) := by
  have h : strtok (['_'] ++ (printNat n ++ rest)) = (printNat n, rest) := by
    apply strtok_token (by simp) (printNat_ne_nil n) _ hrest
    intro c hc
    exact (digit_facts (isDigit_of_mem_printNat hc)).2.2.2.1
  exact h

end CDRuntime.ConfigText
