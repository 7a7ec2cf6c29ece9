import Mathlib.Algebra.Group.Nat.Defs
import Mathlib.Data.List.Basic

namespace CDRuntime

/-- The bytes of a value of fixed size, as on a little-endian machine. `Fits` says that the value
is one of the C type. -/
structure Layout (α : Type*) where
  size : ℕ
  enc : α → List UInt8
  dec : List UInt8 → α
  Fits : α → Prop
  enc_length : ∀ a, (enc a).length = size
  dec_enc : ∀ a, Fits a → dec (enc a) = a

namespace Layout

/-- The low `k` bytes of `n`, least significant first. -/
def leBytes : ℕ → ℕ → List UInt8
  | 0, _ => []
  | k + 1, n => UInt8.ofNat (n % 256) :: leBytes k (n / 256)

def leNat : List UInt8 → ℕ
  | [] => 0
  | b :: bs => b.toNat + 256 * leNat bs

theorem leBytes_length (k : ℕ) : ∀ n, (leBytes k n).length = k := by
  induction k with
  | zero => intro n; rfl
  | succ k ih => intro n; rw [leBytes, List.length_cons, ih]

theorem leNat_leBytes (k : ℕ) : ∀ n, n < 256 ^ k → leNat (leBytes k n) = n := by
  induction k with
  | zero =>
      intro n hn
      rw [Nat.pow_zero, Nat.lt_one_iff] at hn
      rw [hn]
      rfl
  | succ k ih =>
      intro n hn
      have hq : n / 256 < 256 ^ k := by
        rw [Nat.div_lt_iff_lt_mul (by decide), ← Nat.pow_succ]
        exact hn
      have hb : (UInt8.ofNat (n % 256)).toNat = n % 256 := by
        rw [UInt8.toNat_ofNat']
        omega
      rw [leBytes, leNat, ih _ hq, hb]
      omega

def nat (k : ℕ) : Layout ℕ where
  size := k
  enc := leBytes k
  dec := leNat
  Fits n := n < 256 ^ k
  enc_length := leBytes_length k
  dec_enc := leNat_leBytes k

theorem nat_fits_of_lt {k n : ℕ} (hk : 0 < k) (hn : n < 256) : (nat k).Fits n := by
  change n < 256 ^ k
  exact Nat.lt_of_lt_of_le hn (Nat.le_self_pow (by omega) 256)

def iso {α β : Type*} (l : Layout α) (f : α → β) (g : β → α) (h : ∀ b, f (g b) = b) : Layout β where
  size := l.size
  enc b := l.enc (g b)
  dec bs := f (l.dec bs)
  Fits b := l.Fits (g b)
  enc_length b := l.enc_length (g b)
  dec_enc b hb := by rw [l.dec_enc _ hb, h]

def seq {α β : Type*} (l : Layout α) (r : Layout β) : Layout (α × β) where
  size := l.size + r.size
  enc p := l.enc p.1 ++ r.enc p.2
  dec bs := (l.dec (bs.take l.size), r.dec (bs.drop l.size))
  Fits p := l.Fits p.1 ∧ r.Fits p.2
  enc_length p := by rw [List.length_append, l.enc_length, r.enc_length]
  dec_enc p hp := by
    have hl := l.enc_length p.1
    rw [List.take_left' hl, List.drop_left' hl, l.dec_enc _ hp.1, r.dec_enc _ hp.2]

/-- A member followed by `n` bytes that are never looked at. -/
def padded {α : Type*} (l : Layout α) (n : ℕ) : Layout α where
  size := l.size + n
  enc a := l.enc a ++ List.replicate n 0
  dec bs := l.dec (bs.take l.size)
  Fits := l.Fits
  enc_length a := by rw [List.length_append, l.enc_length, List.length_replicate]
  dec_enc a ha := by rw [List.take_left' (l.enc_length a), l.dec_enc a ha]

/-- A member behind `n` bytes that are never looked at. -/
def behind {α : Type*} (n : ℕ) (l : Layout α) : Layout α where
  size := n + l.size
  enc a := List.replicate n 0 ++ l.enc a
  dec bs := l.dec (bs.drop n)
  Fits := l.Fits
  enc_length a := by rw [List.length_append, l.enc_length, List.length_replicate]
  dec_enc a ha := by rw [List.drop_left' List.length_replicate, l.dec_enc a ha]

def bool : Layout Bool :=
  (nat 1).iso (fun n => decide (n ≠ 0)) (fun b => if b then 1 else 0) (by decide)

def uint32 : Layout UInt32 := (nat 4).iso UInt32.ofNat UInt32.toNat fun _ => UInt32.ofNat_toNat

def uint64 : Layout UInt64 := (nat 8).iso UInt64.ofNat UInt64.toNat fun _ => UInt64.ofNat_toNat

def int32 : Layout Int32 := uint32.iso UInt32.toInt32 Int32.toUInt32 Int32.toInt32_toUInt32

theorem bool_fits (b : Bool) : bool.Fits b := by
  change (if b then 1 else 0) < 256 ^ 1
  cases b <;> decide

theorem uint32_fits (n : UInt32) : uint32.Fits n := n.toNat_lt

theorem uint64_fits (n : UInt64) : uint64.Fits n := n.toNat_lt

theorem int32_fits (n : Int32) : int32.Fits n := uint32_fits n.toUInt32

def encAll {α : Type*} (l : Layout α) (as : List α) : List UInt8 := as.flatMap l.enc

/-- `n` elements read from the start of `bs`. -/
def decAll {α : Type*} (l : Layout α) : ℕ → List UInt8 → List α
  | 0, _ => []
  | n + 1, bs => l.dec (bs.take l.size) :: decAll l n (bs.drop l.size)

theorem encAll_length {α : Type*} (l : Layout α) (as : List α) :
    (l.encAll as).length = l.size * as.length := by
  induction as with
  | nil => rfl
  | cons a as ih =>
      rw [encAll, List.flatMap_cons, List.length_append, l.enc_length, ← encAll, ih,
        List.length_cons, Nat.mul_succ, Nat.add_comm]

theorem encAll_split {α : Type*} (l : Layout α) (as bs : List α) (a : α) :
    l.encAll (as ++ a :: bs) = l.encAll as ++ (l.enc a ++ l.encAll bs) := by
  simp only [encAll, List.flatMap_append, List.flatMap_cons]

theorem decAll_encAll {α : Type*} (l : Layout α) (as : List α) (h : ∀ a ∈ as, l.Fits a) :
    l.decAll as.length (l.encAll as) = as := by
  induction as with
  | nil => rfl
  | cons a as ih =>
      have hl := l.enc_length a
      rw [List.length_cons, decAll, encAll, List.flatMap_cons, List.take_left' hl,
        List.drop_left' hl, l.dec_enc a (h a List.mem_cons_self), ← encAll,
        ih fun x hx => h x (List.mem_cons_of_mem _ hx)]

end Layout

end CDRuntime
