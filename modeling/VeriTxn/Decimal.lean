import VeriTxn.Bytes
import Mathlib.Data.List.TakeWhile
import Mathlib.Data.Nat.Digits.Defs

/-!
# Numbers as decimal strings

`std::to_string` of an unsigned number, and `std::stoull`, which skips blanks, takes a sign, reads
digits as far as there are any, and refuses a string without digits or a number of more than 64
bits.
-/

namespace Decimal

open Bytes

/-- `'0'` -/
def zero : Byte := 48

def isDigit (c : Byte) : Bool := 48 ≤ c && c ≤ 57

def isSpace (c : Byte) : Bool := c = 32 || (9 ≤ c && c ≤ 13)

def digit (d : Nat) : Byte := UInt8.ofNat (d + 48)

/-- `std::to_string` -/
def toDecimal (n : Nat) : List Byte :=
  if n = 0 then [zero] else (Nat.digits 10 n).reverse.map digit

/-- The number that a string of digits writes. -/
def value (s : List Byte) : Nat := s.foldl (fun v c => v * 10 + (c.toNat - 48)) 0

/-- `std::stoull`; `none` when it throws. -/
def stoull (s : List Byte) : Option Nat :=
  let s := s.dropWhile isSpace
  let (negative, s) :=
    match s with
    | 43 :: rest => (false, rest)
    | 45 :: rest => (true, rest)
    | _ => (false, s)
  let digits := s.takeWhile isDigit
  if digits = [] then none
  else if value digits ≥ 2 ^ 64 then none
  else some (if negative then (2 ^ 64 - value digits) % 2 ^ 64 else value digits)

theorem toNat_digit {d : Nat} (h : d < 10) : (digit d).toNat = d + 48 := by
  rw [digit, UInt8.toNat_ofNat']
  omega

theorem isDigit_digit {d : Nat} (h : d < 10) : isDigit (digit d) = true := by
  have hvalue := toNat_digit h
  simp only [isDigit, Bool.and_eq_true, decide_eq_true_eq, UInt8.le_iff_toNat_le]
  have hlow : (48 : UInt8).toNat = 48 := rfl
  have hhigh : (57 : UInt8).toNat = 57 := rfl
  omega

theorem isDigit_toDecimal (n : Nat) : ∀ c ∈ toDecimal n, isDigit c = true := by
  intro c hc
  unfold toDecimal at hc
  split at hc
  · rw [List.mem_singleton.mp hc]
    rfl
  · obtain ⟨d, hd, rfl⟩ := List.mem_map.mp hc
    exact isDigit_digit (Nat.digits_lt_base (by decide) (List.mem_reverse.mp hd))

theorem toDecimal_ne_nil (n : Nat) : toDecimal n ≠ [] := by
  unfold toDecimal
  split
  · exact List.cons_ne_nil _ _
  · rename_i hn
    simp [Nat.digits_ne_nil_iff_ne_zero.mpr hn]

theorem value_map_digit {ds : List Nat} (h : ∀ d ∈ ds, d < 10) :
    value (ds.reverse.map digit) = Nat.ofDigits 10 ds := by
  induction ds with
  | nil => rfl
  | cons d ds ih =>
      have hd := h d (List.mem_cons_self ..)
      have hrest := ih fun d' hd' => h d' (List.mem_cons_of_mem d hd')
      rw [List.reverse_cons, List.map_append, value, List.foldl_append]
      rw [value] at hrest
      rw [hrest]
      simp only [List.map_cons, List.map_nil, List.foldl_cons, List.foldl_nil, toNat_digit hd,
        Nat.ofDigits_cons]
      omega

theorem value_toDecimal (n : Nat) : value (toDecimal n) = n := by
  unfold toDecimal
  split
  · rename_i hn
    rw [hn]
    rfl
  · rw [value_map_digit fun d hd => Nat.digits_lt_base (by decide) hd]
    exact Nat.ofDigits_digits 10 n

theorem stoull_of_digits {s : List Byte} (hne : s ≠ []) (hdigits : ∀ c ∈ s, isDigit c = true)
    (hsmall : value s < 2 ^ 64) : stoull s = some (value s) := by
  obtain ⟨c, rest, rfl⟩ := List.exists_cons_of_ne_nil hne
  have hc := hdigits c (List.mem_cons_self ..)
  have hsign : c ≠ 43 ∧ c ≠ 45 := by
    constructor
    · rintro rfl
      cases hc
    · rintro rfl
      cases hc
  have hspace : (c :: rest).dropWhile isSpace = c :: rest := by
    refine List.dropWhile_cons_of_neg ?_
    simp only [isDigit, Bool.and_eq_true, decide_eq_true_eq, UInt8.le_iff_toNat_le] at hc
    simp only [isSpace, Bool.or_eq_true, Bool.and_eq_true, decide_eq_true_eq,
      UInt8.le_iff_toNat_le, ← UInt8.toNat_inj]
    have hlow : (48 : UInt8).toNat = 48 := rfl
    have hblank : (32 : UInt8).toNat = 32 := rfl
    have hhigh : (13 : UInt8).toNat = 13 := rfl
    omega
  have hall : (c :: rest).takeWhile isDigit = c :: rest := List.takeWhile_eq_self_iff.mpr hdigits
  unfold stoull
  simp only [hspace]
  split
  next heq => exact absurd (List.cons.inj heq).1 hsign.1
  next heq => exact absurd (List.cons.inj heq).1 hsign.2
  next =>
    simp only [hall]
    rw [if_neg hne, if_neg (by omega)]
    rfl

/-- A number of 64 bits is read back. -/
theorem stoull_toDecimal {n : Nat} (h : n < 2 ^ 64) : stoull (toDecimal n) = some n := by
  have hvalue := value_toDecimal n
  rw [stoull_of_digits (toDecimal_ne_nil n) (isDigit_toDecimal n) (by omega), hvalue]

end Decimal
