import Mathlib.Data.List.Basic

/-!
# Sums by exclusive or

The exclusive or over a list, as a loop with an accumulator computes it, and what a
change of one element does to it: the sum keeps its value exactly if the changed
element keeps its share.
-/

namespace VeriTxn.XorFold

variable {α : Type}

theorem foldl_xor (share : α → UInt64) (res : UInt64) (xs : List α) :
    xs.foldl (fun res x => res ^^^ share x) res =
      res ^^^ xs.foldl (fun res x => res ^^^ share x) 0 := by
  induction xs generalizing res with
  | nil => simp
  | cons x xs ih =>
      rw [List.foldl_cons, List.foldl_cons, ih (res ^^^ share x), ih (0 ^^^ share x),
        UInt64.zero_xor, UInt64.xor_assoc]

/-- A list keeps its contents exactly if the changed element does. -/
theorem modify_eq_self_iff (xs : List α) (i : Nat) (f : α → α) :
    xs.modify i f = xs ↔ ∀ x, xs[i]? = some x → f x = x := by
  induction xs generalizing i with
  | nil => simp
  | cons x xs ih =>
      cases i with
      | zero => simp
      | succ i => simpa using ih i

/-- The sum keeps its value exactly if the changed element's share does. -/
theorem foldl_xor_modify_eq_iff (share : α → UInt64) (res : UInt64) (xs : List α) (i : Nat)
    (f : α → α) :
    (xs.modify i f).foldl (fun res x => res ^^^ share x) res =
        xs.foldl (fun res x => res ^^^ share x) res ↔
      ∀ x, xs[i]? = some x → share (f x) = share x := by
  induction xs generalizing i res with
  | nil => simp
  | cons x xs ih =>
      cases i with
      | zero =>
          rw [List.modify_zero_cons, List.foldl_cons, List.foldl_cons, foldl_xor, foldl_xor share
            (res ^^^ share x), UInt64.xor_left_inj, UInt64.xor_right_inj]
          simp
      | succ i =>
          rw [List.modify_succ_cons, List.foldl_cons, List.foldl_cons, ih]
          simp

/-- Two lists that differ in one place have the same sum exactly if the shares there agree. -/
theorem foldl_xor_middle_eq_iff (share : α → UInt64) (res : UInt64) (l r : List α) (x y : α) :
    (l ++ x :: r).foldl (fun res x => res ^^^ share x) res =
        (l ++ y :: r).foldl (fun res x => res ^^^ share x) res ↔
      share x = share y := by
  rw [List.foldl_append, List.foldl_append, List.foldl_cons, List.foldl_cons, foldl_xor,
    foldl_xor share (_ ^^^ share y), UInt64.xor_left_inj, UInt64.xor_right_inj]

end VeriTxn.XorFold
