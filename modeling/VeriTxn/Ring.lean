import Mathlib.Data.List.Basic

/-!
# Circular buffers addressed by position

A sequence of any length is kept in `B` cells: position `q` stands in cell `q % B`.  Positions of
one window of `B` never share a cell, so that a block written there leaves the others alone.
-/

namespace Ring

variable {α : Type}

/-- Copy `xs` to the cells from `i` on. -/
def put (buf : Nat → α) (i : Nat) (xs : List α) : Nat → α :=
  fun j => if i ≤ j then xs[j - i]?.getD (buf j) else buf j

/-- The `n` cells from `i` on. -/
def get (buf : Nat → α) (i n : Nat) : List α := (List.range n).map fun k => buf (i + k)

@[simp] theorem length_get (buf : Nat → α) (i n : Nat) : (get buf i n).length = n := by
  rw [get, List.length_map, List.length_range]

/-- Inside a block that does not wrap, cells follow one another. -/
theorem mod_add {B q k : Nat} (h : q % B + k < B) : (q + k) % B = q % B + k := by
  rw [← Nat.mod_add_mod, Nat.mod_eq_of_lt h]

/-- Two positions of one window stand in different cells. -/
theorem mod_ne {B lo q q' : Nat} (hlo : lo ≤ q) (hlo' : lo ≤ q') (hhi : q < lo + B)
    (hhi' : q' < lo + B) (hne : q ≠ q') : q % B ≠ q' % B := by
  intro heq
  have hlt : ∀ a b : Nat, lo ≤ a → b < lo + B → a < b → a % B = b % B → False := by
    intro a b ha hb hab hmod
    have hdvd : B ∣ b - a := Nat.dvd_of_mod_eq_zero (Nat.sub_mod_eq_zero_of_mod_eq hmod.symm)
    have hle := Nat.le_of_dvd (by omega) hdvd
    omega
  rcases Nat.lt_or_gt_of_ne hne with h | h
  · exact hlt q q' hlo hhi' h heq
  · exact hlt q' q hlo' hhi h heq.symm

/-- What was written is there. -/
theorem put_self {buf : Nat → α} {B q k : Nat} {xs : List α} {x : α}
    (hfit : q % B + xs.length ≤ B) (hx : xs[k]? = some x) :
    put buf (q % B) xs ((q + k) % B) = x := by
  have hk := (List.getElem?_eq_some_iff.mp hx).1
  rw [mod_add (by omega), put, if_pos (Nat.le_add_right _ _), Nat.add_sub_cancel_left, hx]
  rfl

/-- What stands elsewhere in the window stays. -/
theorem put_of_ne {buf : Nat → α} {B lo q q' : Nat} {xs : List α}
    (hfit : q % B + xs.length ≤ B) (hlo : lo ≤ q) (hhi : q + xs.length ≤ lo + B)
    (hlo' : lo ≤ q') (hhi' : q' < lo + B) (hout : q' < q ∨ q + xs.length ≤ q') :
    put buf (q % B) xs (q' % B) = buf (q' % B) := by
  unfold put
  split
  · rename_i hle
    by_cases hin : q' % B - q % B < xs.length
    · -- the cell belongs to a position of the block
      have hcell : (q + (q' % B - q % B)) % B = q' % B := by
        rw [mod_add (by omega)]
        omega
      have hlo₁ : lo ≤ q + (q' % B - q % B) := by omega
      exact absurd hcell (mod_ne hlo₁ hlo' (by omega) hhi' (by omega))
    · rw [List.getElem?_eq_none (by omega)]
      rfl
  · rfl

/-- What is read is what stands at the positions. -/
theorem getElem?_get {buf : Nat → α} {B q n k : Nat} (hfit : q % B + n ≤ B) (hk : k < n) :
    (get buf (q % B) n)[k]? = some (buf ((q + k) % B)) := by
  rw [get, List.getElem?_map, List.getElem?_range hk, mod_add (by omega)]
  rfl

end Ring
