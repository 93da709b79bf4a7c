import Mathlib.Data.List.Induction
import Mathlib.Logic.Function.Basic

/-!
# Lists kept in an array by shifting

An array is a function from positions; an unset position is `none`.  A list stands in its
first positions.  Three loops keep it there: insertion from the back, which moves up what is to
come behind the new element, removal of the first element, and removal of an element that is
looked for on the way.
-/

namespace Shifts

variable {α : Type}

/-- The list `l` stands in the positions from `i` on. -/
def HoldsAt (a : Nat → Option α) (i : Nat) (l : List α) : Prop := ∀ k < l.length, a (i + k) = l[k]?

/-- The list `l` stands in the first positions. -/
abbrev Holds (a : Nat → Option α) (l : List α) : Prop := HoldsAt a 0 l

theorem Holds.getElem {a : Nat → Option α} {l : List α} (h : Holds a l) {n : Nat}
    (hn : n < l.length) : a n = some l[n] := by
  have hget := h n hn
  rwa [Nat.zero_add, List.getElem?_eq_getElem hn] at hget

theorem holdsAt_nil (a : Nat → Option α) (i : Nat) : HoldsAt a i [] := by
  intro k hk
  exact absurd hk (Nat.not_lt_zero k)

theorem holdsAt_cons {a : Nat → Option α} {i : Nat} {x : α} {l : List α} :
    HoldsAt a i (x :: l) ↔ a i = some x ∧ HoldsAt a (i + 1) l := by
  constructor
  · intro h
    refine ⟨h 0 (Nat.succ_pos _), fun k hk => ?_⟩
    have hnext := h (k + 1) (Nat.succ_lt_succ hk)
    rwa [List.getElem?_cons_succ, ← Nat.add_assoc, Nat.add_right_comm] at hnext
  · rintro ⟨hx, hl⟩ k hk
    cases k with
    | zero => exact hx
    | succ k =>
        rw [List.getElem?_cons_succ, ← Nat.add_assoc, Nat.add_right_comm]
        exact hl k (Nat.lt_of_succ_lt_succ hk)

theorem holdsAt_append {a : Nat → Option α} {i : Nat} {l l' : List α} :
    HoldsAt a i (l ++ l') ↔ HoldsAt a i l ∧ HoldsAt a (i + l.length) l' := by
  induction l generalizing i with
  | nil => simp [holdsAt_nil]
  | cons x l ih =>
      rw [List.cons_append, holdsAt_cons, holdsAt_cons, ih, and_assoc, List.length_cons,
        Nat.add_assoc, Nat.add_comm 1]

/-- What is set outside does not matter. -/
theorem HoldsAt.update {a : Nat → Option α} {i j : Nat} {l : List α} (h : HoldsAt a i l)
    (hj : j < i ∨ i + l.length ≤ j) (x : Option α) : HoldsAt (Function.update a j x) i l := by
  intro k hk
  rw [Function.update_of_ne (by omega)]
  exact h k hk

/-- The list of the first `n` positions. -/
def toList (a : Nat → Option α) (n : Nat) : List α := (List.range n).filterMap a

theorem HoldsAt.toList {a : Nat → Option α} {l : List α} (h : Holds a l) :
    Shifts.toList a l.length = l := by
  induction l using List.reverseRecOn with
  | nil => rfl
  | append_singleton l x ih =>
      obtain ⟨hl, hx⟩ := holdsAt_append.mp h
      have hlast : a l.length = some x := by
        have := (holdsAt_cons.mp hx).1
        rwa [Nat.zero_add] at this
      rw [Shifts.toList, List.length_append, List.length_singleton, List.range_succ,
        List.filterMap_append]
      change Shifts.toList a l.length ++ _ = _
      rw [ih hl]
      simp [hlast]

/-! ### Insertion -/

/-- From position `i` down: `x` stays behind the first element found that it has to follow, all
    others move up by one. -/
def insertLoop (follows : α → Bool) (x : α) : Nat → (Nat → Option α) → Option (Nat → Option α)
  | 0, a => some (Function.update a 0 (some x))
  | i + 1, a => do
      let y ← a i
      if follows y then some (Function.update a (i + 1) (some x))
      else insertLoop follows x i (Function.update a (i + 1) (some y))

/-- The elements of `back` have moved up, the position before them is free. -/
theorem insertLoop_eq_some {follows : α → Bool} {x : α} {i : Nat} {a : Nat → Option α}
    {front back : List α} (hlen : front.length = i) (hfront : Holds a front)
    (hback : HoldsAt a (i + 1) back) (hbefore : ∀ y ∈ back, follows y = false) :
    ∃ a' front' back', insertLoop follows x i a = some a' ∧ front ++ back = front' ++ back' ∧
      Holds a' (front' ++ x :: back') ∧ (∀ y ∈ back', follows y = false) ∧
      ∀ y ∈ front'.getLast?, follows y = true := by
  induction i generalizing a front back with
  | zero =>
      obtain rfl := List.length_eq_zero_iff.mp hlen
      refine ⟨_, [], back, rfl, rfl, ?_, hbefore, by simp⟩
      refine holdsAt_cons.mpr ⟨Function.update_self .., ?_⟩
      exact hback.update (.inl (Nat.succ_pos _)) _
  | succ i ih =>
      obtain ⟨init, y, rfl⟩ : ∃ init y, front = init ++ [y] := by
        rcases List.eq_nil_or_concat front with rfl | ⟨init, y, rfl⟩
        · simp at hlen
        · exact ⟨init, y, by simp⟩
      have hinit : init.length = i := by simpa using hlen
      obtain ⟨hholds, hy⟩ := holdsAt_append.mp hfront
      have hlast : a i = some y := by
        have := (holdsAt_cons.mp hy).1
        rwa [Nat.zero_add, hinit] at this
      rw [insertLoop, hlast]
      dsimp only [Option.bind_eq_bind, Option.bind_some]
      split
      · rename_i hfollows
        refine ⟨_, init ++ [y], back, rfl, rfl, ?_, hbefore, by simpa using hfollows⟩
        refine holdsAt_append.mpr ⟨hfront.update (.inr (by simp [hinit])) _, ?_⟩
        rw [Nat.zero_add, List.length_append, hinit]
        exact holdsAt_cons.mpr ⟨Function.update_self .., hback.update (.inl (by simp)) _⟩
      · rename_i hfollows
        have hmoved : HoldsAt (Function.update a (i + 1) (some y)) (i + 1) (y :: back) :=
          holdsAt_cons.mpr ⟨Function.update_self .., hback.update (.inl (Nat.lt_succ_self _)) _⟩
        obtain ⟨a', front', back', hloop, hsplit, hrest⟩ := ih hinit
          (hholds.update (.inr (by rw [hinit]; omega)) _) hmoved (by
            intro z hz
            rcases List.mem_cons.mp hz with rfl | hz
            · simpa using hfollows
            · exact hbefore z hz)
        exact ⟨a', front', back', hloop, by rw [← hsplit, List.append_assoc]; rfl, hrest⟩

/-! ### Removal -/

/-- `n` rounds from position `i`: every element moves down by one; `check` is asserted of
    neighbours. -/
def shiftLoop (check : α → α → Bool) : Nat → Nat → (Nat → Option α) → Option (Nat → Option α)
  | 0, _, a => some a
  | n + 1, i, a => do
      let x ← a i
      let y ← a (i + 1)
      if check x y then shiftLoop check n (i + 1) (Function.update a i (some y)) else none

theorem shiftLoop_eq_some {check : α → α → Bool} {n i : Nat} {a : Nat → Option α} {x : α}
    {l : List α} (hlen : l.length = n) (h : HoldsAt a i (x :: l))
    (hcheck : (x :: l).Pairwise fun x y => check x y = true) :
    ∃ a', shiftLoop check n i a = some a' ∧ HoldsAt a' i l ∧ ∀ k < i, a' k = a k := by
  induction n generalizing i a x l with
  | zero =>
      obtain rfl := List.length_eq_zero_iff.mp hlen
      exact ⟨a, rfl, holdsAt_nil a i, fun _ _ => rfl⟩
  | succ n ih =>
      match l, hlen with
      | y :: l, hlen =>
          obtain ⟨hx, hrest⟩ := holdsAt_cons.mp h
          obtain ⟨hy, hl⟩ := holdsAt_cons.mp hrest
          have hxy : check x y = true := (List.pairwise_cons.mp hcheck).1 y (List.mem_cons_self ..)
          have hmoved := hrest.update (.inl (Nat.lt_succ_self i)) (some y)
          obtain ⟨a', hloop, hholds, hsame⟩ :=
            ih (Nat.succ.inj hlen) hmoved (List.pairwise_cons.mp hcheck).2
          refine ⟨a', ?_, holdsAt_cons.mpr ⟨?_, hholds⟩, fun k hk => ?_⟩
          · rw [shiftLoop, hx, hy]
            simp [hxy, hloop]
          · rw [hsame i (Nat.lt_succ_self i), Function.update_self]
          · rw [hsame k (by omega), Function.update_of_ne (by omega)]

variable [DecidableEq α]

/-- `n` rounds from position `i` of an array with `cnt` elements: from `x` on every element but
    the last is overwritten by the next one. -/
def removeLoop (x : α) (cnt : Nat) : Nat → Nat → Bool → (Nat → Option α) → Bool × (Nat → Option α)
  | 0, _, find, a => (find, a)
  | n + 1, i, find, a =>
      let find := find || decide (a i = some x)
      removeLoop x cnt n (i + 1) find
        (if find ∧ i < cnt - 1 then Function.update a i (a (i + 1)) else a)

/-- Once found, the rest moves down. -/
theorem removeLoop_found {x : α} {cnt n i : Nat} {a : Nat → Option α} {y : α} {l : List α}
    (hlen : l.length + 1 = n) (hcnt : i + n = cnt) (h : HoldsAt a i (y :: l)) (find : Bool)
    (hfind : (find || decide (a i = some x)) = true) :
    ∃ a', removeLoop x cnt n i find a = (true, a') ∧ HoldsAt a' i l ∧ ∀ k < i, a' k = a k := by
  induction n generalizing i a y l find with
  | zero => omega
  | succ n ih =>
      rw [removeLoop]
      simp only [hfind, true_and]
      cases l with
      | nil =>
          obtain rfl : n = 0 := by simpa using hlen.symm
          have hend : ¬ i < cnt - 1 := by omega
          rw [if_neg hend]
          exact ⟨a, rfl, holdsAt_nil a i, fun _ _ => rfl⟩
      | cons z l =>
          have hmore : i < cnt - 1 := by
            simp only [List.length_cons] at hlen
            omega
          rw [if_pos hmore]
          obtain ⟨hy, hrest⟩ := holdsAt_cons.mp h
          obtain ⟨a', hloop, hholds, hsame⟩ := ih (Nat.succ.inj hlen) (by omega)
            (hrest.update (.inl (Nat.lt_succ_self i)) (a (i + 1))) true rfl
          refine ⟨a', hloop, holdsAt_cons.mpr ⟨?_, hholds⟩, fun k hk => ?_⟩
          · rw [hsame i (Nat.lt_succ_self i), Function.update_self]
            exact (holdsAt_cons.mp hrest).1
          · rw [hsame k (by omega), Function.update_of_ne (by omega)]

/-- The element that is looked for is taken out. -/
theorem removeLoop_eq {x : α} {cnt n i : Nat} {a : Nat → Option α} {front back : List α}
    (hlen : front.length + back.length + 1 = n) (hcnt : i + n = cnt)
    (h : HoldsAt a i (front ++ x :: back)) (hfront : x ∉ front) :
    ∃ a', removeLoop x cnt n i false a = (true, a') ∧ HoldsAt a' i (front ++ back) ∧
      ∀ k < i, a' k = a k := by
  induction front generalizing n i a with
  | nil =>
      obtain ⟨hx, -⟩ := holdsAt_cons.mp h
      exact removeLoop_found (by simpa using hlen) hcnt h false (by simp [hx])
  | cons y front ih =>
      obtain ⟨hy, hrest⟩ := holdsAt_cons.mp h
      have hne : y ≠ x := fun heq => hfront (heq ▸ List.mem_cons_self ..)
      match n, hlen with
      | n + 1, hlen =>
          simp only [List.length_cons] at hlen
          obtain ⟨a', hloop, hholds, hsame⟩ := ih (n := n) (by omega) (by omega) hrest
            (fun hx => hfront (List.mem_cons_of_mem _ hx))
          refine ⟨a', ?_, holdsAt_cons.mpr ⟨?_, hholds⟩, fun k hk => hsame k (by omega)⟩
          · rw [removeLoop, hy]
            simpa [hne] using hloop
          · rw [hsame i (Nat.lt_succ_self i), hy]

end Shifts
