import Mathlib.Data.List.Basic
import Mathlib.Data.List.Pairwise
import Mathlib.Logic.Function.Basic

/-!
# Cursors kept in the elements of a list

A list of `size` elements is scanned from left to right, and every element has a position of its
own in it, at first its own index.  The element after `m` is found at the position kept in `m`,
which moves on at the same time.  Scans return the elements one after another exactly as long as
the elements that they ask for a next one are different ones.
-/

namespace Cursors

variable {size : Nat}

/-- The element after `m`: `none` beyond the end; a position beyond the end is followed in vain. -/
def next (size : Nat) (pos : Nat → Nat) (m : Nat) : Option ((Nat → Nat) × Option Nat) :=
  if pos m < size then
    some (Function.update pos m (pos m + 1), if pos m + 1 < size then some (pos m + 1) else none)
  else none

/-- Up to `n` elements after `m`. -/
def nexts (size : Nat) : Nat → (Nat → Nat) → Nat → Option ((Nat → Nat) × List (Option Nat))
  | 0, pos, _ => some (pos, [])
  | n + 1, pos, m => do
      let (pos, item) ← next size pos m
      match item with
      | none => some (pos, [none])
      | some m => do
          let (pos, rest) ← nexts size n pos m
          some (pos, some m :: rest)

/-- Scans from an element with a number of calls each. -/
def scans (size : Nat) : (Nat → Nat) → List (Nat × Nat) → Option (List (List (Option Nat)))
  | _, [] => some []
  | pos, (m, n) :: rest => do
      let (pos, items) ← nexts size n pos m
      let results ← scans size pos rest
      some ((some m :: items) :: results)

/-- The elements after `m` in their order. -/
def after (size : Nat) : Nat → Nat → List (Option Nat)
  | 0, _ => []
  | n + 1, m => if m + 1 < size then some (m + 1) :: after size n (m + 1) else [none]

/-- The elements that are asked for the next one, in their order. -/
def called (size : Nat) (scan : Nat × Nat) : List Nat :=
  List.range' scan.1 (min scan.2 (size - scan.1))

theorem mem_called {m n q : Nat} : q ∈ called size (m, n) ↔ m ≤ q ∧ q < m + n ∧ q < size := by
  rw [called, List.mem_range'_1]
  omega

/-- The positions after the elements have been asked. -/
def advance (pos : Nat → Nat) (asked : List Nat) (q : Nat) : Nat :=
  if q ∈ asked then pos q + 1 else pos q

/-- Elements that were not asked before lead from one to the next. -/
theorem nexts_of_fresh {n m : Nat} (hm : m < size) {pos : Nat → Nat}
    (hfresh : ∀ q ∈ called size (m, n), pos q = q) :
    nexts size n pos m = some (advance pos (called size (m, n)), after size n m) := by
  induction n generalizing m pos with
  | zero =>
      have hnone : advance pos (called size (m, 0)) = pos := by
        funext q
        simp [advance, called]
      rw [hnone]
      rfl
  | succ n ih =>
      have hself : pos m = m := hfresh m (mem_called.mpr (by omega))
      rw [nexts, next, hself, if_pos hm, after]
      by_cases hlast : m + 1 < size
      · have hrest : ∀ q ∈ called size (m + 1, n), Function.update pos m (m + 1) q = q := by
          intro q hq
          rw [mem_called] at hq
          rw [Function.update_of_ne (by omega)]
          exact hfresh q (mem_called.mpr (by omega))
        simp only [if_pos hlast, Option.bind_eq_bind, Option.bind_some, ih hlast hrest]
        congr 2
        funext q
        by_cases hq : q = m
        · subst hq
          have hout : q ∉ called size (q + 1, n) := by
            rw [mem_called]
            omega
          have hmem : q ∈ called size (q, n + 1) := mem_called.mpr (by omega)
          simp [advance, hout, hmem, hself]
        · have hiff : q ∈ called size (m + 1, n) ↔ q ∈ called size (m, n + 1) := by
            rw [mem_called, mem_called]
            omega
          simp only [advance, hiff, Function.update_of_ne hq]
      · simp only [if_neg hlast, Option.bind_eq_bind, Option.bind_some]
        congr 2
        funext q
        by_cases hq : q = m
        · subst hq
          have hmem : q ∈ called size (q, n + 1) := mem_called.mpr (by omega)
          simp [advance, hmem, hself]
        · have hmem : q ∉ called size (m, n + 1) := by
            rw [mem_called]
            omega
          simp [advance, hmem, hq]

/-- An element that was asked before leads elsewhere. -/
theorem nexts_of_not_fresh {n m : Nat} (hm : m < size) {pos : Nat → Nat} (hle : ∀ q, q ≤ pos q)
    (hstale : ∃ q ∈ called size (m, n), pos q ≠ q) (pos' : Nat → Nat) :
    nexts size n pos m ≠ some (pos', after size n m) := by
  induction n generalizing m pos pos' with
  | zero =>
      obtain ⟨q, hq, -⟩ := hstale
      rw [mem_called] at hq
      omega
  | succ n ih =>
      intro heq
      rw [nexts, next] at heq
      by_cases hself : pos m = m
      · rw [hself, if_pos hm, after] at heq
        obtain ⟨q, hq, hne⟩ := hstale
        have hqm : q ≠ m := fun h => hne (h ▸ hself)
        rw [mem_called] at hq
        have hlast : m + 1 < size := by omega
        simp only [if_pos hlast, Option.bind_eq_bind, Option.bind_some] at heq
        obtain ⟨⟨pos₁, rest⟩, hrest, heq⟩ := Option.bind_eq_some_iff.mp heq
        simp only [Option.some.injEq, Prod.mk.injEq, List.cons.injEq, true_and] at heq
        obtain ⟨-, rfl⟩ := heq
        refine ih hlast (fun q => ?_) ⟨q, mem_called.mpr (by omega), ?_⟩ pos₁ hrest
        · by_cases hq : q = m
          · rw [hq, Function.update_self]
            omega
          · rw [Function.update_of_ne hq]
            exact hle q
        · rwa [Function.update_of_ne hqm]
      · -- the position is ahead, and what is found there is not the next element
        have hlt : m < pos m := Nat.lt_of_le_of_ne (hle m) (Ne.symm hself)
        by_cases hin : pos m < size
        · have hlast : m + 1 < size := by omega
          rw [if_pos hin, after, if_pos hlast] at heq
          by_cases hin' : pos m + 1 < size
          · simp only [if_pos hin', Option.bind_eq_bind, Option.bind_some] at heq
            obtain ⟨⟨pos₁, rest⟩, -, heq⟩ := Option.bind_eq_some_iff.mp heq
            simp only [Option.some.injEq, Prod.mk.injEq, List.cons.injEq] at heq
            omega
          · simp [if_neg hin'] at heq
        · simp [if_neg hin] at heq

/-- From any positions that are not behind: every scan returns the elements in their order exactly
    if it asks only elements that are at their own position and that no earlier scan asks. -/
theorem scans_iff {pos : Nat → Nat} (hle : ∀ q, q ≤ pos q) {list : List (Nat × Nat)}
    (hin : ∀ scan ∈ list, scan.1 < size) :
    scans size pos list = some (list.map fun scan => some scan.1 :: after size scan.2 scan.1) ↔
      (∀ scan ∈ list, ∀ q ∈ called size scan, pos q = q) ∧
        list.Pairwise fun scan scan' => (called size scan).Disjoint (called size scan') := by
  induction list generalizing pos with
  | nil => exact ⟨fun _ => ⟨by simp, List.Pairwise.nil⟩, fun _ => rfl⟩
  | cons scan list ih =>
      obtain ⟨m, n⟩ := scan
      have hm : m < size := hin (m, n) (List.mem_cons_self ..)
      have hrest : ∀ scan ∈ list, scan.1 < size := fun scan hs => hin scan (List.mem_cons_of_mem _ hs)
      rw [scans, List.map_cons, List.pairwise_cons]
      by_cases hfresh : ∀ q ∈ called size (m, n), pos q = q
      · have hle' : ∀ q, q ≤ advance pos (called size (m, n)) q := by
          intro q
          have := hle q
          unfold advance
          split <;> omega
        have hkeep : ∀ q, advance pos (called size (m, n)) q = q ↔
            pos q = q ∧ q ∉ called size (m, n) := by
          intro q
          have := hle q
          unfold advance
          split
          · rename_i hq
            exact ⟨fun h => by omega, fun h => absurd hq h.2⟩
          · rename_i hq
            exact ⟨fun h => ⟨h, hq⟩, fun h => h.1⟩
        simp only [nexts_of_fresh hm hfresh, Option.bind_eq_bind, Option.bind_some]
        have hiff := ih hle' hrest
        constructor
        · intro heq
          obtain ⟨results, hresults, heq⟩ := Option.bind_eq_some_iff.mp heq
          simp only [Option.some.injEq, List.cons.injEq, true_and] at heq
          rw [heq] at hresults
          obtain ⟨hown, hpair⟩ := hiff.mp hresults
          refine ⟨?_, ?_, hpair⟩
          · intro scan hs q hq
            rcases List.mem_cons.mp hs with rfl | hs
            · exact hfresh q hq
            · exact ((hkeep q).mp (hown scan hs q hq)).1
          · intro scan hs q hq hq'
            exact ((hkeep q).mp (hown scan hs q hq')).2 hq
        · rintro ⟨hown, hdisjoint, hpair⟩
          rw [hiff.mpr ⟨fun scan hs q hq => (hkeep q).mpr
            ⟨hown scan (List.mem_cons_of_mem _ hs) q hq, fun hq' => hdisjoint scan hs hq' hq⟩, hpair⟩]
          rfl
      · constructor
        · intro heq
          obtain ⟨⟨pos', items⟩, hnexts, heq⟩ := Option.bind_eq_some_iff.mp heq
          obtain ⟨results, -, heq⟩ := Option.bind_eq_some_iff.mp heq
          simp only [Option.some.injEq, List.cons.injEq, true_and] at heq
          rw [heq.1] at hnexts
          push Not at hfresh
          exact absurd hnexts (nexts_of_not_fresh hm hle hfresh pos')
        · rintro ⟨hown, -⟩
          exact absurd (hown (m, n) (List.mem_cons_self ..)) hfresh

/-- What is found stays within the list. -/
theorem nexts_lt {n m : Nat} {pos pos' : Nat → Nat} {items : List (Option Nat)}
    (h : nexts size n pos m = some (pos', items)) : ∀ q, some q ∈ items → q < size := by
  induction n generalizing m pos items with
  | zero =>
      cases h
      simp
  | succ n ih =>
      rw [nexts] at h
      obtain ⟨⟨pos₁, item⟩, hnext, h⟩ := Option.bind_eq_some_iff.mp h
      rw [next] at hnext
      split at hnext
      · cases hnext
        by_cases hin : pos m + 1 < size
        · simp only [if_pos hin] at h
          obtain ⟨⟨pos₂, rest⟩, hrest, h⟩ := Option.bind_eq_some_iff.mp h
          cases h
          intro q hq
          rcases List.mem_cons.mp hq with heq | hq
          · cases heq
            exact hin
          · exact ih hrest q hq
        · simp only [if_neg hin] at h
          cases h
          simp
      · cases hnext

theorem scans_lt {pos : Nat → Nat} {list : List (Nat × Nat)} (hin : ∀ scan ∈ list, scan.1 < size)
    {results : List (List (Option Nat))} (h : scans size pos list = some results) :
    ∀ items ∈ results, ∀ q, some q ∈ items → q < size := by
  induction list generalizing pos results with
  | nil =>
      cases h
      simp
  | cons scan list ih =>
      obtain ⟨m, n⟩ := scan
      rw [scans] at h
      obtain ⟨⟨pos', items⟩, hnexts, h⟩ := Option.bind_eq_some_iff.mp h
      obtain ⟨rest, hrest, h⟩ := Option.bind_eq_some_iff.mp h
      cases h
      intro items' hitems' q hq
      rcases List.mem_cons.mp hitems' with rfl | hitems'
      · rcases List.mem_cons.mp hq with heq | hq
        · cases heq
          exact hin (m, n) (List.mem_cons_self ..)
        · exact nexts_lt hnexts q hq
      · exact ih (fun scan hs => hin scan (List.mem_cons_of_mem _ hs)) hrest items' hitems' q hq

theorem after_lt {n m : Nat} : ∀ q, some q ∈ after size n m → q < size := by
  induction n generalizing m with
  | zero => simp [after]
  | succ n ih =>
      intro q hq
      rw [after] at hq
      split at hq
      · rename_i hlt
        rcases List.mem_cons.mp hq with heq | hq
        · cases heq
          exact hlt
        · exact ih q hq
      · simp at hq

end Cursors
