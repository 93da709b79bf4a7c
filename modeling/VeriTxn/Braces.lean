import VeriTxn.Bytes
import Mathlib.Algebra.Group.Int.Even
import Mathlib.Algebra.BigOperators.Group.List.Basic

/-!
# Nested braces

How deep a byte string stands between its braces, and strings that open every brace before they
close it.  A string in braces is found again by counting: its closing brace is the first one that
brings the depth back to zero.
-/

namespace Braces

open Bytes

/-- `'\x7b'` and `'\x7d'` -/
def lbrace : Byte := 123

def rbrace : Byte := 125

def delta (c : Byte) : Int := if c = lbrace then 1 else if c = rbrace then -1 else 0

/-- Opening braces minus closing ones. -/
def depth (s : List Byte) : Int := (s.map delta).sum

/-- Some prefix closes more braces than it opens. -/
def Dips (s : List Byte) : Prop := ∃ n, depth (s.take n) < 0

structure Balanced (s : List Byte) : Prop where
  above : ∀ n, 0 ≤ depth (s.take n)
  closed : depth s = 0

/-- A string in braces. -/
def braced (s : List Byte) : List Byte := lbrace :: s ++ [rbrace]

@[simp] theorem delta_lbrace : delta lbrace = 1 := rfl

@[simp] theorem delta_rbrace : delta rbrace = -1 := rfl

theorem lbrace_ne_rbrace : lbrace ≠ rbrace := by decide

theorem delta_of_ne {c : Byte} (hl : c ≠ lbrace) (hr : c ≠ rbrace) : delta c = 0 := by
  rw [delta, if_neg hl, if_neg hr]

@[simp] theorem depth_nil : depth [] = 0 := rfl

@[simp] theorem depth_cons (c : Byte) (s : List Byte) : depth (c :: s) = delta c + depth s := by
  simp [depth]

@[simp] theorem depth_append (s t : List Byte) : depth (s ++ t) = depth s + depth t := by
  simp [depth]

theorem depth_take_append (s t : List Byte) (n : Nat) :
    depth ((s ++ t).take n) = depth (s.take n) + depth (t.take (n - s.length)) := by
  rw [List.take_append, depth_append]

theorem balanced_nil : Balanced [] where
  above n := by simp
  closed := rfl

theorem Balanced.append {s t : List Byte} (hs : Balanced s) (ht : Balanced t) :
    Balanced (s ++ t) where
  above n := by
    have hfirst := hs.above n
    have hsecond := ht.above (n - s.length)
    rw [depth_take_append]
    omega
  closed := by rw [depth_append, hs.closed, ht.closed, Int.zero_add]

theorem Balanced.braced {s : List Byte} (h : Balanced s) : Balanced (braced s) where
  above n := by
    have hinside := h.above (n - 1)
    have hwhole := h.closed
    cases n with
    | zero => simp
    | succ n =>
        rw [Braces.braced, List.cons_append, List.take_succ_cons, depth_cons, depth_take_append,
          delta_lbrace]
        have hlast : -1 ≤ depth ([rbrace].take (n - s.length)) := by
          cases n - s.length with
          | zero => simp
          | succ m => simp
        rw [Nat.add_sub_cancel] at hinside
        omega
  closed := by
    have hclosed := h.closed
    simp only [Braces.braced, List.cons_append, depth_cons, depth_append, delta_lbrace, delta_rbrace,
      depth_nil]
    omega

/-- A string without braces. -/
theorem balanced_of_no_braces {s : List Byte} (h : ∀ c ∈ s, c ≠ lbrace ∧ c ≠ rbrace) :
    Balanced s := by
  have hzero : ∀ n, depth (s.take n) = 0 := by
    intro n
    refine List.sum_eq_zero fun d hd => ?_
    obtain ⟨c, hc, rfl⟩ := List.mem_map.mp hd
    obtain ⟨hl, hr⟩ := h c (List.mem_of_mem_take hc)
    exact delta_of_ne hl hr
  refine ⟨fun n => (hzero n).symm.le, ?_⟩
  have hall := hzero s.length
  rwa [List.take_length] at hall

/-- The same, as a test. -/
theorem balanced_of_all {s : List Byte} (h : s.all (fun c => c != lbrace && c != rbrace) = true) :
    Balanced s := by
  refine balanced_of_no_braces fun c hc => ?_
  have := List.all_eq_true.mp h c hc
  simpa using this

theorem Balanced.not_dips {s : List Byte} (h : Balanced s) : ¬ Dips s := by
  rintro ⟨n, hlt⟩
  have habove := h.above n
  omega

end Braces
