import Mathlib.Logic.Function.Basic
import Mathlib.Data.List.Basic
import Mathlib.Data.List.Nodup

/-!
# Linked lists in a heap

Cells with a `next` and a `prev` pointer, by address.  A list of addresses with their data is
in the heap as a stack when the `next` pointers lead through it, and as a segment of a doubly
linked list when the `prev` pointers do, too.  Assignments to the pointers at the ends of a
segment change its neighbours and nothing else.
-/

namespace LinkedLists

variable {P : Type}

structure Cell (P : Type) where
  data : P
  next : Option Nat
  prev : Option Nat

abbrev Heap (P : Type) := Nat → Option (Cell P)

/-- An assignment to `a->next`. -/
def Heap.setNext (heap : Heap P) (a : Nat) (x : Option Nat) : Option (Heap P) :=
  (heap a).map fun c => Function.update heap a (some { c with next := x })

/-- An assignment to `a->prev`. -/
def Heap.setPrev (heap : Heap P) (a : Nat) (x : Option Nat) : Option (Heap P) :=
  (heap a).map fun c => Function.update heap a (some { c with prev := x })

def first (ns : List (Nat × P)) : Option Nat := ns.head?.map Prod.fst

def last (ns : List (Nat × P)) : Option Nat := ns.getLast?.map Prod.fst

@[simp] theorem first_nil : first ([] : List (Nat × P)) = none := rfl

@[simp] theorem first_cons (n : Nat × P) (ns : List (Nat × P)) : first (n :: ns) = some n.1 := rfl

@[simp] theorem last_nil : last ([] : List (Nat × P)) = none := rfl

@[simp] theorem last_append_singleton (ns : List (Nat × P)) (n : Nat × P) :
    last (ns ++ [n]) = some n.1 := by simp [last]

theorem first_append (l r : List (Nat × P)) : first (l ++ r) = (first l).or (first r) := by
  cases l with
  | nil => rfl
  | cons n l => rfl

theorem last_append (l r : List (Nat × P)) : last (l ++ r) = (last r).or (last l) := by
  rw [last, List.getLast?_append, last, last]
  cases r.getLast? <;> rfl

theorem last_cons (n : Nat × P) (ns : List (Nat × P)) :
    last (n :: ns) = (last ns).or (some n.1) := by
  rw [← List.singleton_append, last_append]
  rfl

/-- The list is reached from `top` through `next`. -/
def Stack (heap : Heap P) : Option Nat → List (Nat × P) → Prop
  | top, [] => top = none
  | top, (a, p) :: ns =>
      top = some a ∧ ∃ next prev, heap a = some ⟨p, next, prev⟩ ∧ Stack heap next ns

/-- The list is doubly linked, between the cells `before` and `after` it. -/
def Segment (heap : Heap P) : Option Nat → List (Nat × P) → Option Nat → Prop
  | _, [], _ => True
  | before, (a, p) :: ns, after =>
      heap a = some ⟨p, (first ns).or after, before⟩ ∧ Segment heap (some a) ns after

variable {heap heap' : Heap P} {ns : List (Nat × P)} {before after top : Option Nat}

/-- A stack reads only its own cells. -/
theorem Stack.frame (h : Stack heap top ns) (hsame : ∀ n ∈ ns, heap' n.1 = heap n.1) :
    Stack heap' top ns := by
  induction ns generalizing top with
  | nil => exact h
  | cons n ns ih =>
      obtain ⟨rfl, next, prev, hcell, hrest⟩ := h
      refine ⟨rfl, next, prev, ?_, ih hrest fun n' hn' => hsame n' (List.mem_cons_of_mem _ hn')⟩
      rw [hsame n (List.mem_cons_self ..), hcell]

theorem Segment.frame (h : Segment heap before ns after)
    (hsame : ∀ n ∈ ns, heap' n.1 = heap n.1) : Segment heap' before ns after := by
  induction ns generalizing before with
  | nil => trivial
  | cons n ns ih =>
      obtain ⟨hcell, hrest⟩ := h
      refine ⟨?_, ih hrest fun n' hn' => hsame n' (List.mem_cons_of_mem _ hn')⟩
      rw [hsame n (List.mem_cons_self ..), hcell]

/-- A segment is cut in two, each the neighbour of the other. -/
theorem segment_append {l r : List (Nat × P)} :
    Segment heap before (l ++ r) after ↔
      Segment heap before l ((first r).or after) ∧ Segment heap ((last l).or before) r after := by
  induction l generalizing before with
  | nil => exact ⟨fun h => ⟨trivial, h⟩, fun h => h.2⟩
  | cons n l ih =>
      have hlast : (last (n :: l)).or before = (last l).or (some n.1) := by
        rw [last_cons]
        cases last l <;> rfl
      have hfirst : (first (l ++ r)).or after = (first l).or ((first r).or after) := by
        rw [first_append]
        cases first l <;> rfl
      rw [List.cons_append]
      constructor
      · rintro ⟨hcell, hrest⟩
        obtain ⟨hl, hr⟩ := ih.mp hrest
        rw [hfirst] at hcell
        exact ⟨⟨hcell, hl⟩, hlast ▸ hr⟩
      · rintro ⟨⟨hcell, hl⟩, hr⟩
        refine ⟨?_, ih.mpr ⟨hl, hlast ▸ hr⟩⟩
        rw [hfirst]
        exact hcell

/-- Assigning to `next` of the last cell. -/
theorem Segment.setNext {a : Nat} {p : P} (h : Segment heap before (ns ++ [(a, p)]) after)
    (hnodup : a ∉ ns.map Prod.fst) (x : Option Nat) :
    ∃ heap', heap.setNext a x = some heap' ∧ Segment heap' before (ns ++ [(a, p)]) x ∧
      ∀ b, b ≠ a → heap' b = heap b := by
  obtain ⟨hl, hcell, -⟩ := segment_append.mp h
  refine ⟨_, by rw [Heap.setNext, hcell]; rfl, ?_, fun b hb => Function.update_of_ne hb ..⟩
  refine segment_append.mpr ⟨hl.frame fun n hn => ?_, ?_, trivial⟩
  · refine Function.update_of_ne (fun heq => hnodup ?_) ..
    exact heq ▸ List.mem_map_of_mem hn
  · exact Function.update_self ..

/-- Assigning to `prev` of the first cell. -/
theorem Segment.setPrev {a : Nat} {p : P} (h : Segment heap before ((a, p) :: ns) after)
    (hnodup : a ∉ ns.map Prod.fst) (x : Option Nat) :
    ∃ heap', heap.setPrev a x = some heap' ∧ Segment heap' x ((a, p) :: ns) after ∧
      ∀ b, b ≠ a → heap' b = heap b := by
  obtain ⟨hcell, hr⟩ := h
  refine ⟨_, by rw [Heap.setPrev, hcell]; rfl, ⟨Function.update_self .., ?_⟩,
    fun b hb => Function.update_of_ne hb ..⟩
  refine hr.frame fun n hn => Function.update_of_ne (fun heq => hnodup ?_) ..
  exact heq ▸ List.mem_map_of_mem hn

/-- A doubly linked list with its two ends. -/
structure Queue (heap : Heap P) (head tail : Option Nat) (ns : List (Nat × P)) : Prop where
  segment : Segment heap none ns none
  head_eq : head = first ns
  tail_eq : tail = last ns

theorem Segment.stack (h : Segment heap before ns none) : Stack heap (first ns) ns := by
  induction ns generalizing before with
  | nil => rfl
  | cons n ns ih =>
      obtain ⟨hcell, hrest⟩ := h
      rw [Option.or_none] at hcell
      exact ⟨rfl, first ns, before, hcell, ih hrest⟩

theorem Queue.stack {head tail : Option Nat} (h : Queue heap head tail ns) : Stack heap head ns := by
  rw [h.head_eq]
  exact h.segment.stack

/-- The list found by following `next`, at most `fuel` times. -/
def walk (heap : Heap P) : Nat → Option Nat → List (Nat × P)
  | fuel + 1, some a =>
      match heap a with
      | some c => (a, c.data) :: walk heap fuel c.next
      | none => []
  | _, _ => []

theorem Stack.walk (h : Stack heap top ns) {fuel : Nat} (hfuel : ns.length ≤ fuel) :
    walk heap fuel top = ns := by
  induction ns generalizing top fuel with
  | nil =>
      cases h
      cases fuel <;> rfl
  | cons n ns ih =>
      obtain ⟨rfl, next, prev, hcell, hrest⟩ := h
      cases fuel with
      | zero => exact absurd hfuel (Nat.not_succ_le_zero _)
      | succ fuel =>
          rw [LinkedLists.walk, hcell]
          exact congrArg (n :: ·) (ih hrest (Nat.le_of_succ_le_succ hfuel))

theorem Stack.cell (h : Stack heap top ns) {n : Nat × P} (hn : n ∈ ns) :
    ∃ next prev, heap n.1 = some ⟨n.2, next, prev⟩ := by
  induction ns generalizing top with
  | nil => cases hn
  | cons n' ns ih =>
      obtain ⟨rfl, next, prev, hcell, hrest⟩ := h
      rcases List.mem_cons.mp hn with rfl | hn
      · exact ⟨next, prev, hcell⟩
      · exact ih hrest hn

/-- A stack is cut where the `next` pointer of its cell leads to the rest. -/
theorem Stack.setNext {l r : List (Nat × P)} {a : Nat} {p q : P} {b : Nat}
    (h : Stack heap top (l ++ (a, p) :: (b, q) :: r))
    (hnodup : ((l ++ (a, p) :: (b, q) :: r).map Prod.fst).Nodup) {next prev : Option Nat}
    (hb : heap b = some ⟨q, next, prev⟩) :
    ∃ heap', heap.setNext a next = some heap' ∧ Stack heap' top (l ++ (a, p) :: r) ∧
      ∀ c, c ≠ a → heap' c = heap c := by
  induction l generalizing top with
  | nil =>
      obtain ⟨rfl, next', prev', hcell, rfl, next'', prev'', hcell', hrest⟩ := h
      obtain ⟨ha, -⟩ := List.nodup_cons.mp hnodup
      rw [hb] at hcell'
      cases hcell'
      refine ⟨_, by rw [Heap.setNext, hcell]; rfl,
        ⟨rfl, next, prev', Function.update_self .., hrest.frame fun n hn => ?_⟩,
        fun c hc => Function.update_of_ne hc ..⟩
      refine Function.update_of_ne (fun heq => ha ?_) ..
      exact List.mem_cons_of_mem _ (List.mem_map.mpr ⟨n, hn, heq⟩)
  | cons n l ih =>
      obtain ⟨rfl, next', prev', hcell, hrest⟩ := h
      obtain ⟨hn, hnodup⟩ := List.nodup_cons.mp hnodup
      obtain ⟨heap', hset, hstack, hsame⟩ := ih hrest hnodup
      refine ⟨heap', hset, ⟨rfl, next', prev', ?_, hstack⟩, hsame⟩
      refine (hsame n.1 fun heq => hn ?_).trans hcell
      rw [heq]
      exact List.mem_map_of_mem (List.mem_append_right l (List.mem_cons_self ..))

theorem Queue.frame {head tail : Option Nat} (h : Queue heap head tail ns)
    (hsame : ∀ n ∈ ns, heap' n.1 = heap n.1) : Queue heap' head tail ns :=
  ⟨h.segment.frame hsame, h.head_eq, h.tail_eq⟩

end LinkedLists
