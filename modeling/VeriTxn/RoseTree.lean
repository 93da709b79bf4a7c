import Mathlib.Data.List.Nodup
import Mathlib.Data.List.Flatten

/-!
# Trees of any shape

Trees whose nodes carry a name, with data in the leaves and in the inner nodes and any number
of children.  Functions on them are folds, and properties are proved one node over its children.
-/

namespace RoseTree

inductive Tree (L N : Type) where
  | leaf (id : Nat) (data : L)
  | inner (id : Nat) (data : N) (children : List (Tree L N))

variable {L N α : Type}

namespace Tree

def id : Tree L N → Nat
  | leaf id _ => id
  | inner id _ _ => id

@[elab_as_elim]
theorem induction {motive : Tree L N → Prop} (leaf : ∀ id data, motive (leaf id data))
    (inner : ∀ id data children, (∀ t ∈ children, motive t) → motive (inner id data children))
    (t : Tree L N) : motive t :=
  @Tree.rec L N motive (fun ts => ∀ t ∈ ts, motive t) leaf inner
    (fun _ h => absurd h List.not_mem_nil)
    (fun _ _ ht hts _ h => (List.mem_cons.mp h).elim (fun heq => heq ▸ ht) (hts _)) t

mutual

def fold (f : Nat → L → α) (g : Nat → N → List α → α) : Tree L N → α
  | leaf id data => f id data
  | inner id data children => g id data (folds f g children)

def folds (f : Nat → L → α) (g : Nat → N → List α → α) : List (Tree L N) → List α
  | [] => []
  | t :: ts => fold f g t :: folds f g ts

end

@[simp] theorem fold_leaf (f : Nat → L → α) (g : Nat → N → List α → α) (id : Nat) (data : L) :
    fold f g (leaf id data) = f id data := rfl

theorem folds_eq_map (f : Nat → L → α) (g : Nat → N → List α → α) (ts : List (Tree L N)) :
    folds f g ts = ts.map (fold f g) := by
  induction ts with
  | nil => rfl
  | cons t ts ih => rw [folds, ih, List.map_cons]

@[simp] theorem fold_inner (f : Nat → L → α) (g : Nat → N → List α → α) (id : Nat) (data : N)
    (children : List (Tree L N)) :
    fold f g (inner id data children) = g id data (children.map (fold f g)) := by
  rw [fold, folds_eq_map]

/-- The names of the nodes, a node's before those below it. -/
def ids (t : Tree L N) : List Nat := t.fold (fun id _ => [id]) fun id _ idss => id :: idss.flatten

@[simp] theorem ids_leaf (id : Nat) (data : L) : ids (leaf id data : Tree L N) = [id] := rfl

@[simp] theorem ids_inner (id : Nat) (data : N) (children : List (Tree L N)) :
    ids (inner id data children) = id :: children.flatMap ids := by
  rw [ids, fold_inner]
  rfl

theorem id_mem_ids (t : Tree L N) : t.id ∈ t.ids := by
  cases t with
  | leaf id data => simp [Tree.id]
  | inner id data children => simp [Tree.id]

/-- The longest way from the root to a leaf. -/
def height (t : Tree L N) : Nat := t.fold (fun _ _ => 0) fun _ _ heights => heights.foldr max 0 + 1

theorem le_foldr_max {hs : List Nat} {h : Nat} (hmem : h ∈ hs) : h ≤ hs.foldr max 0 := by
  induction hs with
  | nil => cases hmem
  | cons k hs ih =>
      rcases List.mem_cons.mp hmem with rfl | hmem
      · exact Nat.le_max_left ..
      · exact Nat.le_trans (ih hmem) (Nat.le_max_right ..)

theorem height_lt {id : Nat} {data : N} {children : List (Tree L N)} {t : Tree L N}
    (h : t ∈ children) : t.height < (inner id data children).height := by
  have hle : t.height ≤ (children.map height).foldr max 0 :=
    le_foldr_max (List.mem_map_of_mem h)
  rw [height, height, fold_inner]
  exact Nat.lt_succ_of_le hle

end Tree

end RoseTree
