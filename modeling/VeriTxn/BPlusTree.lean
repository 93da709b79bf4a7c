import Mathlib.Order.WithBot
import Mathlib.Data.List.Perm.Basic
import Mathlib.Data.List.Nodup
import Mathlib.Data.List.Sort
import Mathlib.Data.Fintype.Card
import Mathlib.Tactic.Ring

/-!
# B+-trees

A B+-tree of depth `d` whose nodes carry a label, as a value.  Depth is part of
the type, so all leaves are at one depth.  An inner node is its first child and
a list of separators, each with the child at its right, so a node with `n`
separators has `n + 1` children.

`insert` follows the usual bottom-up algorithm: a node that reaches `order`
entries is cut in two and hands its parent a separator and a new right sibling.
Labels of new nodes are drawn from a counter, leaf first.
-/

namespace BPlusTree

variable {K V T E : Type}

/-! ### Entries of a leaf -/

section Entries

variable [LinearOrder K]

/-- Entries in strictly increasing order of their keys. -/
def Sorted (es : List (K × V)) : Prop := es.Pairwise (·.1 < ·.1)

/-- Change the entry of `k`, or put a new one at its place. -/
def upsert (k : K) (f : Option V → V) : List (K × V) → List (K × V)
  | [] => [(k, f none)]
  | (k', v) :: es =>
      if k' < k then (k', v) :: upsert k f es
      else if k' = k then (k, f (some v)) :: es
      else (k, f none) :: (k', v) :: es

/-- The value of the first entry of `k`. -/
def find (k : K) (es : List (K × V)) : Option V :=
  (es.find? fun e => e.1 = k).map Prod.snd

@[simp] theorem find_nil (k : K) : find k ([] : List (K × V)) = none := rfl

theorem find_cons (k : K) (e : K × V) (es : List (K × V)) :
    find k (e :: es) = if e.1 = k then some e.2 else find k es := by
  by_cases h : e.1 = k <;> simp [find, h]

theorem find_append (k : K) (l r : List (K × V)) :
    find k (l ++ r) = (find k l).or (find k r) := by
  induction l with
  | nil => simp
  | cons e l ih =>
      rw [List.cons_append, find_cons, find_cons]
      split
      · rfl
      · exact ih

theorem find_eq_none {k : K} {es : List (K × V)} (h : ∀ e ∈ es, e.1 ≠ k) : find k es = none := by
  simp only [find, Option.map_eq_none_iff, List.find?_eq_none, decide_eq_true_eq]
  exact h

theorem mem_keys_of_find {k : K} {v : V} {es : List (K × V)} (h : find k es = some v) :
    k ∈ es.map Prod.fst := by
  obtain ⟨e, he, rfl⟩ := Option.map_eq_some_iff.mp h
  have hkey : e.1 = k := by simpa using List.find?_some he
  exact hkey ▸ List.mem_map_of_mem (List.mem_of_find?_eq_some he)

theorem Sorted.find_of_mem {es : List (K × V)} (h : Sorted es) {e : K × V} (he : e ∈ es) :
    find e.1 es = some e.2 := by
  induction es with
  | nil => cases he
  | cons e' es ih =>
      obtain ⟨hlt, hrest⟩ := List.pairwise_cons.mp h
      rw [find_cons]
      rcases List.mem_cons.mp he with rfl | he
      · rw [if_pos rfl]
      · rw [if_neg (ne_of_lt (hlt e he))]
        exact ih hrest he

/-- Keys of an upsert: the old ones and `k`. -/
theorem mem_upsert {k : K} {f : Option V → V} {es : List (K × V)} {e : K × V}
    (h : e ∈ upsert k f es) : e.1 = k ∨ e ∈ es := by
  induction es with
  | nil =>
      rw [List.mem_singleton.mp h]
      exact Or.inl rfl
  | cons e' es ih =>
      simp only [upsert] at h
      split at h
      · rcases List.mem_cons.mp h with rfl | h
        · exact Or.inr (List.mem_cons_self ..)
        · exact (ih h).imp_right (List.mem_cons_of_mem _)
      · split at h
        · rcases List.mem_cons.mp h with rfl | h
          · exact Or.inl rfl
          · exact Or.inr (List.mem_cons_of_mem _ h)
        · rcases List.mem_cons.mp h with rfl | h
          · exact Or.inl rfl
          · exact Or.inr h

theorem Sorted.upsert {es : List (K × V)} (h : Sorted es) (k : K) (f : Option V → V) :
    Sorted (upsert k f es) := by
  induction es with
  | nil => simp [Sorted, BPlusTree.upsert]
  | cons e es ih =>
      obtain ⟨hhead, htail⟩ := List.pairwise_cons.mp h
      simp only [BPlusTree.upsert]
      split
      · rename_i hlt
        refine List.pairwise_cons.mpr ⟨fun e' he' => ?_, ih htail⟩
        rcases mem_upsert he' with hk | hold
        · rw [hk]
          exact hlt
        · exact hhead e' hold
      · rename_i hnlt
        split
        · rename_i heq
          exact List.pairwise_cons.mpr ⟨fun e' he' => heq ▸ hhead e' he', htail⟩
        · rename_i hne
          have hlt : k < e.1 := lt_of_le_of_ne (not_lt.mp hnlt) (Ne.symm hne)
          refine List.pairwise_cons.mpr ⟨fun e' he' => ?_, h⟩
          rcases List.mem_cons.mp he' with rfl | hold
          · exact hlt
          · exact hlt.trans (hhead e' hold)

theorem find_upsert {es : List (K × V)} (h : Sorted es) (k k' : K) (f : Option V → V) :
    find k' (upsert k f es) = if k' = k then some (f (find k es)) else find k' es := by
  induction es with
  | nil =>
      simp only [upsert, find_cons, find_nil]
      by_cases hk : k' = k
      · simp [hk]
      · simp [hk, Ne.symm hk]
  | cons e es ih =>
      obtain ⟨hhead, htail⟩ := List.pairwise_cons.mp h
      simp only [upsert]
      split
      · rename_i hlt
        rw [find_cons, find_cons, find_cons, ih htail, if_neg hlt.ne]
        by_cases hk : k' = k
        · simp [hk, hlt.ne]
        · simp [hk]
      · rename_i hnlt
        split
        · rename_i heq
          rw [find_cons, find_cons, find_cons, if_pos heq]
          by_cases hk : k' = k
          · simp [hk]
          · simp [heq, Ne.symm hk, hk]
        · rename_i hne
          have hlt : k < e.1 := lt_of_le_of_ne (not_lt.mp hnlt) (Ne.symm hne)
          have habsent : find k (e :: es) = none := by
            refine find_eq_none fun e' he' => ?_
            rcases List.mem_cons.mp he' with rfl | hold
            · exact hne
            · exact (hlt.trans (hhead e' hold)).ne'
          rw [find_cons, habsent]
          by_cases hk : k' = k
          · simp [hk]
          · simp [hk, Ne.symm hk]

/-- Entries left of `k` are passed over. -/
theorem upsert_append_right {k : K} {f : Option V → V} {l : List (K × V)} (r : List (K × V))
    (h : ∀ e ∈ l, e.1 < k) : upsert k f (l ++ r) = l ++ upsert k f r := by
  induction l with
  | nil => rfl
  | cons e l ih =>
      rw [List.cons_append, upsert, if_pos (h e (List.mem_cons_self ..)),
        ih fun e' he' => h e' (List.mem_cons_of_mem _ he'), List.cons_append]

/-- Entries right of `k` are not reached. -/
theorem upsert_append_left {k : K} {f : Option V → V} (l : List (K × V)) {r : List (K × V)}
    (h : ∀ e ∈ r, k < e.1) : upsert k f (l ++ r) = upsert k f l ++ r := by
  induction l with
  | nil =>
      cases r with
      | nil => rfl
      | cons e r =>
          have hlt := h e (List.mem_cons_self ..)
          simp [upsert, hlt.not_gt, hlt.ne']
  | cons e l ih =>
      simp only [List.cons_append, upsert]
      split
      · rw [ih, List.cons_append]
      · split <;> rfl

/-- The place of a new key: before the first entry that is not below it. -/
def position (k : K) : List K → Nat
  | [] => 0
  | k' :: ks => if k' < k then position k ks + 1 else 0

theorem position_le_length (k : K) (ks : List K) : position k ks ≤ ks.length := by
  induction ks with
  | nil => exact le_refl _
  | cons k' ks ih =>
      rw [position]
      split
      · exact Nat.succ_le_succ ih
      · exact Nat.zero_le _

/-- When `k` is new, an upsert inserts one entry at the place of `k`. -/
theorem upsert_of_not_mem {k : K} {f : Option V → V} {es : List (K × V)}
    (h : k ∉ es.map Prod.fst) :
    upsert k f es = es.insertIdx (position k (es.map Prod.fst)) (k, f none) := by
  induction es with
  | nil => rfl
  | cons e es ih =>
      simp only [List.map_cons, List.mem_cons, not_or] at h
      simp only [upsert]
      split
      · rename_i hlt
        rw [ih h.2]
        simp [position, hlt]
      · rename_i hnlt
        rw [if_neg (Ne.symm h.1)]
        simp [position, hnlt]

/-- When entry `i` is that of `k`, an upsert changes its value. -/
theorem upsert_of_getElem? {k : K} {f : Option V → V} {es : List (K × V)} {i : Nat} {v : V}
    (hsorted : Sorted es) (h : es[i]? = some (k, v)) : upsert k f es = es.set i (k, f (some v)) := by
  induction es generalizing i with
  | nil => simp at h
  | cons e es ih =>
      obtain ⟨hhead, htail⟩ := List.pairwise_cons.mp hsorted
      cases i with
      | zero =>
          simp only [List.getElem?_cons_zero, Option.some.injEq] at h
          subst h
          simp [upsert]
      | succ i =>
          simp only [List.getElem?_cons_succ] at h
          have hlt : e.1 < k := hhead _ (List.mem_of_getElem? h)
          simp [upsert, hlt, ih htail h]

end Entries

/-! ### Trees -/

structure Leaf (K V : Type) where
  id : Nat
  entries : List (K × V)

/-- An inner node over children of type `T`. -/
structure Branch (K T : Type) where
  id : Nat
  first : T
  rest : List (K × T)

def Branch.children (t : Branch K T) : List T := t.first :: t.rest.map Prod.snd

def Branch.keys (t : Branch K T) : List K := t.rest.map Prod.fst

/-- Trees of depth `d`. -/
def Tree (K V : Type) : Nat → Type
  | 0 => Leaf K V
  | d + 1 => Branch K (Tree K V d)

/-- Collect from all children, from left to right. -/
def under (g : T → List E) : T → List (K × T) → List E
  | c, [] => g c
  | c, (_, c') :: rest => g c ++ under g c' rest

theorem under_append (g : T → List E) (c c' : T) (s : K) (l r : List (K × T)) :
    under g c (l ++ (s, c') :: r) = under g c l ++ under g c' r := by
  induction l generalizing c with
  | nil => rfl
  | cons p l ih =>
      rw [List.cons_append, under, ih, under, List.append_assoc]

theorem mem_under {g : T → List E} {c : T} {rest : List (K × T)} {x : E} :
    x ∈ under g c rest ↔ ∃ t ∈ c :: rest.map Prod.snd, x ∈ g t := by
  induction rest generalizing c with
  | nil => simp [under]
  | cons p rest ih =>
      rw [under, List.mem_append, ih, List.map_cons, List.exists_mem_cons_iff (p := _) (a := c)]

/-- Children without common elements. -/
theorem eq_of_nodup_under {g : T → List E} {c : T} {rest : List (K × T)}
    (h : (under g c rest).Nodup) : ∀ t ∈ c :: rest.map Prod.snd,
      (g t).Nodup ∧ ∀ t' ∈ c :: rest.map Prod.snd, ∀ x ∈ g t, x ∈ g t' → t' = t := by
  induction rest generalizing c with
  | nil =>
      intro t ht
      cases List.mem_singleton.mp ht
      exact ⟨h, fun t' ht' _ _ _ => List.mem_singleton.mp ht'⟩
  | cons p rest ih =>
      obtain ⟨hc, hrest, hdisjoint⟩ := List.nodup_append'.mp h
      have hapart : ∀ t ∈ p.2 :: rest.map Prod.snd, ∀ x ∈ g t, x ∉ g c := fun t ht x hx hx' =>
        hdisjoint hx' (mem_under.mpr ⟨t, ht, hx⟩)
      intro t ht
      rcases List.mem_cons.mp ht with rfl | htail
      · refine ⟨hc, fun t' ht' x hx hx' => ?_⟩
        rcases List.mem_cons.mp ht' with rfl | htail'
        · rfl
        · exact absurd hx (hapart t' htail' x hx')
      · refine ⟨(ih hrest t htail).1, fun t' ht' x hx hx' => ?_⟩
        rcases List.mem_cons.mp ht' with rfl | htail'
        · exact absurd hx' (hapart t htail x hx)
        · exact (ih hrest t htail).2 t' htail' x hx hx'

namespace Tree

def id : (d : Nat) → Tree K V d → Nat
  | 0, t => Leaf.id t
  | _ + 1, t => Branch.id t

/-- The labels of all nodes. -/
def ids : (d : Nat) → Tree K V d → List Nat
  | 0, t => [Leaf.id t]
  | d + 1, t => Branch.id t :: under (ids d) (Branch.first t) (Branch.rest t)

/-- The entries of all leaves, from left to right. -/
def entries : (d : Nat) → Tree K V d → List (K × V)
  | 0, t => Leaf.entries t
  | d + 1, t => under (entries d) (Branch.first t) (Branch.rest t)

/-- The leaves, from left to right. -/
def leaves : (d : Nat) → Tree K V d → List (Leaf K V)
  | 0, t => [t]
  | d + 1, t => under (leaves d) (Branch.first t) (Branch.rest t)

/-- The label of the leftmost leaf. -/
def firstLeaf : (d : Nat) → Tree K V d → Nat
  | 0, t => Leaf.id t
  | d + 1, t => firstLeaf d (Branch.first t)

/-- The entries are those of the leaves. -/
theorem flatMap_leaves : ∀ {d : Nat} (t : Tree K V d),
    (t.leaves d).flatMap Leaf.entries = t.entries d
  | 0, t => List.append_nil (Leaf.entries t)
  | d + 1, t => by
      have hunder : ∀ (rest : List (K × Tree K V d)) (c : Tree K V d),
          (under (leaves d) c rest).flatMap Leaf.entries = under (entries d) c rest := by
        intro rest
        induction rest with
        | nil => exact fun c => flatMap_leaves c
        | cons p rest ih =>
            intro c
            rw [under, List.flatMap_append, flatMap_leaves c, ih, under]
      exact hunder (Branch.rest t) (Branch.first t)

theorem leaves_sublist : ∀ {d : Nat} (t : Tree K V d),
    ((t.leaves d).map Leaf.id).Sublist (t.ids d)
  | 0, t => List.Sublist.refl _
  | d + 1, t => by
      have hunder : ∀ (rest : List (K × Tree K V d)) (c : Tree K V d),
          ((under (leaves d) c rest).map Leaf.id).Sublist (under (ids d) c rest) := by
        intro rest
        induction rest with
        | nil => exact fun c => leaves_sublist c
        | cons p rest ih =>
            intro c
            rw [under, List.map_append, under]
            exact (leaves_sublist c).append (ih p.2)
      exact (hunder (Branch.rest t) (Branch.first t)).cons _

theorem id_mem_ids : ∀ {d : Nat} (t : Tree K V d), t.id d ∈ t.ids d
  | 0, _ => List.mem_singleton_self _
  | _ + 1, _ => List.mem_cons_self ..

end Tree

section Search

variable [LinearOrder K]

/-- The child to search for `k`: the one before the first separator above `k`. -/
def route (k : K) : T → List (K × T) → T
  | c, [] => c
  | c, (s, c') :: rest => if k < s then c else route k c' rest

/-- The index of that child. -/
def slot (k : K) : List K → Nat
  | [] => 0
  | s :: ks => if k < s then 0 else slot k ks + 1

theorem getElem?_slot (k : K) (c : T) (rest : List (K × T)) :
    (c :: rest.map Prod.snd)[slot k (rest.map Prod.fst)]? = some (route k c rest) := by
  induction rest generalizing c with
  | nil => rfl
  | cons p rest ih =>
      simp only [List.map_cons, slot, route]
      split
      · rfl
      · rw [List.getElem?_cons_succ]
        exact ih p.2

theorem route_mem (k : K) (c : T) (rest : List (K × T)) :
    route k c rest ∈ c :: rest.map Prod.snd :=
  List.mem_of_getElem? (getElem?_slot k c rest)

/-- The leaf at the end of the route of `k`. -/
def Tree.leafOf (k : K) : (d : Nat) → Tree K V d → Leaf K V
  | 0, t => t
  | d + 1, t => leafOf k d (route k (Branch.first t) (Branch.rest t))

end Search

/-! ### Insertion -/

/-- What an insertion makes of a subtree: one tree, or two with a separator. -/
inductive Grown (K T : Type) where
  | one (t : T)
  | two (left : T) (sep : K) (right : T)

namespace Grown

/-- The trees of a result with the separators between them, before `rest`. -/
def graft : Grown K T → List (K × T) → T × List (K × T)
  | .one t, rest => (t, rest)
  | .two l s r, rest => (l, (s, r) :: rest)

/-- Collect from the trees of a result. -/
def under (g : T → List E) : Grown K T → List E
  | .one t => g t
  | .two l _ r => g l ++ g r

theorem under_graft_nil (g : T → List E) (grown : Grown K T) :
    BPlusTree.under g (grown.graft []).1 (grown.graft []).2 = grown.under g := by
  cases grown <;> rfl

theorem under_graft_cons (g : T → List E) (grown : Grown K T) (s : K) (c : T)
    (rest : List (K × T)) :
    BPlusTree.under g (grown.graft ((s, c) :: rest)).1 (grown.graft ((s, c) :: rest)).2 =
      grown.under g ++ BPlusTree.under g c rest := by
  cases grown with
  | one t => rfl
  | two l s' r => exact (List.append_assoc ..).symm

end Grown

/-- Where an array of `length` is cut in two. -/
def cut (length : Nat) : Nat := if length % 2 = 0 then length / 2 else length / 2 + 1

theorem cut_eq (n : Nat) : cut n = (n + 1) / 2 := by
  unfold cut
  split <;> omega

/-- A leaf with room for its entries, or cut in two; with the label counter. -/
def leafOrSplit (order n id : Nat) (es : List (K × V)) : Grown K (Leaf K V) × Nat :=
  if es.length < order then (.one ⟨id, es⟩, n)
  else
    match es.drop (cut (order - 1)) with
    | [] => (.one ⟨id, es⟩, n)
    | e :: right => (.two ⟨id, es.take (cut (order - 1))⟩ e.1 ⟨n + 1, e :: right⟩, n + 1)

/-- An inner node with room for its children, or cut in two: the middle
    separator moves up. -/
def innerOrSplit (order n id : Nat) (node : T × List (K × T)) : Grown K (Branch K T) × Nat :=
  if node.2.length < order then (.one ⟨id, node.1, node.2⟩, n)
  else
    match node.2.drop (cut order - 1) with
    | [] => (.one ⟨id, node.1, node.2⟩, n)
    | (s, c) :: right =>
        (.two ⟨id, node.1, node.2.take (cut order - 1)⟩ s ⟨n + 1, c, right⟩, n + 1)

theorem leafOrSplit_cases {order : Nat} (horder : 2 ≤ order) (n id : Nat) (es : List (K × V)) :
    (es.length < order ∧ leafOrSplit order n id es = (.one ⟨id, es⟩, n)) ∨
    (∃ l e r, es = l ++ e :: r ∧ l.length = cut (order - 1) ∧ order ≤ es.length ∧
      leafOrSplit order n id es = (.two ⟨id, l⟩ e.1 ⟨n + 1, e :: r⟩, n + 1)) := by
  unfold leafOrSplit
  split
  · rename_i hlt
    exact Or.inl ⟨hlt, rfl⟩
  · rename_i hfull
    have hcut : cut (order - 1) < es.length := by
      rw [cut_eq]
      omega
    split
    · rename_i hdrop
      have := List.drop_eq_nil_iff.mp hdrop
      omega
    · rename_i e r hdrop
      refine Or.inr ⟨es.take (cut (order - 1)), e, r, ?_, ?_, by omega, rfl⟩
      · rw [← hdrop, List.take_append_drop]
      · rw [List.length_take]
        omega

theorem innerOrSplit_cases {order : Nat} (horder : 2 ≤ order) (n id : Nat)
    (node : T × List (K × T)) :
    (node.2.length < order ∧ innerOrSplit order n id node = (.one ⟨id, node.1, node.2⟩, n)) ∨
    (∃ l s c r, node.2 = l ++ (s, c) :: r ∧ l.length = cut order - 1 ∧ order ≤ node.2.length ∧
      innerOrSplit order n id node =
        (.two ⟨id, node.1, l⟩ s ⟨n + 1, c, r⟩, n + 1)) := by
  unfold innerOrSplit
  split
  · rename_i hlt
    exact Or.inl ⟨hlt, rfl⟩
  · rename_i hfull
    have hcut : cut order - 1 < node.2.length := by
      rw [cut_eq]
      omega
    split
    · rename_i hdrop
      have := List.drop_eq_nil_iff.mp hdrop
      omega
    · rename_i s c r hdrop
      refine Or.inr ⟨node.2.take (cut order - 1), s, c, r, ?_, ?_, by omega, rfl⟩
      · rw [← hdrop, List.take_append_drop]
      · rw [List.length_take]
        omega

section Insert

variable [LinearOrder K]

/-- Put a result at the place of the child on the route of `k`. -/
def regraft (k : K) (g : Grown K T) : T → List (K × T) → T × List (K × T)
  | _, [] => g.graft []
  | c, (s, c') :: rest =>
      if k < s then g.graft ((s, c') :: rest)
      else (c, (s, (regraft k g c' rest).1) :: (regraft k g c' rest).2)

/-- Insert below the root: the result and the label counter after it. -/
def Tree.insert (order : Nat) (k : K) (f : Option V → V) (n : Nat) :
    (d : Nat) → Tree K V d → Grown K (Tree K V d) × Nat
  | 0, t => leafOrSplit order n (Leaf.id t) (upsert k f (Leaf.entries t))
  | d + 1, t =>
      let below := Tree.insert order k f n d (route k (Branch.first t) (Branch.rest t))
      innerOrSplit order below.2 (Branch.id t)
        (regraft k below.1 (Branch.first t) (Branch.rest t))

end Insert

/-! ### Order -/

section Order

variable [LinearOrder K]

/-- Children between separators: each child keeps `P` between the separators at
    its sides, which increase strictly. -/
def Between (P : WithBot K → WithTop K → T → Prop) :
    WithBot K → WithTop K → T → List (K × T) → Prop
  | lo, hi, c, [] => P lo hi c
  | lo, hi, c, (s, c') :: rest => P lo s c ∧ lo < s ∧ ↑s < hi ∧ Between P s hi c' rest

/-- The tree is ordered, with all keys in `[lo, hi)`. -/
def Tree.Ordered : (d : Nat) → WithBot K → WithTop K → Tree K V d → Prop
  | 0, lo, hi, t =>
      Sorted (Leaf.entries t) ∧ ∀ e ∈ Leaf.entries t, lo ≤ ↑e.1 ∧ ↑e.1 < hi
  | d + 1, lo, hi, t => Between (Tree.Ordered d) lo hi (Branch.first t) (Branch.rest t)

theorem between_append {P : WithBot K → WithTop K → T → Prop} {lo : WithBot K} {hi : WithTop K}
    {c c' : T} {s : K} {l r : List (K × T)} :
    Between P lo hi c (l ++ (s, c') :: r) ↔
      Between P lo s c l ∧ lo < ↑s ∧ ↑s < hi ∧ Between P s hi c' r := by
  induction l generalizing lo c with
  | nil => rfl
  | cons p l ih =>
      simp only [List.cons_append, Between, ih]
      constructor
      · rintro ⟨hp, hlo, hhi, hbetween, hlt, hs, hr⟩
        exact ⟨⟨hp, hlo, by exact_mod_cast hlt, hbetween⟩, hlo.trans hlt, hs, hr⟩
      · rintro ⟨⟨hp, hlo, hlt, hbetween⟩, -, hs, hr⟩
        have hlt' : p.1 < s := by exact_mod_cast hlt
        exact ⟨hp, hlo, (WithTop.coe_lt_coe.mpr hlt').trans hs, hbetween,
          by exact_mod_cast hlt', hs, hr⟩

/-- What a result has to keep for its place between `lo` and `hi`. -/
def Grown.Between (P : WithBot K → WithTop K → T → Prop) (lo : WithBot K) (hi : WithTop K) :
    Grown K T → Prop
  | .one t => P lo hi t
  | .two l s r => P lo s l ∧ lo < ↑s ∧ ↑s < hi ∧ P s hi r

theorem Grown.Between.graft {P : WithBot K → WithTop K → T → Prop} {lo : WithBot K}
    {hi : WithTop K} {g : Grown K T} (h : g.Between P lo hi) :
    BPlusTree.Between P lo hi (g.graft []).1 (g.graft []).2 := by
  cases g with
  | one t => exact h
  | two l s r => exact h

theorem Grown.Between.graft_cons {P : WithBot K → WithTop K → T → Prop} {lo : WithBot K}
    {hi : WithTop K} {g : Grown K T} {s : K} {c : T} {rest : List (K × T)}
    (h : g.Between P lo s) (hlo : lo < ↑s) (hhi : ↑s < hi)
    (hrest : BPlusTree.Between P s hi c rest) :
    BPlusTree.Between P lo hi (g.graft ((s, c) :: rest)).1 (g.graft ((s, c) :: rest)).2 := by
  cases g with
  | one t => exact ⟨h, hlo, hhi, hrest⟩
  | two l s' r =>
      obtain ⟨hl, hlo', hs', hr⟩ := h
      have hlt : s' < s := by exact_mod_cast hs'
      exact ⟨hl, hlo', (WithTop.coe_lt_coe.mpr hlt).trans hhi, hr, by exact_mod_cast hlt, hhi,
        hrest⟩

/-- The child on the route keeps `P` between bounds that enclose `k`, and any
    result that does so too can take its place. -/
theorem Between.regraft {P : WithBot K → WithTop K → T → Prop} {k : K} {lo : WithBot K}
    {hi : WithTop K} {c : T} {rest : List (K × T)} (h : Between P lo hi c rest)
    (hlo : lo ≤ ↑k) (hhi : ↑k < hi) :
    ∃ lo' hi', lo' ≤ ↑k ∧ ↑k < hi' ∧ P lo' hi' (route k c rest) ∧
      ∀ g : Grown K T, g.Between P lo' hi' →
        Between P lo hi (BPlusTree.regraft k g c rest).1 (BPlusTree.regraft k g c rest).2 := by
  induction rest generalizing lo c with
  | nil => exact ⟨lo, hi, hlo, hhi, h, fun g hg => hg.graft⟩
  | cons p rest ih =>
      obtain ⟨s, c'⟩ := p
      obtain ⟨hc, hlos, hshi, hrest⟩ := h
      by_cases hk : k < s
      · refine ⟨lo, s, hlo, WithTop.coe_lt_coe.mpr hk, ?_, fun g hg => ?_⟩
        · rw [route, if_pos hk]
          exact hc
        · rw [BPlusTree.regraft, if_pos hk]
          exact hg.graft_cons hlos hshi hrest
      · obtain ⟨lo', hi', hlo', hhi', hroute, hgraft⟩ :=
          ih hrest (WithBot.coe_le_coe.mpr (not_lt.mp hk))
        refine ⟨lo', hi', hlo', hhi', ?_, fun g hg => ?_⟩
        · rw [route, if_neg hk]
          exact hroute
        · rw [BPlusTree.regraft, if_neg hk]
          exact ⟨hc, hlos, hshi, hgraft g hg⟩

/-- Insertion keeps the order. -/
theorem Tree.Ordered.insert {order : Nat} (horder : 3 ≤ order) (k : K) (f : Option V → V)
    (n : Nat) : ∀ {d : Nat} {lo : WithBot K} {hi : WithTop K} {t : Tree K V d},
    t.Ordered d lo hi → lo ≤ ↑k → ↑k < hi →
      (Tree.insert order k f n d t).1.Between (Tree.Ordered d) lo hi
  | 0, lo, hi, t, ⟨hsorted, hbounds⟩, hlo, hhi => by
      have hbounds' : ∀ e ∈ upsert k f (Leaf.entries t), lo ≤ ↑e.1 ∧ ↑e.1 < hi := by
        intro e he
        rcases mem_upsert he with hk | hold
        · rw [hk]
          exact ⟨hlo, hhi⟩
        · exact hbounds e hold
      have hsorted' := hsorted.upsert k f
      rcases leafOrSplit_cases (by omega : 2 ≤ order) n (Leaf.id t) (upsert k f (Leaf.entries t)) with
        ⟨-, heq⟩ | ⟨l, e, r, hes, hlen, -, heq⟩
      · rw [Tree.insert, heq]
        exact ⟨hsorted', hbounds'⟩
      · rw [Tree.insert, heq]
        rw [hes] at hsorted' hbounds'
        obtain ⟨hl, hr, hcross⟩ := List.pairwise_append.mp hsorted'
        -- the left half is not empty, so the separator is above some key
        obtain ⟨e₀, he₀⟩ : ∃ e₀, e₀ ∈ l := by
          refine List.exists_mem_of_length_pos ?_
          rw [hlen, cut_eq]
          omega
        have hlt : e₀.1 < e.1 := hcross e₀ he₀ e (List.mem_cons_self ..)
        have hmem : ∀ e' ∈ l, e' ∈ l ++ e :: r := fun e' he' => List.mem_append_left _ he'
        have hmem' : ∀ e' ∈ e :: r, e' ∈ l ++ e :: r := fun e' he' => List.mem_append_right _ he'
        refine ⟨⟨hl, fun e' he' => ⟨(hbounds' e' (hmem e' he')).1, ?_⟩⟩, ?_, ?_, hr,
          fun e' he' => ⟨?_, (hbounds' e' (hmem' e' he')).2⟩⟩
        · exact WithTop.coe_lt_coe.mpr (hcross e' he' e (List.mem_cons_self ..))
        · exact (hbounds' e₀ (hmem e₀ he₀)).1.trans_lt (WithBot.coe_lt_coe.mpr hlt)
        · exact (hbounds' e (hmem' e (List.mem_cons_self ..))).2
        · rcases List.mem_cons.mp he' with rfl | htail
          · exact le_refl _
          · exact WithBot.coe_le_coe.mpr ((List.pairwise_cons.mp hr).1 e' htail).le
  | d + 1, lo, hi, t, h, hlo, hhi => by
      obtain ⟨lo', hi', hlo', hhi', hroute, hgraft⟩ := Between.regraft h hlo hhi
      have hnode := hgraft _ (Tree.Ordered.insert horder k f n hroute hlo' hhi')
      rw [Tree.insert]
      rcases innerOrSplit_cases (by omega : 2 ≤ order) _ (Branch.id t) (BPlusTree.regraft k
        (Tree.insert order k f n d (route k (Branch.first t) (Branch.rest t))).1 (Branch.first t)
          (Branch.rest t)) with ⟨-, heq⟩ | ⟨l, s, c, r, hrest, -, -, heq⟩
      · rw [heq]
        exact hnode
      · rw [heq]
        rw [hrest] at hnode
        exact between_append.mp hnode

theorem Between.bounds {g : T → List (K × V)} {P : WithBot K → WithTop K → T → Prop}
    (hP : ∀ lo hi t, P lo hi t → ∀ e ∈ g t, lo ≤ ↑e.1 ∧ ↑e.1 < hi)
    {lo : WithBot K} {hi : WithTop K} {c : T} {rest : List (K × T)} (h : Between P lo hi c rest) :
    ∀ e ∈ under g c rest, lo ≤ ↑e.1 ∧ ↑e.1 < hi := by
  induction rest generalizing lo c with
  | nil => exact hP lo hi c h
  | cons p rest ih =>
      obtain ⟨hc, hlo, hhi, hrest⟩ := h
      intro e he
      rcases List.mem_append.mp he with hleft | hright
      · obtain ⟨hl, hr⟩ := hP _ _ _ hc e hleft
        exact ⟨hl, hr.trans hhi⟩
      · obtain ⟨hl, hr⟩ := ih hrest e hright
        exact ⟨hlo.le.trans hl, hr⟩

/-- The keys of an ordered tree are within its bounds. -/
theorem Tree.Ordered.bounds : ∀ {d : Nat} {lo : WithBot K} {hi : WithTop K} {t : Tree K V d},
    t.Ordered d lo hi → ∀ e ∈ t.entries d, lo ≤ ↑e.1 ∧ ↑e.1 < hi
  | 0, _, _, _, h => h.2
  | d + 1, _, _, _, h =>
      Between.bounds (P := Tree.Ordered d) (fun _ _ _ => Tree.Ordered.bounds) h

theorem Between.sorted {d : Nat} (hsorted : ∀ {lo : WithBot K} {hi : WithTop K} {t : Tree K V d},
      t.Ordered d lo hi → Sorted (t.entries d))
    {lo : WithBot K} {hi : WithTop K} {c : Tree K V d} {rest : List (K × Tree K V d)}
    (h : Between (Tree.Ordered d) lo hi c rest) : Sorted (under (Tree.entries d) c rest) := by
  induction rest generalizing lo c with
  | nil => exact hsorted h
  | cons p rest ih =>
      obtain ⟨hc, -, -, hrest⟩ := h
      refine List.pairwise_append.mpr ⟨hsorted hc, ih hrest, fun e he e' he' => ?_⟩
      have hleft := (hc.bounds e he).2
      have hright := (hrest.bounds (fun _ _ _ => Tree.Ordered.bounds) e' he').1
      exact (WithTop.coe_lt_coe.mp hleft).trans_le (WithBot.coe_le_coe.mp hright)

/-- An ordered tree has its entries in order. -/
theorem Tree.Ordered.sorted : ∀ {d : Nat} {lo : WithBot K} {hi : WithTop K} {t : Tree K V d},
    t.Ordered d lo hi → Sorted (t.entries d)
  | 0, _, _, _, h => h.1
  | _ + 1, _, _, _, h => Between.sorted Tree.Ordered.sorted h

/-- The child on the route keeps `P` between some bounds. -/
theorem Between.route {P : WithBot K → WithTop K → T → Prop} {lo : WithBot K} {hi : WithTop K}
    {c : T} {rest : List (K × T)} (h : Between P lo hi c rest) (k : K) :
    ∃ lo' hi', P lo' hi' (route k c rest) := by
  induction rest generalizing lo c with
  | nil => exact ⟨lo, hi, h⟩
  | cons p rest ih =>
      rw [BPlusTree.route]
      split
      · exact ⟨lo, p.1, h.1⟩
      · exact ih h.2.2.2

theorem Between.exists {P : WithBot K → WithTop K → T → Prop} {lo : WithBot K} {hi : WithTop K}
    {c : T} {rest : List (K × T)} (h : Between P lo hi c rest) :
    ∀ t ∈ c :: rest.map Prod.snd, ∃ lo' hi', P lo' hi' t := by
  induction rest generalizing lo c with
  | nil =>
      intro t ht
      cases List.mem_singleton.mp ht
      exact ⟨lo, hi, h⟩
  | cons p rest ih => exact List.forall_mem_cons.mpr ⟨⟨lo, p.1, h.1⟩, ih h.2.2.2⟩

theorem Between.first {P : WithBot K → WithTop K → T → Prop} {lo : WithBot K} {hi : WithTop K}
    {c : T} {rest : List (K × T)} (h : Between P lo hi c rest) : ∃ hi', P lo hi' c := by
  cases rest with
  | nil => exact ⟨hi, h⟩
  | cons p rest => exact ⟨p.1, h.1⟩

/-- The children at the two sides of a separator. -/
theorem Between.sides {P : WithBot K → WithTop K → T → Prop} {lo : WithBot K} {hi : WithTop K}
    {c : T} {rest : List (K × T)} (h : Between P lo hi c rest) {i : Nat} {p : K × T}
    (hi' : rest[i]? = some p) :
    ∃ l lo' hi', (c :: rest.map Prod.snd)[i]? = some l ∧ P lo' p.1 l ∧ P p.1 hi' p.2 := by
  induction rest generalizing lo c i with
  | nil => simp at hi'
  | cons q rest ih =>
      obtain ⟨hc, -, -, hrest⟩ := h
      cases i with
      | zero =>
          simp only [List.getElem?_cons_zero, Option.some.injEq] at hi'
          subst hi'
          obtain ⟨hi', hq⟩ := hrest.first
          exact ⟨c, lo, hi', rfl, hc, hq⟩
      | succ i => exact ih hrest hi'

/-- The entries on the route are the ones an upsert of `k` changes. -/
theorem Between.entries_regraft {d : Nat} {k : K} {f : Option V → V} {lo : WithBot K}
    {hi : WithTop K} {c : Tree K V d} {rest : List (K × Tree K V d)} {g : Grown K (Tree K V d)}
    (h : Between (Tree.Ordered d) lo hi c rest)
    (hg : g.under (Tree.entries d) = upsert k f ((BPlusTree.route k c rest).entries d)) :
    under (Tree.entries d) (BPlusTree.regraft k g c rest).1 (BPlusTree.regraft k g c rest).2 =
      upsert k f (under (Tree.entries d) c rest) := by
  induction rest generalizing lo c with
  | nil =>
      rw [BPlusTree.regraft, Grown.under_graft_nil, hg]
      rfl
  | cons p rest ih =>
      obtain ⟨s, c'⟩ := p
      obtain ⟨hc, -, -, hrest⟩ := h
      by_cases hk : k < s
      · rw [BPlusTree.route, if_pos hk] at hg
        rw [BPlusTree.regraft, if_pos hk, Grown.under_graft_cons, hg, under, upsert_append_left]
        intro e he
        have hright := (hrest.bounds (fun _ _ _ => Tree.Ordered.bounds) e he).1
        exact hk.trans_le (WithBot.coe_le_coe.mp hright)
      · rw [BPlusTree.route, if_neg hk] at hg
        rw [BPlusTree.regraft, if_neg hk, under, ih hrest hg, under, upsert_append_right]
        intro e he
        exact (WithTop.coe_lt_coe.mp (hc.bounds e he).2).trans_le (not_lt.mp hk)

/-- Insertion is an upsert of the entries. -/
theorem Tree.Ordered.entries_insert {order : Nat} (horder : 3 ≤ order) (k : K) (f : Option V → V)
    (n : Nat) : ∀ {d : Nat} {lo : WithBot K} {hi : WithTop K} {t : Tree K V d},
    t.Ordered d lo hi →
      (Tree.insert order k f n d t).1.under (Tree.entries d) = upsert k f (t.entries d)
  | 0, lo, hi, t, h => by
      rw [Tree.insert]
      rcases leafOrSplit_cases (by omega : 2 ≤ order) n (Leaf.id t)
        (upsert k f (Leaf.entries t)) with ⟨-, heq⟩ | ⟨l, e, r, hes, -, -, heq⟩
      · rw [heq]
        rfl
      · rw [heq]
        exact hes.symm
  | d + 1, lo, hi, t, h => by
      obtain ⟨lo', hi', hroute⟩ := Between.route h k
      have hnode := Between.entries_regraft h (Tree.Ordered.entries_insert horder k f n hroute)
      rw [Tree.insert]
      rcases innerOrSplit_cases (by omega : 2 ≤ order) _ (Branch.id t) (BPlusTree.regraft k
        (Tree.insert order k f n d (BPlusTree.route k (Branch.first t) (Branch.rest t))).1
          (Branch.first t) (Branch.rest t)) with ⟨-, heq⟩ | ⟨l, s, c, r, hrest, -, -, heq⟩
      · rw [heq]
        exact hnode
      · rw [heq]
        rw [hrest, under_append] at hnode
        exact hnode

theorem Between.find_route {d : Nat} {k : K} {lo : WithBot K} {hi : WithTop K}
    {c : Tree K V d} {rest : List (K × Tree K V d)}
    (h : Between (Tree.Ordered d) lo hi c rest) :
    find k (under (Tree.entries d) c rest) = find k ((BPlusTree.route k c rest).entries d) := by
  induction rest generalizing lo c with
  | nil => rfl
  | cons p rest ih =>
      obtain ⟨hc, -, -, hrest⟩ := h
      rw [under, find_append, BPlusTree.route]
      split
      · rename_i hk
        have hnone : find k (under (Tree.entries d) p.2 rest) = none := by
          refine find_eq_none fun e he => ?_
          have hright := (hrest.bounds (fun _ _ _ => Tree.Ordered.bounds) e he).1
          exact (hk.trans_le (WithBot.coe_le_coe.mp hright)).ne'
        rw [hnone, Option.or_none]
      · rename_i hk
        have hnone : find k (c.entries d) = none := by
          refine find_eq_none fun e he => ?_
          exact ((WithTop.coe_lt_coe.mp (hc.bounds e he).2).trans_le (not_lt.mp hk)).ne
        rw [hnone, Option.none_or, ih hrest]

/-- Following the route of `k` to a leaf finds what the whole tree holds of `k`. -/
theorem Tree.Ordered.find_leafOf (k : K) : ∀ {d : Nat} {lo : WithBot K} {hi : WithTop K}
    {t : Tree K V d}, t.Ordered d lo hi → find k (t.leafOf k d).entries = find k (t.entries d)
  | 0, _, _, _, _ => rfl
  | d + 1, _, _, t, h => by
      obtain ⟨lo', hi', hroute⟩ := Between.route h k
      rw [Tree.leafOf, Tree.Ordered.find_leafOf k hroute]
      exact (Between.find_route h).symm

end Order

/-! ### Keys and children of a node after an insertion -/

section Arrays

variable [LinearOrder K] {A : Type}

/-- The tree that keeps the label of the one inserted into. -/
def Grown.head : Grown K T → T
  | .one t => t
  | .two l _ _ => l

theorem regraft_one_keys (k : K) (t c : T) (rest : List (K × T)) :
    (regraft k (.one t) c rest).2.map Prod.fst = rest.map Prod.fst := by
  induction rest generalizing c with
  | nil => rfl
  | cons p rest ih =>
      rw [regraft]
      split
      · rfl
      · simp only [List.map_cons, ih]

theorem regraft_one_children (g : T → A) {k : K} {t c : T} {rest : List (K × T)}
    (h : g t = g (route k c rest)) :
    ((regraft k (.one t) c rest).1 :: (regraft k (.one t) c rest).2.map Prod.snd).map g =
      (c :: rest.map Prod.snd).map g := by
  induction rest generalizing c with
  | nil =>
      simp only [regraft, Grown.graft, List.map_nil, List.map_cons, h]
      rfl
  | cons p rest ih =>
      rw [route] at h
      rw [regraft]
      split
      · rename_i hk
        rw [if_pos hk] at h
        simp only [Grown.graft, List.map_cons, h]
      · rename_i hk
        rw [if_neg hk] at h
        have := ih h
        simp only [List.map_cons] at this ⊢
        rw [this]

theorem regraft_two_keys (k s : K) (l r c : T) (rest : List (K × T)) :
    (regraft k (.two l s r) c rest).2.map Prod.fst =
      (rest.map Prod.fst).insertIdx (slot k (rest.map Prod.fst)) s := by
  induction rest generalizing c with
  | nil => rfl
  | cons p rest ih =>
      rw [regraft]
      simp only [List.map_cons, slot]
      split
      · rfl
      · simp only [List.map_cons, ih, List.insertIdx_succ_cons]

theorem regraft_two_children (g : T → A) {k s : K} {l r c : T} {rest : List (K × T)}
    (h : g l = g (route k c rest)) :
    ((regraft k (.two l s r) c rest).1 ::
        (regraft k (.two l s r) c rest).2.map Prod.snd).map g =
      ((c :: rest.map Prod.snd).map g).insertIdx (slot k (rest.map Prod.fst) + 1) (g r) := by
  induction rest generalizing c with
  | nil =>
      simp only [regraft, Grown.graft, List.map_nil, List.map_cons, h, slot]
      rfl
  | cons p rest ih =>
      rw [route] at h
      rw [regraft]
      simp only [List.map_cons, slot]
      split
      · rename_i hk
        rw [if_pos hk] at h
        simp only [Grown.graft, List.map_cons, h]
        rfl
      · rename_i hk
        rw [if_neg hk] at h
        have := ih h
        simp only [List.map_cons, List.insertIdx_succ_cons] at this ⊢
        rw [this]

theorem Between.lo_lt {P : WithBot K → WithTop K → T → Prop} {lo : WithBot K} {hi : WithTop K}
    {c : T} {rest : List (K × T)} (h : Between P lo hi c rest) : ∀ p ∈ rest, lo < ↑p.1 := by
  induction rest generalizing lo c with
  | nil => simp
  | cons q rest ih =>
      obtain ⟨-, hlo, -, hrest⟩ := h
      refine List.forall_mem_cons.mpr ⟨hlo, fun p hp => ?_⟩
      exact hlo.trans (ih hrest p hp)

theorem Between.keys_pairwise {P : WithBot K → WithTop K → T → Prop} {lo : WithBot K}
    {hi : WithTop K} {c : T} {rest : List (K × T)} (h : Between P lo hi c rest) :
    (rest.map Prod.fst).Pairwise (· < ·) := by
  induction rest generalizing lo c with
  | nil => exact List.Pairwise.nil
  | cons p rest ih =>
      obtain ⟨-, -, -, hrest⟩ := h
      refine List.pairwise_cons.mpr ⟨fun k hk => ?_, ih hrest⟩
      obtain ⟨q, hq, rfl⟩ := List.mem_map.mp hk
      exact_mod_cast hrest.lo_lt q hq

theorem mem_regraft_two (k s : K) (l r c : T) (rest : List (K × T)) :
    (s, r) ∈ (regraft k (.two l s r) c rest).2 := by
  induction rest generalizing c with
  | nil => exact List.mem_singleton_self _
  | cons p rest ih =>
      rw [regraft]
      split
      · exact List.mem_cons_self ..
      · exact List.mem_cons_of_mem _ (ih p.2)

theorem head_mem_regraft (k : K) (g : Grown K T) (c : T) (rest : List (K × T)) :
    g.head ∈ (regraft k g c rest).1 :: (regraft k g c rest).2.map Prod.snd := by
  induction rest generalizing c with
  | nil => cases g <;> exact List.mem_cons_self ..
  | cons p rest ih =>
      rw [regraft]
      split
      · cases g <;> exact List.mem_cons_self ..
      · exact List.mem_cons_of_mem _ (ih p.2)

/-- A new separator belongs right after the child that was split. -/
theorem position_eq_slot {P : WithBot K → WithTop K → T → Prop} {k s : K} {l r c : T}
    {rest : List (K × T)} {lo : WithBot K} {hi : WithTop K}
    (h : Between P lo hi (regraft k (.two l s r) c rest).1 (regraft k (.two l s r) c rest).2) :
    position s (rest.map Prod.fst) = slot k (rest.map Prod.fst) := by
  induction rest generalizing lo c with
  | nil => rfl
  | cons p rest ih =>
      rw [regraft] at h
      simp only [List.map_cons, position, slot]
      split at h
      · rename_i hk
        have hlt : s < p.1 := by exact_mod_cast h.2.2.2.2.1
        rw [if_pos hk, if_neg hlt.not_gt]
      · rename_i hk
        have hlt : p.1 < s := by
          exact_mod_cast Between.lo_lt h.2.2.2 _ (mem_regraft_two k s l r p.2 rest)
        rw [if_neg hk, if_pos hlt, ih h.2.2.2]

theorem Tree.id_insert {order : Nat} (horder : 2 ≤ order) (k : K) (f : Option V → V) (n : Nat) :
    ∀ {d : Nat} (t : Tree K V d), (Tree.insert order k f n d t).1.head.id d = t.id d
  | 0, t => by
      rw [Tree.insert]
      rcases leafOrSplit_cases horder n (Leaf.id t) (upsert k f (Leaf.entries t)) with
        ⟨-, heq⟩ | ⟨l, e, r, -, -, -, heq⟩ <;> rw [heq] <;> rfl
  | d + 1, t => by
      rw [Tree.insert]
      rcases innerOrSplit_cases horder _ (Branch.id t) (regraft k
        (Tree.insert order k f n d (route k (Branch.first t) (Branch.rest t))).1
          (Branch.first t) (Branch.rest t)) with ⟨-, heq⟩ | ⟨l, s, c, r, -, -, -, heq⟩ <;>
        rw [heq] <;> rfl

theorem regraft_fst {A : Type} (g : T → A) {k : K} {grown : Grown K T} {c : T}
    {rest : List (K × T)} (h : g grown.head = g (route k c rest)) :
    g (regraft k grown c rest).1 = g c := by
  cases rest with
  | nil => cases grown <;> exact h
  | cons p rest =>
      rw [route] at h
      rw [regraft]
      split
      · rename_i hk
        rw [if_pos hk] at h
        cases grown <;> exact h
      · rfl

/-- Insertion keeps the leftmost leaf. -/
theorem Tree.firstLeaf_insert {order : Nat} (horder : 2 ≤ order) (k : K) (f : Option V → V)
    (n : Nat) : ∀ {d : Nat} (t : Tree K V d),
      (Tree.insert order k f n d t).1.head.firstLeaf d = t.firstLeaf d
  | 0, t => Tree.id_insert horder k f n t
  | d + 1, t => by
      have hfirst := regraft_fst (Tree.firstLeaf d)
        (Tree.firstLeaf_insert horder k f n (route k (Branch.first t) (Branch.rest t)))
      rw [Tree.insert]
      rcases innerOrSplit_cases horder _ (Branch.id t) (regraft k
        (Tree.insert order k f n d (route k (Branch.first t) (Branch.rest t))).1
          (Branch.first t) (Branch.rest t)) with ⟨-, heq⟩ | ⟨l, s, c, r, -, -, -, heq⟩
      · rw [heq]
        exact hfirst
      · rw [heq]
        exact hfirst

end Arrays

/-! ### Siblings that know the leaf after them -/

/-- Every child keeps `R` with the leftmost leaf of the next child, the last one
    with `succ`. -/
def Linked (R : Option Nat → T → Prop) (firstLeaf : T → Nat) (succ : Option Nat) :
    T → List (K × T) → Prop
  | c, [] => R succ c
  | c, (_, c') :: rest => R (some (firstLeaf c')) c ∧ Linked R firstLeaf succ c' rest

/-- The same for the trees of a result. -/
def Grown.Linked (R : Option Nat → T → Prop) (firstLeaf : T → Nat) (succ : Option Nat) :
    Grown K T → Prop
  | .one t => R succ t
  | .two l _ r => R (some (firstLeaf r)) l ∧ R succ r

section Siblings

variable {R R' : Option Nat → T → Prop} {firstLeaf : T → Nat} {succ : Option Nat}

theorem Linked.imp {c : T} {rest : List (K × T)} (h : Linked R firstLeaf succ c rest)
    (himp : ∀ succ t, t ∈ c :: rest.map Prod.snd → R succ t → R' succ t) :
    Linked R' firstLeaf succ c rest := by
  induction rest generalizing c with
  | nil => exact himp _ _ (List.mem_cons_self ..) h
  | cons p rest ih =>
      exact ⟨himp _ _ (List.mem_cons_self ..) h.1,
        ih h.2 fun succ t ht => himp succ t (List.mem_cons_of_mem _ ht)⟩

theorem Linked.exists {c : T} {rest : List (K × T)} (h : Linked R firstLeaf succ c rest) :
    ∀ t ∈ c :: rest.map Prod.snd, ∃ succ, R succ t := by
  induction rest generalizing c with
  | nil =>
      intro t ht
      cases List.mem_singleton.mp ht
      exact ⟨succ, h⟩
  | cons p rest ih =>
      refine List.forall_mem_cons.mpr ⟨⟨_, h.1⟩, ih h.2⟩

theorem linked_append {c c' : T} {s : K} {l r : List (K × T)} :
    Linked R firstLeaf succ c (l ++ (s, c') :: r) ↔
      Linked R firstLeaf (some (firstLeaf c')) c l ∧ Linked R firstLeaf succ c' r := by
  induction l generalizing c with
  | nil => rfl
  | cons p l ih =>
      rw [List.cons_append, Linked, ih, Linked, and_assoc]

/-- The child on a route can be replaced by a result with the same leftmost
    leaf, if the other children are not disturbed. -/
theorem Linked.regraft [LinearOrder K] {ids : T → List Nat} {k : K} {c : T} {rest : List (K × T)}
    (h : Linked R firstLeaf succ c rest) (hnodup : (under ids c rest).Nodup) :
    ∃ succ', R succ' (route k c rest) ∧ ∀ (R' : Option Nat → T → Prop) (g : Grown K T),
      (∀ succ t, t ∈ c :: rest.map Prod.snd → (ids t).Disjoint (ids (route k c rest)) →
        R succ t → R' succ t) →
      g.Linked R' firstLeaf succ' → firstLeaf g.head = firstLeaf (route k c rest) →
      Linked R' firstLeaf succ (regraft k g c rest).1 (regraft k g c rest).2 := by
  induction rest generalizing c with
  | nil =>
      refine ⟨succ, h, fun R' g _ hg _ => ?_⟩
      cases g <;> exact hg
  | cons p rest ih =>
      obtain ⟨s, c'⟩ := p
      obtain ⟨hc, hrest⟩ := h
      obtain ⟨-, hnodup', hdisjoint⟩ := List.nodup_append'.mp hnodup
      by_cases hk : k < s
      · rw [route, if_pos hk]
        refine ⟨some (firstLeaf c'), hc, fun R' g hother hg _ => ?_⟩
        rw [BPlusTree.regraft, if_pos hk]
        have hright : Linked R' firstLeaf succ c' rest := by
          refine hrest.imp fun succ t ht => hother succ t (List.mem_cons_of_mem _ ht) ?_
          intro i hi hi'
          exact hdisjoint hi' (mem_under.mpr ⟨t, ht, hi⟩)
        cases g with
        | one t => exact ⟨hg, hright⟩
        | two l s' r => exact ⟨hg.1, hg.2, hright⟩
      · rw [route, if_neg hk]
        obtain ⟨succ', hroute, hgraft⟩ := ih hrest hnodup'
        refine ⟨succ', hroute, fun R' g hother hg hfirst => ?_⟩
        rw [BPlusTree.regraft, if_neg hk]
        refine ⟨?_, hgraft R' g (fun succ t ht => hother succ t (List.mem_cons_of_mem _ ht)) hg
          hfirst⟩
        rw [regraft_fst firstLeaf hfirst]
        refine hother _ c (List.mem_cons_self ..) ?_ hc
        intro i hi hi'
        exact hdisjoint hi (mem_under.mpr ⟨_, route_mem k c' rest, hi'⟩)

end Siblings

/-! ### Occupancy -/

/-- The root has at least `least` keys, every node below it at least half of
    what fits, less one. -/
def Tree.Occupied (order least : Nat) : (d : Nat) → Tree K V d → Prop
  | 0, t => least ≤ (Leaf.entries t).length ∧ (Leaf.entries t).length < order
  | d + 1, t => least ≤ (Branch.rest t).length ∧ (Branch.rest t).length < order ∧
      ∀ c ∈ Branch.children t, Tree.Occupied order (order / 2 - 1) d c

section Occupancy

variable [LinearOrder K]

theorem length_upsert (k : K) (f : Option V → V) (es : List (K × V)) :
    (upsert k f es).length = es.length ∨ (upsert k f es).length = es.length + 1 := by
  induction es with
  | nil => exact Or.inr rfl
  | cons e es ih =>
      simp only [upsert]
      split
      · simp only [List.length_cons]
        omega
      · split <;> simp

theorem length_regraft (k : K) (g : Grown K T) (c : T) (rest : List (K × T)) :
    (regraft k g c rest).2.length = rest.length ∨
      (regraft k g c rest).2.length = rest.length + 1 := by
  induction rest generalizing c with
  | nil => cases g <;> simp [regraft, Grown.graft]
  | cons p rest ih =>
      rw [regraft]
      split
      · cases g <;> simp [Grown.graft]
      · simp only [List.length_cons]
        have := ih p.2
        omega

/-- One tree with `least` keys in its root, or two halves. -/
def Grown.Occupied (order least d : Nat) : Grown K (Tree K V d) → Prop
  | .one t => t.Occupied order least d
  | .two l _ r => l.Occupied order (order / 2 - 1) d ∧ r.Occupied order (order / 2 - 1) d

theorem forall_regraft {P : T → Prop} {k : K} {g : Grown K T} {c : T} {rest : List (K × T)}
    (hg : ∀ t ∈ g.under fun t => [t], P t) (h : ∀ t ∈ c :: rest.map Prod.snd, P t) :
    ∀ t ∈ (regraft k g c rest).1 :: (regraft k g c rest).2.map Prod.snd, P t := by
  induction rest generalizing c with
  | nil => cases g <;> simpa [regraft, Grown.graft, Grown.under] using hg
  | cons p rest ih =>
      obtain ⟨hc, hrest⟩ := List.forall_mem_cons.mp h
      rw [regraft]
      split
      · cases g with
        | one t =>
            exact List.forall_mem_cons.mpr ⟨hg t (List.mem_singleton_self t), hrest⟩
        | two l s r =>
            refine List.forall_mem_cons.mpr ⟨hg l (List.mem_cons_self ..), ?_⟩
            exact List.forall_mem_cons.mpr ⟨hg r (List.mem_cons_of_mem _ (List.mem_cons_self ..)),
              hrest⟩
      · exact List.forall_mem_cons.mpr ⟨hc, ih hrest⟩

/-- Insertion keeps the occupancy. -/
theorem Tree.Occupied.insert {order : Nat} (horder : 3 ≤ order) (k : K) (f : Option V → V)
    (n : Nat) : ∀ {d least : Nat} {t : Tree K V d}, t.Occupied order least d →
      (Tree.insert order k f n d t).1.Occupied order least d
  | 0, least, t, ⟨hmin, hmax⟩ => by
      rw [Tree.insert]
      have hlen := length_upsert k f (Leaf.entries t)
      rcases leafOrSplit_cases (by omega : 2 ≤ order) n (Leaf.id t)
        (upsert k f (Leaf.entries t)) with ⟨hlt, heq⟩ | ⟨l, e, r, hes, hl, hge, heq⟩
      · rw [heq]
        exact ⟨by simp only; omega, hlt⟩
      · rw [heq]
        have hlr : (upsert k f (Leaf.entries t)).length = l.length + (r.length + 1) := by
          rw [hes, List.length_append, List.length_cons]
        rw [cut_eq] at hl
        refine ⟨⟨?_, ?_⟩, ⟨?_, ?_⟩⟩ <;> simp only [List.length_cons] <;> omega
  | d + 1, least, t, ⟨hmin, hmax, hchildren⟩ => by
      rw [Tree.insert]
      generalize hbelow : Tree.insert order k f n d
        (route k (Branch.first t) (Branch.rest t)) = below
      have hlen := length_regraft k below.1 (Branch.first t) (Branch.rest t)
      have hall := forall_regraft (k := k) (g := below.1)
        (P := Tree.Occupied order (order / 2 - 1) d) (by
          have hroute := Tree.Occupied.insert horder k f n (hchildren _ (route_mem k _ _))
          rw [hbelow] at hroute
          intro t' ht'
          cases hgrown : below.1 with
          | one t₁ =>
              rw [hgrown] at ht' hroute
              cases List.mem_singleton.mp ht'
              exact hroute
          | two l s r =>
              rw [hgrown] at ht' hroute
              rcases List.mem_cons.mp ht' with rfl | ht'
              · exact hroute.1
              · cases List.mem_singleton.mp ht'
                exact hroute.2) hchildren
      rcases innerOrSplit_cases (by omega : 2 ≤ order) below.2 (Branch.id t)
        (regraft k below.1 (Branch.first t) (Branch.rest t)) with
        ⟨hlt, heq⟩ | ⟨l, s, c, r, hrest, hl, hge, heq⟩
      · rw [heq]
        exact ⟨by simp only; omega, hlt, hall⟩
      · rw [heq]
        rw [hrest] at hlen hge hall
        rw [List.length_append, List.length_cons] at hlen hge
        simp only [List.map_append, List.map_cons, List.mem_cons, List.mem_append] at hall
        rw [cut_eq] at hl
        refine ⟨⟨?_, ?_, fun c' hc' => hall c' ?_⟩, ⟨?_, ?_, fun c' hc' => hall c' ?_⟩⟩
        · simp only
          omega
        · simp only
          omega
        · rcases List.mem_cons.mp hc' with rfl | hmem
          · exact Or.inl rfl
          · exact Or.inr (Or.inl hmem)
        · simp only
          omega
        · simp only
          omega
        · exact Or.inr (Or.inr (List.mem_cons.mp hc'))

end Occupancy

/-- A tree of depth `d` with occupied nodes has many entries. -/
theorem Tree.Occupied.le_length {order : Nat} (horder : 4 ≤ order) :
    ∀ {d : Nat} {t : Tree K V d}, t.Occupied order (order / 2 - 1) d → 2 ^ d ≤ (t.entries d).length
  | 0, t, ⟨hmin, _⟩ => by
      change 1 ≤ (Leaf.entries t).length
      omega
  | d + 1, t, ⟨hmin, _, hchildren⟩ => by
      have hfirst := Tree.Occupied.le_length horder (hchildren _ (List.mem_cons_self ..))
      cases hrest : Branch.rest t with
      | nil =>
          rw [hrest, List.length_nil] at hmin
          omega
      | cons p rest =>
          have hp : p.2 ∈ Branch.children t := by
            simp only [Branch.children, hrest, List.map_cons, List.mem_cons, true_or, or_true]
          have hsecond := Tree.Occupied.le_length horder (hchildren _ hp)
          rw [Tree.entries, hrest, under, List.length_append]
          have hle : (p.2.entries d).length ≤ (under (Tree.entries d) p.2 rest).length := by
            cases rest with
            | nil => exact le_refl _
            | cons q rest =>
                rw [under, List.length_append]
                exact Nat.le_add_right _ _
          rw [pow_succ]
          omega

/-! ### Labels -/

/-- Every level of a tree has a node. -/
theorem Tree.depth_lt_length_ids : ∀ {d : Nat} (t : Tree K V d), d < (t.ids d).length
  | 0, _ => Nat.zero_lt_one
  | d + 1, t => by
      have hfirst := Tree.depth_lt_length_ids (Branch.first t)
      have hle : ((Branch.first t).ids d).length ≤
          (under (Tree.ids d) (Branch.first t) (Branch.rest t)).length := by
        cases Branch.rest t with
        | nil => exact le_refl _
        | cons p rest =>
            rw [under, List.length_append]
            exact Nat.le_add_right _ _
      rw [Tree.ids, List.length_cons]
      omega

section Labels

variable [LinearOrder K]

theorem perm_regraft {g : Grown K T} {ids : T → List Nat} {k : K} {new : List Nat} {c : T}
    {rest : List (K × T)} (h : (g.under ids).Perm (ids (route k c rest) ++ new)) :
    (under ids (regraft k g c rest).1 (regraft k g c rest).2).Perm (under ids c rest ++ new) := by
  induction rest generalizing c with
  | nil =>
      rw [regraft, Grown.under_graft_nil]
      exact h
  | cons p rest ih =>
      obtain ⟨s, c'⟩ := p
      rw [regraft]
      rw [route] at h
      split
      · rename_i hk
        rw [if_pos hk] at h
        rw [Grown.under_graft_cons, under, List.append_assoc]
        refine (h.append_right _).trans ?_
        rw [List.append_assoc]
        exact List.Perm.append_left _ List.perm_append_comm
      · rename_i hk
        rw [if_neg hk] at h
        rw [under, under, List.append_assoc]
        exact List.Perm.append_left _ (ih h)

/-- Insertion keeps all labels and adds those drawn from the counter. -/
theorem Tree.perm_insert {order : Nat} (horder : 2 ≤ order) (k : K) (f : Option V → V) (n : Nat) :
    ∀ {d : Nat} (t : Tree K V d), n ≤ (Tree.insert order k f n d t).2 ∧
      ((Tree.insert order k f n d t).1.under (Tree.ids d)).Perm
        (t.ids d ++ List.range' (n + 1) ((Tree.insert order k f n d t).2 - n))
  | 0, t => by
      rw [Tree.insert]
      rcases leafOrSplit_cases horder n (Leaf.id t) (upsert k f (Leaf.entries t)) with
        ⟨-, heq⟩ | ⟨l, e, r, -, -, -, heq⟩
      · rw [heq]
        simp [Grown.under, Tree.ids]
      · rw [heq]
        simp [Grown.under, Tree.ids]
  | d + 1, t => by
      rw [Tree.insert]
      obtain ⟨hle, hperm⟩ := Tree.perm_insert horder k f n
        (route k (Branch.first t) (Branch.rest t))
      generalize Tree.insert order k f n d (route k (Branch.first t) (Branch.rest t)) = below at *
      have hnode := perm_regraft hperm
      rcases innerOrSplit_cases horder below.2 (Branch.id t)
        (regraft k below.1 (Branch.first t) (Branch.rest t)) with
        ⟨-, heq⟩ | ⟨l, s, c, r, hrest, -, -, heq⟩
      · rw [heq]
        exact ⟨hle, hnode.cons _⟩
      · rw [heq]
        refine ⟨Nat.le_succ_of_le hle, ?_⟩
        rw [hrest, under_append] at hnode
        have hrange : List.range' (n + 1) (below.2 + 1 - n) =
            List.range' (n + 1) (below.2 - n) ++ [below.2 + 1] := by
          rw [show below.2 + 1 - n = (below.2 - n) + 1 by omega, List.range'_concat]
          congr 2
          omega
        simp only [Grown.under, Tree.ids]
        rw [hrange, List.cons_append, List.cons_append, ← List.append_assoc]
        refine List.Perm.cons _ ?_
        have hmove : ((below.2 + 1) :: under (Tree.ids d) c r).Perm
            (under (Tree.ids d) c r ++ [below.2 + 1]) :=
          (List.perm_append_singleton _ _).symm
        refine (List.Perm.append_left _ hmove).trans ?_
        rw [← List.append_assoc]
        exact hnode.append_right _

end Labels

end BPlusTree
