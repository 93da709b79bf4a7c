import Mathlib.Data.List.Induction
import Mathlib.Data.List.Nodup

/-!
# First occurrences

The elements of a list whose key no element before them has, in the order of the list.
-/

namespace FirstOccurrences

variable {α β : Type} [DecidableEq β] {key : α → β}

/-- The elements with a key that is new at their position. -/
def firsts (key : α → β) (l : List α) : List α :=
  (List.range l.length).filterMap fun i => l[i]?.filter fun x => key x ∉ (l.take i).map key

@[simp] theorem firsts_nil : firsts key [] = [] := rfl

/-- One more element stays if its key is new. -/
theorem firsts_snoc (l : List α) (x : α) :
    firsts key (l ++ [x]) =
      if key x ∈ l.map key then firsts key l else firsts key l ++ [x] := by
  have hold : ((List.range l.length).filterMap fun i =>
      (l ++ [x])[i]?.filter fun y => key y ∉ ((l ++ [x]).take i).map key) = firsts key l := by
    apply List.filterMap_congr
    intro i hi
    have hlt := List.mem_range.mp hi
    rw [List.getElem?_append_left hlt, List.take_append_of_le_length (Nat.le_of_lt hlt)]
  have hnew : (l ++ [x])[l.length]? = some x := List.getElem?_concat_length
  rw [firsts, List.length_append, List.length_singleton, List.range_succ, List.filterMap_append,
    hold]
  by_cases hx : key x ∈ l.map key
  · rw [if_pos hx, List.filterMap_cons, hnew, List.take_left, Option.filter_some]
    simp only [hx, not_true_eq_false, decide_false, Bool.false_eq_true, if_false,
      List.filterMap_nil, List.append_nil]
  · rw [if_neg hx, List.filterMap_cons, hnew, List.take_left, Option.filter_some]
    simp only [hx, not_false_eq_true, decide_true, if_true, List.filterMap_nil]

theorem firsts_snoc_of_mem {l : List α} {x : α} (hx : key x ∈ l.map key) :
    firsts key (l ++ [x]) = firsts key l := by
  rw [firsts_snoc, if_pos hx]

theorem firsts_snoc_of_notMem {l : List α} {x : α} (hx : key x ∉ l.map key) :
    firsts key (l ++ [x]) = firsts key l ++ [x] := by
  rw [firsts_snoc, if_neg hx]

/-- No key is lost. -/
theorem mem_keys_firsts (l : List α) (k : β) :
    k ∈ (firsts key l).map key ↔ k ∈ l.map key := by
  induction l using List.reverseRecOn with
  | nil => rfl
  | append_singleton l x ih =>
      by_cases hx : key x ∈ l.map key
      · rw [firsts_snoc_of_mem hx, ih, List.map_append, List.mem_append]
        refine ⟨Or.inl, fun h => h.elim id fun hk => ?_⟩
        rw [List.map_singleton, List.mem_singleton] at hk
        exact hk ▸ hx
      · rw [firsts_snoc_of_notMem hx, List.map_append, List.map_append, List.mem_append,
          List.mem_append, ih]

theorem nodup_keys_firsts (key : α → β) (l : List α) : ((firsts key l).map key).Nodup := by
  induction l using List.reverseRecOn with
  | nil => exact List.nodup_nil
  | append_singleton l x ih =>
      by_cases hx : key x ∈ l.map key
      · rw [firsts_snoc_of_mem hx]
        exact ih
      · rw [firsts_snoc_of_notMem hx, List.map_append, List.map_singleton, ← List.concat_eq_append]
        exact ih.concat (mt (mem_keys_firsts l _).mp hx)

/-- A longer list has the same first occurrences and more. -/
theorem length_firsts_append_le (l l' : List α) :
    (firsts key l).length ≤ (firsts key (l ++ l')).length := by
  induction l' using List.reverseRecOn with
  | nil => exact Nat.le_of_eq (by rw [List.append_nil])
  | append_singleton l' x ih =>
      rw [← List.append_assoc, firsts_snoc]
      split
      · exact ih
      · rw [List.length_append]
        exact Nat.le_add_right_of_le ih

theorem length_firsts_le (l : List α) : (firsts key l).length ≤ l.length := by
  induction l using List.reverseRecOn with
  | nil => exact Nat.le_refl _
  | append_singleton l x ih =>
      rw [firsts_snoc, List.length_append, List.length_singleton]
      split
      · exact Nat.le_succ_of_le ih
      · rw [List.length_append, List.length_singleton]
        exact Nat.succ_le_succ ih

/-- Something is dropped exactly if a key occurs twice. -/
theorem length_firsts_lt_iff (l : List α) :
    (firsts key l).length < l.length ↔ ¬ (l.map key).Nodup := by
  induction l using List.reverseRecOn with
  | nil => simp
  | append_singleton l x ih =>
      have hle : (firsts key l).length ≤ l.length := length_firsts_le l
      have hnodup : ((l ++ [x]).map key).Nodup ↔ key x ∉ l.map key ∧ (l.map key).Nodup := by
        rw [List.map_append, List.map_singleton, ← List.concat_eq_append, List.nodup_concat]
      rw [hnodup, List.length_append, List.length_singleton]
      by_cases hx : key x ∈ l.map key
      · rw [firsts_snoc_of_mem hx]
        exact iff_of_true (Nat.lt_succ_of_le hle) fun h => h.1 hx
      · rw [firsts_snoc_of_notMem hx, List.length_append, List.length_singleton,
          Nat.succ_lt_succ_iff, ih, not_iff_not]
        exact ⟨fun h => ⟨hx, h⟩, And.right⟩

end FirstOccurrences
