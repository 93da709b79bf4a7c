import Mathlib.Data.List.TakeWhile
import VeriTxn.WaitDie

/-!
# What the lock table operations do to the lists

The owners of a lock table are a stack in its heap and the waiters a doubly linked list.  Each
operation changes these two lists the way its name says and keeps them apart.
-/

namespace VeriTxn.WaitDie

open LinkedLists NoWait

/-! ### The macros -/

section Macros

variable {P : Type} {heap : Heap P} {head tail : Option Nat} {ns : List (Nat × P)} {en : Nat} {p : P}

theorem setNext_eq {c : Cell P} (h : heap en = some c) (x : Option Nat) :
    heap.setNext en x = some (Function.update heap en (some { c with next := x })) := by
  rw [Heap.setNext, h, Option.map_some]

theorem setPrev_eq {c : Cell P} (h : heap en = some c) (x : Option Nat) :
    heap.setPrev en x = some (Function.update heap en (some { c with prev := x })) := by
  rw [Heap.setPrev, h, Option.map_some]

/-- `LIST_PUT_TAIL` of a cell outside the list. -/
theorem listPutTail_spec (h : Queue heap head tail ns) (hnodup : (ns.map Prod.fst).Nodup)
    {next prev : Option Nat} (hen : heap en = some ⟨p, next, prev⟩) (hout : en ∉ ns.map Prod.fst) :
    ∃ heap' head' tail', listPutTail heap head tail en = some (heap', head', tail') ∧
      Queue heap' head' tail' (ns ++ [(en, p)]) ∧
      ∀ b, b ≠ en → b ∉ ns.map Prod.fst → heap' b = heap b := by
  have hne : ∀ n ∈ ns, n.1 ≠ en := fun n hn heq => hout (heq ▸ List.mem_map_of_mem hn)
  rcases List.eq_nil_or_concat ns with rfl | ⟨l, n, rfl⟩
  · have htail : tail = none := h.tail_eq
    refine ⟨Function.update heap en (some ⟨p, none, none⟩), some en, some en, ?_,
      ⟨⟨Function.update_self .., trivial⟩, rfl, rfl⟩, fun b hb _ => Function.update_of_ne hb ..⟩
    rw [listPutTail, setNext_eq hen, htail]
    simp only [Option.bind_eq_bind, Option.bind_some, setPrev_eq (Function.update_self ..),
      Function.update_idem]
    rfl
  · obtain ⟨a, q⟩ := n
    rw [List.concat_eq_append] at *
    have htail : tail = some a := h.tail_eq.trans (last_append_singleton ..)
    have ha : a ≠ en := hne (a, q) (List.mem_append_right _ (List.mem_singleton_self _))
    have ha' : a ∉ l.map Prod.fst := by
      rw [List.map_append, List.map_singleton] at hnodup
      intro hmem
      exact (List.nodup_append.mp hnodup).2.2 a hmem a (List.mem_singleton_self _) rfl
    have hframe : Segment (Function.update heap en (some ⟨p, none, some a⟩)) none (l ++ [(a, q)])
        none := h.segment.frame fun n hn => Function.update_of_ne (hne n hn) ..
    obtain ⟨heap', hset, hsegment, hsame⟩ := hframe.setNext ha' (some en)
    refine ⟨heap', head, some en, ?_, ⟨?_, ?_, ?_⟩, ?_⟩
    · rw [listPutTail, setNext_eq hen, htail]
      simp only [Option.bind_eq_bind, Option.bind_some, setPrev_eq (Function.update_self ..),
        Function.update_idem, hset]
      rfl
    · refine segment_append.mpr ⟨hsegment, ?_, trivial⟩
      rw [hsame en (Ne.symm ha), Function.update_self, last_append_singleton]
      rfl
    · rw [h.head_eq, first_append _ [(en, p)], first_append]
      cases first l <;> rfl
    · rw [last_append_singleton]
    · intro b hb hout'
      have hba : b ≠ a := by
        rintro rfl
        exact hout' (List.mem_map_of_mem (List.mem_append_right _ (List.mem_singleton_self _)))
      rw [hsame b hba, Function.update_of_ne hb]

/-- `LIST_INSERT_BEFORE` of a cell outside the list. -/
theorem listInsertBefore_spec {l r : List (Nat × P)} {a : Nat} {q : P}
    (h : Segment heap none (l ++ (a, q) :: r) none)
    (hnodup : ((l ++ (a, q) :: r).map Prod.fst).Nodup) {next prev : Option Nat}
    (hen : heap en = some ⟨p, next, prev⟩) (hout : en ∉ (l ++ (a, q) :: r).map Prod.fst) :
    ∃ heap', listInsertBefore heap a en = some heap' ∧
      Segment heap' none (l ++ (en, p) :: (a, q) :: r) none ∧
      ∀ b, b ≠ en → b ∉ (l ++ (a, q) :: r).map Prod.fst → heap' b = heap b := by
  have hne : ∀ n ∈ l ++ (a, q) :: r, n.1 ≠ en := fun n hn heq => hout (heq ▸ List.mem_map_of_mem hn)
  have ha : a ≠ en := hne (a, q) (List.mem_append_right _ (List.mem_cons_self ..))
  rw [List.map_append, List.map_cons] at hnodup
  obtain ⟨hl, har, hdisjoint⟩ := List.nodup_append.mp hnodup
  obtain ⟨har, -⟩ := List.nodup_cons.mp har
  have hal : a ∉ l.map Prod.fst := fun hmem => hdisjoint a hmem a (List.mem_cons_self ..) rfl
  -- the new cell is linked to its neighbours first
  obtain ⟨heap₁, hheap₁⟩ : ∃ heap₁ : Heap P,
      Function.update heap en (some ⟨p, some a, last l⟩) = heap₁ := ⟨_, rfl⟩
  have hen₁ : heap₁ en = some ⟨p, some a, last l⟩ := by rw [← hheap₁, Function.update_self]
  have hsegment₁ : Segment heap₁ none (l ++ (a, q) :: r) none := by
    rw [← hheap₁]
    exact h.frame fun n hn => Function.update_of_ne (hne n hn) ..
  obtain ⟨hleft₁, hright₁⟩ := segment_append.mp hsegment₁
  have hcell : heap a = some ⟨q, (first r).or none, (last l).or none⟩ :=
    (segment_append.mp h).2.1
  have hor : (last l).or none = last l := by cases last l <;> rfl
  obtain ⟨heap₂, hset₂, hleft₂, hsame₂⟩ : ∃ heap₂,
      (last l).elim (some heap₁) (fun prev => heap₁.setNext prev (some en)) = some heap₂ ∧
      Segment heap₂ none l (some en) ∧
      ∀ b, b ∉ l.map Prod.fst → heap₂ b = heap₁ b := by
    rcases List.eq_nil_or_concat l with rfl | ⟨l', n, rfl⟩
    · exact ⟨heap₁, rfl, trivial, fun _ _ => rfl⟩
    · obtain ⟨c, q'⟩ := n
      rw [List.concat_eq_append] at *
      have hc : c ∉ l'.map Prod.fst := by
        rw [List.map_append, List.map_singleton] at hl
        intro hmem
        exact (List.nodup_append.mp hl).2.2 c hmem c (List.mem_singleton_self _) rfl
      obtain ⟨heap₂, hset, hsegment, hsame⟩ := hleft₁.setNext hc (some en)
      refine ⟨heap₂, ?_, hsegment, fun b hb => hsame b ?_⟩
      · rw [last_append_singleton]
        exact hset
      · rintro rfl
        exact hb (List.mem_map_of_mem (List.mem_append_right _ (List.mem_singleton_self _)))
  have hout' : ∀ n ∈ (a, q) :: r, n.1 ∉ l.map Prod.fst := by
    intro n hn hmem
    exact hdisjoint n.1 hmem n.1 (List.mem_map_of_mem (f := Prod.fst) hn) rfl
  have hright₂ : Segment heap₂ ((last l).or none) ((a, q) :: r) none :=
    hright₁.frame fun n hn => hsame₂ n.1 (hout' n hn)
  obtain ⟨heap₃, hset₃, hright₃, hsame₃⟩ := hright₂.setPrev har (some en)
  refine ⟨heap₃, ?_, ?_, ?_⟩
  · rw [listInsertBefore, setNext_eq hen]
    simp only [Option.bind_eq_bind, Option.bind_some, Function.update_of_ne ha, hcell,
      setPrev_eq (Function.update_self ..), Function.update_idem, hor, hheap₁]
    have hlink := congrArg (fun o => o.bind fun heap => heap.setPrev a (some en)) hset₂
    rw [Option.bind_some, hset₃] at hlink
    rw [← hlink]
    cases last l <;> rfl
  · have henl : en ∉ l.map Prod.fst := fun hmem =>
      hout (by rw [List.map_append]; exact List.mem_append_left _ hmem)
    refine segment_append.mpr ⟨?_, ?_, ?_⟩
    · refine hleft₂.frame fun n hn => hsame₃ n.1 ?_
      rintro heq
      exact hal (heq ▸ List.mem_map_of_mem hn)
    · rw [hsame₃ en (Ne.symm ha), hsame₂ en henl, hen₁, hor]
      rfl
    · exact hright₃
  · intro b hb hb'
    rw [List.map_append, List.map_cons, List.mem_append, List.mem_cons, not_or, not_or] at hb'
    rw [hsame₃ b hb'.2.1, hsame₂ b hb'.1, ← hheap₁, Function.update_of_ne hb]

/-- `LIST_GET_HEAD` of a list that is not empty. -/
theorem listGetHead_spec (h : Queue heap head tail ((en, p) :: ns))
    (hnodup : (((en, p) :: ns).map Prod.fst).Nodup) :
    ∃ heap' tail', listGetHead heap head tail = some (heap', first ns, tail', en) ∧
      Queue heap' (first ns) tail' ns ∧ (∃ prev, heap' en = some ⟨p, none, prev⟩) ∧
      ∀ b, b ∉ ((en, p) :: ns).map Prod.fst → heap' b = heap b := by
  obtain ⟨hcell, hsegment⟩ := h.segment
  obtain ⟨hen, hnodup'⟩ := List.nodup_cons.mp hnodup
  have hhead : head = some en := h.head_eq
  cases ns with
  | nil =>
      refine ⟨Function.update heap en (some ⟨p, none, none⟩), none, ?_, ⟨trivial, rfl, rfl⟩,
        ⟨none, Function.update_self ..⟩, ?_⟩
      · rw [listGetHead, hhead]
        simp only [Option.bind_eq_bind, Option.bind_some, hcell, first_nil, Option.or_none,
          Option.pure_def, setNext_eq hcell]
      · intro b hb
        rw [List.map_cons, List.mem_cons, not_or] at hb
        exact Function.update_of_ne hb.1 ..
  | cons n ns =>
      obtain ⟨a, q⟩ := n
      have hna := (List.nodup_cons.mp hnodup').1
      have hne : en ≠ a := fun heq => hen (heq ▸ List.mem_cons_self ..)
      obtain ⟨heap₁, hset, hrest, hsame⟩ := hsegment.setPrev hna none
      have hcell₁ : heap₁ en = some ⟨p, some a, none⟩ := (hsame en hne).trans hcell
      have hne' : ∀ n ∈ (a, q) :: ns, n.1 ≠ en := by
        intro n hn heq
        exact hen (List.mem_map.mpr ⟨n, hn, heq⟩)
      refine ⟨Function.update heap₁ en (some ⟨p, none, none⟩), tail, ?_, ⟨?_, rfl, ?_⟩,
        ⟨none, Function.update_self ..⟩, ?_⟩
      · rw [listGetHead, hhead]
        simp only [Option.bind_eq_bind, Option.bind_some, hcell, first_cons, Option.some_or, hset,
          Option.map_some, setNext_eq hcell₁]
        rfl
      · exact hrest.frame fun n hn => Function.update_of_ne (hne' n hn) ..
      · rw [h.tail_eq, last_cons]
        cases hlast : last ((a, q) :: ns) with
        | some b => rfl
        | none =>
            rw [last_cons] at hlast
            cases hl : last ns <;> simp [hl] at hlast
      · intro b hb
        rw [List.map_cons, List.map_cons, List.mem_cons, List.mem_cons, not_or, not_or] at hb
        rw [Function.update_of_ne hb.1, hsame b hb.2.1]

end Macros

/-! ### The walks -/

namespace RowLock

section Walks

variable {T : Type} {entries : Heap (Request T)} {top : Option Nat} {ns : List (Nat × Request T)}
  {fuel : Nat}

theorem canWait_eq (ts : T → Nat) (t : T) (h : Stack entries top ns) (hfuel : ns.length ≤ fuel) :
    canWait ts entries t fuel top = some (ns.all fun n => decide (ts t ≤ ts n.2.txn)) := by
  induction ns generalizing top fuel with
  | nil =>
      cases h
      cases fuel <;> rfl
  | cons n ns ih =>
      obtain ⟨rfl, next, prev, hcell, hrest⟩ := h
      cases fuel with
      | zero => exact absurd hfuel (Nat.not_succ_le_zero _)
      | succ fuel =>
          simp only [canWait, hcell, Option.bind_eq_bind, Option.bind_some, List.all_cons]
          by_cases hts : ts n.2.txn < ts t
          · rw [if_pos hts, decide_eq_false (Nat.not_le_of_lt hts), Bool.false_and]
          · rw [if_neg hts, decide_eq_true (Nat.le_of_not_lt hts), Bool.true_and]
            exact ih hrest (Nat.le_of_succ_le_succ hfuel)

theorem waiterBehind_eq (ts : T → Nat) (t : T) (h : Stack entries top ns)
    (hfuel : ns.length ≤ fuel) :
    waiterBehind ts entries t fuel top =
      some (first (ns.dropWhile fun n => decide (ts t < ts n.2.txn))) := by
  induction ns generalizing top fuel with
  | nil =>
      cases h
      cases fuel <;> rfl
  | cons n ns ih =>
      obtain ⟨rfl, next, prev, hcell, hrest⟩ := h
      cases fuel with
      | zero => exact absurd hfuel (Nat.not_succ_le_zero _)
      | succ fuel =>
          simp only [waiterBehind, hcell, Option.bind_eq_bind, Option.bind_some,
            List.dropWhile_cons]
          by_cases hts : ts t < ts n.2.txn
          · rw [if_pos hts, if_pos (decide_eq_true hts)]
            exact ih hrest (Nat.le_of_succ_le_succ hfuel)
          · rw [if_neg hts, if_neg (by simpa using hts)]
            rfl

variable [DecidableEq T]

theorem findEntry_eq {l r : List (Nat × Request T)} {n : Nat × Request T} {prev : Option Nat}
    (h : Stack entries top (l ++ n :: r)) (hl : ∀ n' ∈ l, n'.2.txn ≠ n.2.txn)
    (hfuel : (l ++ n :: r).length ≤ fuel) :
    findEntry entries n.2.txn fuel prev top = some (some ((last l).or prev, n.1)) := by
  induction l generalizing top fuel prev with
  | nil =>
      obtain ⟨rfl, next, _, hcell, -⟩ := h
      cases fuel with
      | zero => exact absurd hfuel (Nat.not_succ_le_zero _)
      | succ fuel =>
          simp only [findEntry, hcell, Option.bind_eq_bind, Option.bind_some]
          rfl
  | cons n' l ih =>
      obtain ⟨rfl, next, _, hcell, hrest⟩ := h
      cases fuel with
      | zero => exact absurd hfuel (Nat.not_succ_le_zero _)
      | succ fuel =>
          simp only [findEntry, hcell, Option.bind_eq_bind, Option.bind_some,
            if_neg (hl n' (List.mem_cons_self ..))]
          rw [ih hrest (fun n'' hn'' => hl n'' (List.mem_cons_of_mem _ hn''))
            (Nat.le_of_succ_le_succ hfuel), last_cons]
          cases last l <;> rfl

end Walks

/-! ### The tables -/

/-- The lists of a lock table: its cells are apart from each other and were handed out by
    `get_entry`, and the counters are the lengths. -/
structure Table {T : Type} (m : RowLock T) (os ws : List (Nat × Request T)) : Prop where
  owners : Stack m.entries m.owners os
  waiters : Queue m.entries m.waitersHead m.waitersTail ws
  nodup : ((os ++ ws).map Prod.fst).Nodup
  below : ∀ n ∈ os ++ ws, n.1 < m.nextEntry
  ownerCnt : m.ownerCnt = os.length
  waiterCnt : m.waiterCnt = ws.length

section Tables

variable {T : Type} {m : RowLock T} {os ws : List (Nat × Request T)}

theorem table_init : Table (RowLock.init : RowLock T) [] [] :=
  ⟨rfl, ⟨trivial, rfl, rfl⟩, List.nodup_nil, fun _ h => absurd h List.not_mem_nil, rfl, rfl⟩

theorem Table.length_le (h : Table m os ws) : (os ++ ws).length ≤ m.nextEntry := by
  have hsub : (os ++ ws).map Prod.fst ⊆ List.range m.nextEntry := by
    intro a ha
    obtain ⟨n, hn, rfl⟩ := List.mem_map.mp ha
    exact List.mem_range.mpr (h.below n hn)
  have hlen := (List.subperm_of_subset h.nodup hsub).length_le
  rwa [List.length_map, List.length_range] at hlen

theorem Table.owners_length_le (h : Table m os ws) : os.length ≤ m.nextEntry := by
  have := h.length_le
  rw [List.length_append] at this
  omega

theorem Table.waiters_length_le (h : Table m os ws) : ws.length ≤ m.nextEntry := by
  have := h.length_le
  rw [List.length_append] at this
  omega

/-- The last assertion of `lock_release`. -/
theorem Table.owners_isNone (h : Table m os ws) : m.owners.isNone = decide (m.ownerCnt = 0) := by
  have howners := h.owners
  rw [h.ownerCnt]
  cases os with
  | nil => rw [show m.owners = none from howners]; rfl
  | cons n os => rw [howners.1]; rfl

/-- The address `get_entry` returns is in neither list. -/
theorem Table.nextEntry_fresh (h : Table m os ws) : ∀ n ∈ os ++ ws, n.1 ≠ m.nextEntry :=
  fun n hn => Nat.ne_of_lt (h.below n hn)

/-- A new entry goes to the front of the owners or between two waiters. -/
theorem Table.nodup_cons (h : Table m os ws) (r : Request T) :
    (((m.nextEntry, r) :: (os ++ ws)).map Prod.fst).Nodup ∧
      ∀ n ∈ (m.nextEntry, r) :: (os ++ ws), n.1 < m.nextEntry + 1 := by
  refine ⟨List.nodup_cons.mpr ⟨fun hmem => ?_, h.nodup⟩, fun n hn => ?_⟩
  · obtain ⟨n, hn, heq⟩ := List.mem_map.mp hmem
    exact h.nextEntry_fresh n hn heq
  · rcases List.mem_cons.mp hn with rfl | hn
    · exact Nat.lt_succ_self _
    · exact Nat.lt_succ_of_lt (h.below n hn)

theorem addOwner_spec (h : Table m os ws) (type : LockT) (t : T) :
    ∃ m', m.addOwner type t = some m' ∧ Table m' ((m.nextEntry, ⟨type, t⟩) :: os) ws ∧
      m'.lockType = type := by
  have hne := h.nextEntry_fresh
  have hadd : m.addOwner type t = some { m with
      entries := Function.update m.entries m.nextEntry (some ⟨⟨type, t⟩, m.owners, none⟩)
      nextEntry := m.nextEntry + 1
      owners := some m.nextEntry
      ownerCnt := m.ownerCnt + 1
      lockType := type } := by
    rw [addOwner, getEntry]
    simp only [stackPush, setNext_eq (Function.update_self ..), Option.bind_eq_bind,
      Option.bind_some, Function.update_idem]
    rfl
  refine ⟨_, hadd, ⟨⟨rfl, m.owners, none, Function.update_self .., ?_⟩, ?_, ?_, ?_, ?_,
    h.waiterCnt⟩, rfl⟩
  · refine h.owners.frame fun n hn => ?_
    exact Function.update_of_ne (hne n (List.mem_append_left _ hn)) ..
  · refine h.waiters.frame fun n hn => ?_
    exact Function.update_of_ne (hne n (List.mem_append_right _ hn)) ..
  · exact (h.nodup_cons _).1
  · exact (h.nodup_cons _).2
  · exact congrArg (· + 1) h.ownerCnt

/-- A new entry between two waiters. -/
theorem Table.nodup_insert {l r : List (Nat × Request T)} (h : Table m os (l ++ r))
    (q : Request T) :
    ((os ++ (l ++ (m.nextEntry, q) :: r)).map Prod.fst).Nodup ∧
      ∀ n ∈ os ++ (l ++ (m.nextEntry, q) :: r), n.1 < m.nextEntry + 1 := by
  have hperm : (os ++ (l ++ (m.nextEntry, q) :: r)).Perm
      ((m.nextEntry, q) :: (os ++ (l ++ r))) := by
    rw [← List.append_assoc, ← List.append_assoc]
    exact List.perm_middle
  obtain ⟨hnodup, hbelow⟩ := h.nodup_cons q
  exact ⟨(hperm.map Prod.fst).nodup_iff.mpr hnodup, fun n hn => hbelow n (hperm.mem_iff.mp hn)⟩

theorem Table.waiters_nodup (h : Table m os ws) : (ws.map Prod.fst).Nodup := by
  have := h.nodup
  rw [List.map_append] at this
  exact (List.nodup_append.mp this).2.1

/-- An owner is no waiter. -/
theorem Table.disjoint (h : Table m os ws) {n n' : Nat × Request T} (hn : n ∈ os) (hn' : n' ∈ ws) :
    n.1 ≠ n'.1 := by
  have := h.nodup
  rw [List.map_append] at this
  exact (List.nodup_append.mp this).2.2 n.1 (List.mem_map_of_mem hn) n'.1 (List.mem_map_of_mem hn')

/-- The heap of a table with a cell that is in no list yet. -/
theorem Table.getEntry (h : Table m os ws) (type : LockT) (t : T) :
    ∃ entries, m.getEntry type t = ({ m with
        entries := entries, nextEntry := m.nextEntry + 1 }, m.nextEntry) ∧
      entries m.nextEntry = some ⟨⟨type, t⟩, none, none⟩ ∧ Stack entries m.owners os ∧
      Queue entries m.waitersHead m.waitersTail ws := by
  have hne := h.nextEntry_fresh
  refine ⟨_, rfl, Function.update_self .., h.owners.frame fun n hn => ?_,
    h.waiters.frame fun n hn => ?_⟩
  · exact Function.update_of_ne (hne n (List.mem_append_left _ hn)) ..
  · exact Function.update_of_ne (hne n (List.mem_append_right _ hn)) ..

/-- The new waiter stands before the first one that is not younger. -/
theorem addWaiter_spec (ts : T → Nat) (h : Table m os ws) (type : LockT) (t : T) :
    ∃ m', m.addWaiter ts type t = some m' ∧
      Table m' os (ws.takeWhile (fun n => decide (ts t < ts n.2.txn)) ++
        (m.nextEntry, ⟨type, t⟩) :: ws.dropWhile (fun n => decide (ts t < ts n.2.txn))) ∧
      m'.lockType = m.lockType := by
  obtain ⟨entries₁, hget, hcell, howners₁, hqueue₁⟩ := h.getEntry type t
  have hbehind := waiterBehind_eq ts t hqueue₁.stack (Nat.le_succ_of_le h.waiters_length_le)
  have hout : m.nextEntry ∉ ws.map Prod.fst := by
    intro hmem
    obtain ⟨n, hn, heq⟩ := List.mem_map.mp hmem
    exact h.nextEntry_fresh n (List.mem_append_right _ hn) heq
  generalize hp : (fun n : Nat × Request T => decide (ts t < ts n.2.txn)) = p at *
  have hsplit : ws.takeWhile p ++ ws.dropWhile p = ws := List.takeWhile_append_dropWhile ..
  -- what the owners keep whichever way the waiters are linked
  have howners : ∀ entries₂ : Heap (Request T),
      (∀ b, b ≠ m.nextEntry → b ∉ ws.map Prod.fst → entries₂ b = entries₁ b) →
        Stack entries₂ m.owners os := by
    intro entries₂ hsame
    refine howners₁.frame fun n hn => hsame n.1 ?_ fun hmem => ?_
    · exact h.nextEntry_fresh n (List.mem_append_left _ hn)
    · obtain ⟨n', hn', heq⟩ := List.mem_map.mp hmem
      exact h.disjoint hn hn' heq.symm
  have hcnt : m.waiterCnt + 1 =
      (ws.takeWhile p ++ (m.nextEntry, (⟨type, t⟩ : Request T)) :: ws.dropWhile p).length := by
    have := congrArg List.length hsplit
    rw [List.length_append] at this
    rw [h.waiterCnt, List.length_append, List.length_cons]
    omega
  obtain ⟨hnodup, hbelow⟩ := (hsplit.symm ▸ h).nodup_insert ⟨type, t⟩
  cases hdrop : ws.dropWhile p with
  | nil =>
      rw [hdrop, List.append_nil] at hsplit
      rw [hdrop, hsplit] at hcnt hnodup hbelow
      obtain ⟨entries₂, head, tail, hput, hqueue, hsame⟩ :=
        listPutTail_spec hqueue₁ h.waiters_nodup hcell hout
      refine ⟨{ m with
        entries := entries₂
        nextEntry := m.nextEntry + 1
        waitersHead := head
        waitersTail := tail
        waiterCnt := m.waiterCnt + 1 }, ?_, ?_, rfl⟩
      · rw [addWaiter, hget]
        simp only [hbehind, hdrop, first_nil, hput, Option.bind_eq_bind, Option.bind_some]
        rfl
      · rw [hsplit]
        exact ⟨howners entries₂ hsame, hqueue, hnodup, hbelow, h.ownerCnt, hcnt⟩
  | cons n r =>
      obtain ⟨a, q⟩ := n
      rw [hdrop] at hsplit hcnt hnodup hbelow
      generalize ws.takeWhile p = l at *
      subst hsplit
      obtain ⟨entries₂, hinsert, hsegment, hsame⟩ :=
        listInsertBefore_spec hqueue₁.segment h.waiters_nodup hcell hout
      refine ⟨{ m with
        entries := entries₂
        nextEntry := m.nextEntry + 1
        waitersHead := if some a = m.waitersHead then some m.nextEntry else m.waitersHead
        waiterCnt := m.waiterCnt + 1 }, ?_, ?_, rfl⟩
      · rw [addWaiter, hget]
        simp only [hbehind, hdrop, first_cons, hinsert, Option.bind_eq_bind, Option.bind_some]
        rfl
      · refine ⟨howners entries₂ hsame, ⟨hsegment, ?_, ?_⟩, hnodup, hbelow, h.ownerCnt, hcnt⟩
        · change (if some a = m.waitersHead then some m.nextEntry else m.waitersHead) = _
          rw [h.waiters.head_eq]
          cases l with
          | nil => exact if_pos rfl
          | cons n l =>
              have hne : a ≠ n.1 := by
                rintro rfl
                refine (List.nodup_cons.mp h.waiters_nodup).1 ?_
                refine List.mem_map.mpr ⟨(n.1, q), ?_, rfl⟩
                exact List.mem_append_right l (List.mem_cons_self ..)
              exact if_neg fun heq => hne (Option.some.inj heq)
        · change m.waitersTail = _
          rw [h.waiters.tail_eq, last_append, last_append, last_cons (m.nextEntry, _),
            last_cons (a, q)]
          cases last r <;> rfl

/-- The waiter taken off the front of the list becomes the owner on top. -/
theorem promote_step [DecidableEq T] {n : Nat × Request T} (h : Table m os (n :: ws)) (fuel : Nat)
    {lockReady : T → Bool} (hfree : conflictLock m.lockType n.2.type = false)
    (hready : lockReady n.2.txn = false) :
    ∃ m', promote (fuel + 1) m lockReady =
        promote fuel m' (Function.update lockReady n.2.txn true) ∧
      Table m' (n :: os) ws ∧ m'.lockType = n.2.type := by
  obtain ⟨entries₁, tail, hget, hqueue, ⟨prev, hcell⟩, hsame⟩ :=
    listGetHead_spec h.waiters h.waiters_nodup
  obtain ⟨hcell₀, -⟩ := h.waiters.segment
  have hhead : m.waitersHead = some n.1 := h.waiters.head_eq
  have hnout : ∀ n' ∈ ws, n'.1 ≠ n.1 := by
    intro n' hn' heq
    exact (List.nodup_cons.mp h.waiters_nodup).1 (List.mem_map.mpr ⟨n', hn', heq⟩)
  have hstep : promote (fuel + 1) m lockReady = promote fuel { m with
      entries := Function.update entries₁ n.1 (some ⟨n.2, m.owners, prev⟩)
      waitersHead := first ws
      waitersTail := tail
      owners := some n.1
      ownerCnt := m.ownerCnt + 1
      waiterCnt := m.waiterCnt - 1
      lockType := n.2.type } (Function.update lockReady n.2.txn true) := by
    rw [promote]
    simp only [hhead, hcell₀, hfree, Option.bind_eq_bind, Option.bind_some, Bool.false_eq_true,
      if_false, hhead ▸ hget, stackPush, setNext_eq hcell, hready]
  have hperm : (n :: os ++ ws).Perm (os ++ n :: ws) := List.perm_middle.symm
  refine ⟨_, hstep, ⟨⟨rfl, m.owners, prev, Function.update_self .., ?_⟩, ?_, ?_, ?_, ?_, ?_⟩, rfl⟩
  · refine h.owners.frame fun n' hn' => ?_
    have hout : ∀ n'' ∈ n :: ws, n'.1 ≠ n''.1 := fun n'' hn'' => h.disjoint hn' hn''
    refine (Function.update_of_ne (hout n (List.mem_cons_self ..)) ..).trans (hsame n'.1 ?_)
    intro hmem
    obtain ⟨n'', hn'', heq⟩ := List.mem_map.mp hmem
    exact hout n'' hn'' heq.symm
  · exact hqueue.frame fun n' hn' => Function.update_of_ne (hnout n' hn') ..
  · exact (hperm.map Prod.fst).nodup_iff.mpr h.nodup
  · exact fun n' hn' => h.below n' (hperm.mem_iff.mp hn')
  · exact congrArg (· + 1) h.ownerCnt
  · exact congrArg (· - 1) h.waiterCnt

/-- An owner taken out of the stack. -/
theorem dropOwner_spec {l r : List (Nat × Request T)} {n : Nat × Request T}
    (h : Table m (l ++ n :: r) ws) :
    ∃ m', m.dropOwner (last l) n.1 = some m' ∧ Table m' (l ++ r) ws ∧
      m'.lockType = if l ++ r = [] then .none else m.lockType := by
  have hout : ∀ n' ∈ l ++ r ++ ws, n'.1 ≠ n.1 := by
    have hperm : (l ++ n :: r ++ ws).Perm (n :: (l ++ r ++ ws)) := by
      rw [List.append_assoc, List.append_assoc, List.cons_append]
      exact List.perm_middle
    intro n' hn' heq
    have hnodup := (hperm.map Prod.fst).nodup_iff.mp h.nodup
    exact (List.nodup_cons.mp hnodup).1 (List.mem_map.mpr ⟨n', hn', heq⟩)
  have hsub : (l ++ r ++ ws).Sublist (l ++ n :: r ++ ws) :=
    ((List.Sublist.refl l).append (List.sublist_cons_self n r)).append (List.Sublist.refl ws)
  have hcnt : m.ownerCnt - 1 = (l ++ r).length := by
    rw [h.ownerCnt, List.length_append, List.length_append, List.length_cons]
    omega
  -- the cell of the owner is found, and the link to it is moved on
  obtain ⟨next, prev, hcell⟩ := h.owners.cell (List.mem_append_right l (List.mem_cons_self ..))
  obtain ⟨entries₁, owners, hlink, howners, hwaiters⟩ : ∃ entries₁ owners,
      (last l).elim (some { m with owners := next })
        (fun prev => (m.entries.setNext prev next).map fun entries =>
          { m with entries := entries }) = some { m with
          entries := entries₁, owners := owners } ∧
      Stack entries₁ owners (l ++ r) ∧ Queue entries₁ m.waitersHead m.waitersTail ws := by
    rcases List.eq_nil_or_concat l with rfl | ⟨l, ⟨a, q⟩, rfl⟩
    · obtain ⟨-, next', prev', hcell', hrest⟩ := h.owners
      rw [hcell] at hcell'
      cases hcell'
      exact ⟨m.entries, next, rfl, hrest, h.waiters⟩
    · have hmem : (a, q) ∈ l.concat (a, q) ++ n :: r := by simp
      have hnodup : ((l ++ (a, q) :: n :: r).map Prod.fst).Nodup := by
        have := h.nodup
        rw [List.map_append] at this
        simpa using (List.nodup_append.mp this).1
      have howners : Stack m.entries m.owners (l ++ (a, q) :: n :: r) := by
        simpa using h.owners
      obtain ⟨entries₁, hset, hstack, hsame⟩ := howners.setNext hnodup hcell
      refine ⟨entries₁, m.owners, ?_, by simpa using hstack, h.waiters.frame fun n' hn' => ?_⟩
      · rw [List.concat_eq_append, last_append_singleton]
        simp only [Option.elim_some, hset, Option.map_some]
      · exact hsame n'.1 (h.disjoint hmem hn').symm
  refine ⟨{ m with
    entries := Function.update entries₁ n.1 none
    owners := owners
    ownerCnt := m.ownerCnt - 1
    lockType := if m.ownerCnt - 1 = 0 then .none else m.lockType }, ?_, ⟨?_, ?_, ?_, ?_, hcnt, ?_⟩, ?_⟩
  · rw [dropOwner]
    simp only [hcell, Option.bind_eq_bind, Option.bind_some]
    have hrest := congrArg (fun o => o.map fun m : RowLock T => { m.returnEntry n.1 with
      ownerCnt := m.ownerCnt - 1
      lockType := if m.ownerCnt - 1 = 0 then .none else m.lockType }) hlink
    refine Eq.trans ?_ hrest
    cases last l with
    | none => rfl
    | some prev => exact (Option.map_eq_bind ..).symm
  · refine howners.frame fun n' hn' => Function.update_of_ne (hout n' ?_) ..
    exact List.mem_append_left _ hn'
  · refine hwaiters.frame fun n' hn' => Function.update_of_ne (hout n' ?_) ..
    exact List.mem_append_right _ hn'
  · exact h.nodup.sublist (hsub.map Prod.fst)
  · exact fun n' hn' => h.below n' (hsub.subset hn')
  · exact h.waiterCnt
  · rw [hcnt]
    simp only [List.length_eq_zero_iff]

end Tables

end RowLock

end VeriTxn.WaitDie
