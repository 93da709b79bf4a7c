import VeriTxn.IndexBTreeRep
import Mathlib.Data.List.Count

/-!
# Insertions and reads of the untrusted B+-tree, one after another

`find_leaf` crabs down the tree with shared latches.  For an insertion it keeps
exclusive latches on the ancestors that may be split, so that with no other
thread around every latch it asks for is granted and every latch is released
again.  An insertion then refines `Tree.insert`, with a new root where the old
one is split.
-/

namespace VeriTxn.IndexBTree

open BPlusTree

variable {K I : Type}

namespace Index

/-! ### Latches -/

/-- The latches while `shs` are held shared and `exs` exclusive. -/
def held (shs exs : List Nat) : Nat → Latch := fun i =>
  if i ∈ shs then .shared else if i ∈ exs then .exclusive else .free

def withLatches (s : Index K I) (latches : Nat → Latch) : Index K I :=
  { s with latches := latches }

/-- The latches after `shs` have been shared and `exs` taken exclusively, over those of others. -/
def taken (others : Nat → Latch) (shs exs : List Nat) : Nat → Latch := fun i =>
  if i ∈ shs then (others i).share else if i ∈ exs then .exclusive else others i

section Taken

variable {others : Nat → Latch} {c child : Nat} {exs : List Nat}

theorem taken_nil : taken others [] [] = others := by
  funext i
  simp [taken]

theorem taken_self : taken others [c] exs c = (others c).share := by simp [taken]

theorem taken_shared : Function.update (taken others [c] exs) child (others child).share =
    taken others [child, c] exs := by
  funext i
  by_cases hi : i = child <;> simp [taken, hi]

theorem taken_upgrade {shs : List Nat} (hc : c ∉ shs) :
    Function.update (taken others (shs ++ [c]) exs) c .exclusive = taken others shs (c :: exs) := by
  funext i
  by_cases hi : i = c
  · subst hi
    simp [taken, hc]
  · simp [taken, hi]

theorem taken_release {l : List Nat} (hc : c ∉ l) (hexs : c ∉ exs) :
    Function.update (taken others (l ++ [c]) exs) c (others c) = taken others l exs := by
  funext i
  by_cases hi : i = c
  · subst hi
    simp [taken, hc, hexs]
  · simp [taken, hi]

end Taken

theorem held_shared {c child : Nat} {exs : List Nat} :
    Function.update (held [c] exs) child .shared = held [child, c] exs := taken_shared

theorem held_release {c child : Nat} (hne : c ≠ child) :
    Function.update (held [child, c] []) c .free = held [child] [] :=
  taken_release (l := [child]) (by simpa using hne) List.not_mem_nil

/-- `ps` are the ancestors of `c`, nearest first, up to some node. -/
def ParentChain (nodes : Nat → Option (BtNode K I)) : Nat → List Nat → Prop
  | _, [] => True
  | c, p :: ps => (∃ n, nodes c = some n ∧ n.parent = some p) ∧ ParentChain nodes p ps

/-- `cleanup` releases the exclusively latched ancestors. -/
theorem cleanupLoop_eq {s : Index K I} {lastEx p c : Nat} {ps : List Nat} {fuel : Nat}
    (hchain : ParentChain s.nodes c (p :: ps)) (hlast : (p :: ps).getLast? = some lastEx)
    (hnodup : (p :: ps).Nodup) (hheld : ∀ i ∈ p :: ps, s.latches i = .exclusive)
    (hfuel : (p :: ps).length ≤ fuel) :
    cleanupLoop lastEx fuel s c =
      some (s.withLatches fun i => if i ∈ p :: ps then .free else s.latches i) := by
  induction ps generalizing s c p fuel with
  | nil =>
      obtain ⟨⟨n, hn, hparent⟩, -⟩ := hchain
      obtain ⟨fuel, rfl⟩ := Nat.exists_eq_succ_of_ne_zero (by simp at hfuel; omega : fuel ≠ 0)
      have hp : p = lastEx := by simpa using hlast
      subst hp
      have hex := hheld p (List.mem_cons_self ..)
      simp only [cleanupLoop, hn, hparent, Option.bind_eq_bind, Option.bind_some, releaseLatch, hex,
        Latch.exclusive, reduceCtorEq, if_false, if_true, setLatch, withLatches]
      congr 2
      funext i
      by_cases hi : i = p
      · simp [hi, Latch.drop, Latch.free]
      · simp [hi]
  | cons q ps ih =>
      obtain ⟨⟨n, hn, hparent⟩, hrest⟩ := hchain
      obtain ⟨fuel, rfl⟩ := Nat.exists_eq_succ_of_ne_zero (by simp at hfuel; omega : fuel ≠ 0)
      obtain ⟨hp, hnodup'⟩ := List.nodup_cons.mp hnodup
      have hne : p ≠ lastEx := by
        rintro rfl
        exact hp (List.mem_of_getLast? (by simpa using hlast))
      have hex := hheld p (List.mem_cons_self ..)
      have hih := ih (s := s.setLatch p .free) hrest (by simpa using hlast) hnodup'
        (by
          intro i hi
          have hip : i ≠ p := fun h => hp (h ▸ hi)
          simp only [setLatch, Function.update_of_ne hip]
          exact hheld i (List.mem_cons_of_mem _ hi))
        (by simpa using hfuel)
      simp only [cleanupLoop, hn, hparent, Option.bind_eq_bind, Option.bind_some, releaseLatch, hex,
        Latch.exclusive, reduceCtorEq, if_false, hne]
      refine hih.trans ?_
      simp only [setLatch, withLatches]
      congr 2
      funext i
      by_cases hi : i = p
      · simp [hi]
      · simp [hi]

theorem cleanup_eq {s : Index K I} {c : Nat} {ps : List Nat}
    (hchain : ParentChain s.nodes c ps) (hnodup : ps.Nodup)
    (hheld : ∀ i ∈ ps, s.latches i = .exclusive) (hfuel : ps.length ≤ s.btreeNodeId) :
    s.cleanup c ps.getLast? =
      some (s.withLatches fun i => if i ∈ ps then .free else s.latches i) := by
  cases ps with
  | nil => simp [cleanup, withLatches]
  | cons p ps =>
      obtain ⟨lastEx, hlast⟩ : ∃ lastEx, (p :: ps).getLast? = some lastEx :=
        ⟨_, List.getLast?_eq_some_getLast (List.cons_ne_nil p ps)⟩
      rw [hlast]
      exact cleanupLoop_eq hchain hlast hnodup hheld hfuel

theorem releaseAll_eq {s : Index K I} {ids : List Nat} (hnodup : ids.Nodup)
    (hheld : ∀ i ∈ ids, s.latches i = .exclusive) :
    s.releaseAll ids = some (s.withLatches fun i => if i ∈ ids then .free else s.latches i) := by
  induction ids generalizing s with
  | nil => simp [releaseAll, withLatches]
  | cons c ids ih =>
      obtain ⟨hc, hnodup'⟩ := List.nodup_cons.mp hnodup
      have hex := hheld c (List.mem_cons_self ..)
      have hih := ih (s := s.setLatch c .free) hnodup' (by
        intro i hi
        have hic : i ≠ c := fun h => hc (h ▸ hi)
        simp only [setLatch, Function.update_of_ne hic]
        exact hheld i (List.mem_cons_of_mem _ hi))
      simp only [releaseAll, releaseLatch, hex, Latch.exclusive, reduceCtorEq, if_false,
        Option.bind_eq_bind, Option.bind_some]
      refine hih.trans ?_
      simp only [setLatch, withLatches]
      congr 2
      funext i
      by_cases hi : i = c
      · simp [hi]
      · simp [hi]

theorem exListLoop_eq {s : Index K I} {lastEx c : Nat} {ps : List Nat} {fuel : Nat}
    (hchain : ParentChain s.nodes c ps) (hlast : ps.getLast? = some lastEx)
    (hnodup : (c :: ps).Nodup) (hfuel : (c :: ps).length ≤ fuel) :
    s.exListLoop lastEx fuel c = some (c :: ps) := by
  induction ps generalizing c fuel with
  | nil => simp at hlast
  | cons p ps ih =>
      obtain ⟨⟨n, hn, hparent⟩, hrest⟩ := hchain
      obtain ⟨fuel, rfl⟩ := Nat.exists_eq_succ_of_ne_zero (by simp at hfuel; omega : fuel ≠ 0)
      obtain ⟨hc, hnodup'⟩ := List.nodup_cons.mp hnodup
      have hne : c ≠ lastEx := by
        rintro rfl
        exact hc (List.mem_of_getLast? hlast)
      have habove : s.exListLoop lastEx fuel p = some (p :: ps) := by
        cases ps with
        | nil =>
            have hp : p = lastEx := by simpa using hlast
            obtain ⟨fuel, rfl⟩ := Nat.exists_eq_succ_of_ne_zero (by simp at hfuel; omega : fuel ≠ 0)
            simp [exListLoop, hp]
        | cons q ps => exact ih hrest (by simpa using hlast) hnodup' (by simpa using hfuel)
      simp [exListLoop, hne, hn, hparent, habove]

/-- The old root becomes the left child of a new one. -/
theorem Rep.underNewRoot {nodes nodes' : Nat → Option (BtNode K I)} {root next : Nat} :
    ∀ {d : Nat} {l : Tree K (List I) d}, Rep nodes d none (some next) l →
      ∀ (right : Nat), (d = 0 → right = next) →
      nodes' (l.id d) = (nodes (l.id d)).map
        (fun n => { n with parent := some root, next := some right }) →
      (l.ids d).Nodup → (∀ i ∈ l.ids d, i ≠ l.id d → nodes' i = nodes i) →
      Rep nodes' d (some root) (some next) l
  | 0, l, h, right, hright, hroot, _, _ => by
      change nodes' (Leaf.id l) = _
      rw [show nodes' (Leaf.id l) = _ from hroot, show nodes (Tree.id 0 l) = _ from h, hright rfl]
      rfl
  | d + 1, l, ⟨⟨next', hnode⟩, hlinked⟩, right, _, hroot, hnodup, hsame => by
      refine ⟨⟨some right, ?_⟩, hlinked.imp fun succ c hc hrep => hrep.frame fun i hi => ?_⟩
      · rw [show nodes' (Branch.id l) = _ from hroot, show nodes (Tree.id (d + 1) l) = _ from hnode]
        rfl
      · have hmem : i ∈ under (Tree.ids d) (Branch.first l) (Branch.rest l) :=
          mem_under.mpr ⟨c, hc, hi⟩
        refine hsame i (List.mem_cons_of_mem _ hmem) ?_
        rintro rfl
        exact (List.nodup_cons.mp hnodup).1 hmem

/-- The nodes after `insert_into_new_root`. -/
theorem insertIntoNewRoot_eq {s : Index K I} (hfresh : s.FreshLatches) {left right : Nat} (key : K)
    {nl nr : BtNode K I} (hl : s.nodes left = some nl) (hr : s.nodes right = some nr)
    (hne : left ≠ right) (hleft : left ≠ s.btreeNodeId + 1) (hright : right ≠ s.btreeNodeId + 1) :
    ∃ s', s.insertIntoNewRoot left key right = some s' ∧ s'.latches = s.latches ∧
      s'.btreeNodeId = s.btreeNodeId + 1 ∧ s'.root = s.btreeNodeId + 1 ∧
      ∀ i, s'.nodes i =
        if i = left then some { nl with parent := some (s.btreeNodeId + 1), next := some right }
        else if i = right then some { nr with parent := some (s.btreeNodeId + 1) }
        else if i = s.btreeNodeId + 1 then some ⟨[key], .nodes [left, right], none, none⟩
        else s.nodes i := by
  simp only [insertIntoNewRoot, makeNode_snd, setNode_nodes, makeNode_nodes,
    Function.update_of_ne hleft, Function.update_of_ne hright, Function.update_of_ne hne,
    Function.update_of_ne (Ne.symm hne), Function.update_self, hl, hr, Option.bind_eq_bind,
    Option.bind_some, Option.some.injEq, exists_eq_left', setNode_latches, setNode_btreeNodeId,
    makeNode_btreeNodeId]
  refine ⟨hfresh.makeNode _, trivial, trivial, fun i => ?_⟩
  by_cases hi : i = left
  · subst hi
    simp
  · by_cases hi' : i = right
    · subst hi'
      simp [hi]
    · by_cases hi'' : i = s.btreeNodeId + 1
      · subst hi''
        simp [hleft.symm, hright.symm]
      · simp [hi, hi', hi'']

/-- `insert_into_new_root` puts a root over the two halves. -/
theorem Rep.newRoot {s : Index K I} (hfresh : s.FreshLatches) {d : Nat}
    {l r : Tree K (List I) d} (sep : K) (hl : Rep s.nodes d none (some (r.firstLeaf d)) l)
    (hr : Rep s.nodes d none none r) (hnodup : (l.ids d ++ r.ids d).Nodup)
    (hbound : ∀ i ∈ l.ids d ++ r.ids d, i ≤ s.btreeNodeId) :
    ∃ s', s.insertIntoNewRoot (l.id d) sep (r.id d) = some s' ∧ s'.latches = s.latches ∧
      s'.btreeNodeId = s.btreeNodeId + 1 ∧ s'.root = s.btreeNodeId + 1 ∧
      Rep s'.nodes (d + 1) none none
        (⟨s.btreeNodeId + 1, l, [(sep, r)]⟩ : Branch K (Tree K (List I) d)) := by
  obtain ⟨hnodup_l, hnodup_r, hdisjoint⟩ := List.nodup_append'.mp hnodup
  obtain ⟨nl, hnl, -⟩ := hl.root
  obtain ⟨nr, hnr, -⟩ := hr.root
  have hl_mem := Tree.id_mem_ids l
  have hr_mem := Tree.id_mem_ids r
  have hlr : l.id d ≠ r.id d := by
    intro h
    rw [← h] at hr_mem
    exact hdisjoint hl_mem hr_mem
  have hnew : ∀ i ∈ l.ids d ++ r.ids d, i ≠ s.btreeNodeId + 1 := fun i hi => by
    have := hbound i hi
    omega
  obtain ⟨s', hrun, hlatches, hcount, hroot, hnodes⟩ := insertIntoNewRoot_eq hfresh sep
    hnl hnr hlr (hnew _ (List.mem_append_left _ hl_mem)) (hnew _ (List.mem_append_right _ hr_mem))
  refine ⟨s', hrun, hlatches, hcount, hroot, ⟨none, ?_⟩, ?_, ?_⟩
  · rw [hnodes, if_neg (hnew _ (List.mem_append_left _ hl_mem)).symm,
      if_neg (hnew _ (List.mem_append_right _ hr_mem)).symm, if_pos rfl]
    rfl
  · refine Rep.underNewRoot hl (r.id d) ?_ ?_ hnodup_l fun i hi hne => ?_
    · rintro rfl
      rfl
    · rw [hnodes, if_pos rfl, hnl]
      rfl
    · have hir : i ≠ r.id d := by
        rintro rfl
        exact hdisjoint hi hr_mem
      rw [hnodes, if_neg hne, if_neg hir, if_neg (hnew i (List.mem_append_left _ hi))]
  · refine hr.setParent ?_ hnodup_r fun i hi hne => ?_
    · rw [hnodes, if_neg hlr.symm, if_pos rfl, hnr]
      rfl
    · have hil : i ≠ l.id d := by
        rintro rfl
        exact hdisjoint hl_mem hi
      rw [hnodes, if_neg hil, if_neg hne, if_neg (hnew i (List.mem_append_right _ hi))]

/-! ### `find_leaf` -/

section Ordered

variable [LinearOrder K]

/-- The node of an inner tree, and the child on the route of a key. -/
theorem Rep.onRoute {nodes : Nat → Option (BtNode K I)} {d : Nat} {parent succ : Option Nat}
    {t : Tree K (List I) (d + 1)} (h : Rep nodes (d + 1) parent succ t) (key : K) :
    ∃ n ids succ', nodes (Branch.id t) = some n ∧ n.pointers = .nodes ids ∧
      ids[slot key n.keys]? = some ((route key (Branch.first t) (Branch.rest t)).id d) ∧
      Rep nodes d (some (Branch.id t)) succ' (route key (Branch.first t) (Branch.rest t)) := by
  obtain ⟨⟨next, hnode⟩, hlinked⟩ := h
  obtain ⟨succ', hchild⟩ := hlinked.exists _ (route_mem key _ _)
  refine ⟨_, _, succ', hnode, rfl, ?_, hchild⟩
  rw [List.getElem?_map]
  simp only [Branch.children, Branch.keys, getElem?_slot, Option.map_some]

omit [LinearOrder K] in
theorem releaseLatch_share {s : Index K I} {c : Nat} {l : Latch} (hc : s.latches c = l.share)
    (hvalid : l.Valid) (hex : l.latchType ≠ .ex) : s.releaseLatch c = some (s.setLatch c l) := by
  rw [releaseLatch, hc, Latch.drop_share hvalid hex]
  rfl

omit [LinearOrder K] in
/-- `cleanup` gives the ancestors back. -/
theorem cleanup_taken {s : Index K I} {others : Nat → Latch} {c : Nat} {l exs : List Nat}
    (hchain : ParentChain s.nodes c exs) (hnodup : exs.Nodup) (hapart : ∀ i ∈ exs, i ∉ l)
    (hfree : ∀ i ∈ exs, others i = .free) (hlatches : s.latches = taken others l exs)
    (hroom : exs.length ≤ s.btreeNodeId) :
    s.cleanup c exs.getLast? = some (s.withLatches (taken others l [])) := by
  rw [cleanup_eq hchain hnodup ?_ hroom]
  · congr 2
    funext i
    by_cases hi : i ∈ exs
    · simp [taken, hi, hapart i hi, hfree i hi]
    · simp [hlatches, taken, hi]
  · intro i hi
    simp [hlatches, taken, hi, hapart i hi]

/-- One round of the loop of `find_leaf` for an insertion.  Above a full child the node stays
    latched, above any other child all latches but the child's go.  Where another operation is
    in the way, all latches go. -/
theorem findLeafLoop_step {s : Index K I} {others : Nat → Latch} {key : K} {c child : Nat}
    {n nchild : BtNode K I} {ids exs : List Nat} (hn : s.nodes c = some n)
    (hids : n.pointers = .nodes ids) (hslot : ids[slot key n.keys]? = some child)
    (hchild : s.nodes child = some nchild) (hne : c ≠ child) (hc : c ∉ exs) (hchild' : child ∉ exs)
    (hexs : exs.Nodup) (hchain : ParentChain s.nodes c exs) (hvalid : ∀ i, (others i).Valid)
    (hshared : (others c).latchType ≠ .ex) (hfree : ∀ i ∈ exs, others i = .free)
    (hlatches : s.latches = taken others [c] exs) (hroom : exs.length ≤ s.btreeNodeId) (fuel : Nat) :
    findLeafLoop key .insert (fuel + 1) s c exs.getLast? =
      if (others child).latchType = .ex then some (s.withLatches others, none)
      else if nchild.keys.length = btreeOrder - 1 then
        if others c = .free then
          findLeafLoop key .insert fuel (s.withLatches (taken others [child] (c :: exs))) child
            (c :: exs).getLast?
        else some (s.withLatches others, none)
      else findLeafLoop key .insert fuel (s.withLatches (taken others [child] [])) child none := by
  have hchildLatch : s.latches child = others child := by
    simp [hlatches, taken, hchild', Ne.symm hne]
  have hgone : Function.update (taken others [c] exs) c (others c) = taken others [] exs := by
    rw [show taken others [c] exs = taken others ([] ++ [c]) exs from rfl,
      taken_release List.not_mem_nil hc]
  simp only [findLeafLoop, hn, hids, hslot, Option.bind_eq_bind, Option.bind_some, latchNode,
    hchildLatch, Latch.latchNode_sh (hvalid child), Option.map_some]
  by_cases hex : (others child).latchType = .ex
  · -- the child is latched exclusively by another operation
    have hsame : s.setLatch child (others child) = s := by
      rw [setLatch, ← hchildLatch, Function.update_eq_self]
    have hrelease := releaseLatch_share (s := s) (by rw [hlatches, taken_self]) (hvalid c) hshared
    have hclean := cleanup_taken (s := s.setLatch c (others c)) (l := []) hchain hexs (by simp)
      hfree (by rw [setLatch, hlatches, hgone]) hroom
    simp only [if_pos hex, hsame, Bool.false_eq_true, if_false, hrelease, Option.bind_some, hclean,
      taken_nil]
    rfl
  · have hlatched : s.setLatch child (others child).share =
        s.withLatches (taken others [child, c] exs) := by
      rw [setLatch, hlatches, taken_shared]
      rfl
    have hcLatch : taken others [child, c] exs c = (others c).share := by simp [taken]
    simp only [if_neg hex, hlatched, if_true]
    rw [show (s.withLatches (taken others [child, c] exs)).nodes child = some nchild from hchild,
      Option.bind_some]
    have hleft : Function.update (taken others [child, c] exs) c (others c) =
        taken others [child] exs := by
      rw [show taken others [child, c] exs = taken others ([child] ++ [c]) exs from rfl,
        taken_release (by simpa using hne) hc]
    by_cases hfull : nchild.keys.length = btreeOrder - 1
    · simp only [if_pos hfull, upgradeLatch,
        show (s.withLatches (taken others [child, c] exs)).latches c = _ from hcLatch,
        Latch.upgradeLatch_share (hvalid c) hshared, Option.map_some, Option.bind_some]
      by_cases hown : others c = .free
      · have hupgrade : (s.withLatches (taken others [child, c] exs)).setLatch c .exclusive =
            s.withLatches (taken others [child] (c :: exs)) := by
          simp only [setLatch, withLatches]
          rw [show taken others [child, c] exs = taken others ([child] ++ [c]) exs from rfl,
            taken_upgrade (by simpa using hne)]
        have hlast : exs.getLast?.or (some c) = (c :: exs).getLast? := by
          cases exs with
          | nil => rfl
          | cons p ps =>
              rw [List.getLast?_cons_cons, List.getLast?_eq_some_getLast (List.cons_ne_nil p ps)]
              rfl
        simp only [if_pos hown, if_true, hupgrade, hlast]
      · -- another operation shares the node
        have hkept : (s.withLatches (taken others [child, c] exs)).setLatch c (others c).share =
            s.withLatches (taken others [child, c] exs) := by
          simp only [setLatch, withLatches]
          rw [← hcLatch, Function.update_eq_self]
        have hrelease := releaseLatch_share (s := s.withLatches (taken others [child, c] exs))
          (c := c) hcLatch (hvalid c) hshared
        have hrelease' := releaseLatch_share (s := s.withLatches (taken others [child] exs))
          (c := child) taken_self (hvalid child) hex
        have hgone' : Function.update (taken others [child] exs) child (others child) =
            taken others [] exs := by
          rw [show taken others [child] exs = taken others ([] ++ [child]) exs from rfl,
            taken_release List.not_mem_nil hchild']
        have hclean := cleanup_taken (s := s.withLatches (taken others [] exs)) (l := []) hchain
          hexs (by simp) hfree rfl hroom
        have hleft' : (s.withLatches (taken others [child, c] exs)).setLatch c (others c) =
            s.withLatches (taken others [child] exs) := by
          simp only [setLatch, withLatches, hleft]
        have hgone'' : (s.withLatches (taken others [child] exs)).setLatch child (others child) =
            s.withLatches (taken others [] exs) := by
          simp only [setLatch, withLatches, hgone']
        simp only [if_neg hown, reduceCtorEq, if_false, hkept, hrelease, Option.bind_some, hleft',
          hrelease', hgone'', hclean, taken_nil]
        rfl
    · have hapart : ∀ i ∈ exs, i ∉ [child, c] := by
        intro i hi hmem
        rcases List.mem_cons.mp hmem with rfl | hmem
        · exact hchild' hi
        · rw [List.mem_singleton.mp hmem] at hi
          exact hc hi
      have hclean := cleanup_taken (s := s.withLatches (taken others [child, c] exs)) hchain hexs
        hapart hfree rfl hroom
      have hrelease := releaseLatch_share (s := s.withLatches (taken others [child, c] []))
        (c := c) (by simp [withLatches, taken]) (hvalid c) hshared
      have hleft' : Function.update (taken others [child, c] []) c (others c) =
          taken others [child] [] := by
        rw [show taken others [child, c] [] = taken others ([child] ++ [c]) [] from rfl,
          taken_release (by simpa using hne) List.not_mem_nil]
      simp only [if_neg hfull, hclean, Option.bind_some]
      simp only [withLatches, setLatch] at hrelease
      simp only [withLatches, hrelease, Option.bind_some, hleft']

/-- The last round of the loop for an insertion: the leaf is latched exclusively, or another
    operation shares it and all latches go. -/
theorem findLeafLoop_leaf {s : Index K I} {others : Nat → Latch}
    (hvalid : ∀ i, (others i).Valid) (key : K) {t : Tree K (List I) 0} {parent succ : Option Nat}
    {exs : List Nat} (hrep : Rep s.nodes 0 parent succ t) (hid : t.id 0 ∉ exs) (hexs : exs.Nodup)
    (hchain : ParentChain s.nodes (t.id 0) exs) (hshared : (others (t.id 0)).latchType ≠ .ex)
    (hfree : ∀ i ∈ exs, others i = .free) (hlatches : s.latches = taken others [t.id 0] exs)
    (hroom : exs.length ≤ s.btreeNodeId) (fuel : Nat) :
    findLeafLoop key .insert (fuel + 1) s (t.id 0) exs.getLast? =
      if others (t.id 0) = .free then
        some (s.withLatches (taken others [] (t.id 0 :: exs)), some (t.id 0, exs.getLast?))
      else some (s.withLatches others, none) := by
  have hnode : s.nodes (Tree.id 0 t) = _ := hrep
  have hc : s.latches (Tree.id 0 t) = (others (Tree.id 0 t)).share := by
    rw [hlatches, taken_self]
  simp only [findLeafLoop, hnode, Option.bind_eq_bind, Option.bind_some, if_true, upgradeLatch,
    hc, Latch.upgradeLatch_share (hvalid _) hshared, Option.map_some]
  by_cases hown : others (Tree.id 0 t) = .free
  · simp only [if_pos hown, if_true, setLatch, hlatches]
    rw [show taken others [Tree.id 0 t] exs = taken others ([] ++ [Tree.id 0 t]) exs from rfl,
      taken_upgrade List.not_mem_nil]
    rfl
  · have hkept : s.setLatch (Tree.id 0 t) (others (Tree.id 0 t)).share = s := by
      rw [setLatch, ← hc, Function.update_eq_self]
    have hrelease := releaseLatch_share hc (hvalid _) hshared
    have hgone : Function.update (taken others [Tree.id 0 t] exs) (Tree.id 0 t)
        (others (Tree.id 0 t)) = taken others [] exs := by
      rw [show taken others [Tree.id 0 t] exs = taken others ([] ++ [Tree.id 0 t]) exs from rfl,
        taken_release List.not_mem_nil hid]
    have hclean := cleanup_taken (s := s.setLatch (Tree.id 0 t) (others (Tree.id 0 t)))
      (l := []) hchain hexs (by simp) hfree (by rw [setLatch, hlatches, hgone]) hroom
    simp only [if_neg hown, reduceCtorEq, if_false, hkept, hrelease, Option.bind_some, hclean,
      taken_nil]
    rfl

/-- What `find_leaf` has latched for an insertion: the leaf and its ancestors up to `last_ex`,
    which are full below it. -/
structure Latched (nodes : Nat → Option (BtNode K I)) (others latches : Nat → Latch) (leaf : Nat)
    (exs : List Nat) : Prop where
  chain : ParentChain nodes leaf exs
  nodup : (leaf :: exs).Nodup
  latches : latches = taken others [] (leaf :: exs)
  free : ∀ i ∈ leaf :: exs, others i = .free
  full : ∀ i ∈ (leaf :: exs).dropLast, ∃ n, nodes i = some n ∧ n.keys.length = btreeOrder - 1

/-- The loop of `find_leaf` over a represented tree: it gives all latches back and aborts, or it
    has latched the leaf of the key and the ancestors that may be split. -/
theorem findLeafLoop_insert {others : Nat → Latch} (hvalid : ∀ i, (others i).Valid) (key : K) :
    ∀ {d : Nat} {s : Index K I} {t : Tree K (List I) d} {parent succ : Option Nat}
    {exs : List Nat} {fuel : Nat}, Rep s.nodes d parent succ t → (t.ids d).Nodup →
    (∀ i ∈ t.ids d, i ∉ exs) → exs.Nodup → ParentChain s.nodes (t.id d) exs →
    (others (t.id d)).latchType ≠ .ex → (∀ i ∈ exs, others i = .free) →
    (∀ i ∈ (t.id d :: exs).dropLast, ∃ n, s.nodes i = some n ∧ n.keys.length = btreeOrder - 1) →
    s.latches = taken others [t.id d] exs → exs.length + d ≤ s.btreeNodeId → d < fuel →
    (findLeafLoop key .insert fuel s (t.id d) exs.getLast? = some (s.withLatches others, none) ∧
      ∃ i ∈ t.ids d, others i ≠ .free) ∨
    ∃ exs' latches', findLeafLoop key .insert fuel s (t.id d) exs.getLast? =
        some (s.withLatches latches', some ((t.leafOf key d).id, exs'.getLast?)) ∧
      Latched s.nodes others latches' (t.leafOf key d).id exs' ∧
      exs'.length ≤ exs.length + d ∧ ∀ i ∈ exs', i ∈ exs ∨ i ∈ t.ids d
  | 0, s, t, parent, succ, exs, fuel, hrep, hnodup, hapart, hexs, hchain, hshared, hfree, hfull,
      hlatches, hroom, hfuel => by
      obtain ⟨fuel, rfl⟩ := Nat.exists_eq_succ_of_ne_zero (by omega : fuel ≠ 0)
      have hid := hapart _ (Tree.id_mem_ids t)
      rw [findLeafLoop_leaf hvalid key hrep hid hexs hchain hshared hfree hlatches hroom]
      by_cases hown : others (Tree.id 0 t) = .free
      · rw [if_pos hown]
        refine Or.inr ⟨exs, _, rfl,
          ⟨hchain, List.nodup_cons.mpr ⟨hid, hexs⟩, rfl, ?_, hfull⟩, by omega, fun i hi => Or.inl hi⟩
        intro i hi
        rcases List.mem_cons.mp hi with rfl | hi
        · exact hown
        · exact hfree i hi
      · rw [if_neg hown]
        exact Or.inl ⟨rfl, Tree.id 0 t, Tree.id_mem_ids t, hown⟩
  | d + 1, s, t, parent, succ, exs, fuel, hrep, hnodup, hapart, hexs, hchain, hshared, hfree,
      hfull, hlatches, hroom, hfuel => by
      obtain ⟨fuel, rfl⟩ := Nat.exists_eq_succ_of_ne_zero (by omega : fuel ≠ 0)
      obtain ⟨n, ids, succ', hn, hids, hslot, hchild⟩ := Rep.onRoute hrep key
      obtain ⟨nchild, hnchild, hparent⟩ := hchild.root
      obtain ⟨hid, hnodup'⟩ := List.nodup_cons.mp hnodup
      have hunder : ∀ i ∈ (route key (Branch.first t) (Branch.rest t)).ids d,
          i ∈ under (Tree.ids d) (Branch.first t) (Branch.rest t) := fun i hi =>
        mem_under.mpr ⟨_, route_mem key _ _, hi⟩
      have hmemChild := Tree.id_mem_ids (route key (Branch.first t) (Branch.rest t))
      have hne : Tree.id (d + 1) t ≠ (route key (Branch.first t) (Branch.rest t)).id d := by
        intro h
        have hmem := hunder _ hmemChild
        rw [← h] at hmem
        exact hid hmem
      have hchild_exs : ∀ i ∈ (route key (Branch.first t) (Branch.rest t)).ids d, i ∉ exs :=
        fun i hi => hapart i (List.mem_cons_of_mem _ (hunder i hi))
      have hid_exs : Tree.id (d + 1) t ∉ exs := hapart _ (List.mem_cons_self ..)
      have hchildren := (eq_of_nodup_under hnodup' _ (route_mem key _ _)).1
      have hbelow : ∀ i ∈ (route key (Branch.first t) (Branch.rest t)).ids d, i ∈ t.ids (d + 1) :=
        fun i hi => List.mem_cons_of_mem _ (hunder i hi)
      rw [findLeafLoop_step (c := Tree.id (d + 1) t) hn hids hslot hnchild hne hid_exs
        (hchild_exs _ hmemChild) hexs hchain hvalid hshared hfree hlatches (by omega)]
      by_cases hex : (others ((route key (Branch.first t) (Branch.rest t)).id d)).latchType = .ex
      · rw [if_pos hex]
        refine Or.inl ⟨rfl, _, hbelow _ hmemChild, fun heq => ?_⟩
        rw [heq] at hex
        cases hex
      · rw [if_neg hex]
        by_cases hfullChild : nchild.keys.length = btreeOrder - 1
        · rw [if_pos hfullChild]
          by_cases hown : others (Tree.id (d + 1) t) = .free
          · rw [if_pos hown]
            have hheight : (Tree.id (d + 1) t :: exs).length + d ≤ s.btreeNodeId := by
              rw [List.length_cons]
              omega
            have hrest := findLeafLoop_insert hvalid key
              (s := s.withLatches (taken others [(route key (Branch.first t) (Branch.rest t)).id d]
                (Tree.id (d + 1) t :: exs))) hchild hchildren
              (fun i hi hi' => by
                rcases List.mem_cons.mp hi' with rfl | hexs'
                · exact hid (hunder _ hi)
                · exact hchild_exs i hi hexs')
              (List.nodup_cons.mpr ⟨hid_exs, hexs⟩) ⟨⟨nchild, hnchild, hparent⟩, hchain⟩ hex
              (fun i hi => by
                rcases List.mem_cons.mp hi with rfl | hi
                · exact hown
                · exact hfree i hi)
              (fun i hi => by
                rw [List.dropLast_cons_cons] at hi
                rcases List.mem_cons.mp hi with rfl | hi
                · exact ⟨nchild, hnchild, hfullChild⟩
                · exact hfull i hi)
              rfl hheight (by omega : d < fuel)
            rcases hrest with ⟨hrun, i, hi, hheld⟩ | ⟨exs', latches', hrun, hlatched, hlen, hmem⟩
            · exact Or.inl ⟨hrun, i, hbelow i hi, hheld⟩
            · rw [List.length_cons] at hlen
              refine Or.inr ⟨exs', latches', hrun, hlatched, by omega, fun i hi => ?_⟩
              rcases hmem i hi with hi | hi
              · rcases List.mem_cons.mp hi with rfl | hi
                · exact Or.inr (Tree.id_mem_ids t)
                · exact Or.inl hi
              · exact Or.inr (hbelow i hi)
          · rw [if_neg hown]
            exact Or.inl ⟨rfl, _, Tree.id_mem_ids t, hown⟩
        · rw [if_neg hfullChild]
          have hrest := findLeafLoop_insert hvalid key
            (s := s.withLatches (taken others [(route key (Branch.first t) (Branch.rest t)).id d] []))
            hchild hchildren (by simp) List.nodup_nil trivial hex (by simp) (by simp) rfl
            (by change 0 + d ≤ s.btreeNodeId; omega) (by omega : d < fuel)
          rcases hrest with ⟨hrun, i, hi, hheld⟩ | ⟨exs', latches', hrun, hlatched, hlen, hmem⟩
          · exact Or.inl ⟨hrun, i, hbelow i hi, hheld⟩
          · rw [List.length_nil] at hlen
            refine Or.inr ⟨exs', latches', hrun, hlatched, by omega, fun i hi => ?_⟩
            rcases hmem i hi with hi | hi
            · cases hi
            · exact Or.inr (hbelow i hi)

theorem findLeafLoop_read (key : K) : ∀ {d : Nat} {s : Index K I} {t : Tree K (List I) d}
    {parent succ : Option Nat} {fuel : Nat}, Rep s.nodes d parent succ t → (t.ids d).Nodup →
    s.latches = held [t.id d] [] → d < fuel →
    findLeafLoop key .read fuel s (t.id d) none =
      some (s.withLatches (held [(t.leafOf key d).id] []), some ((t.leafOf key d).id, none))
  | 0, s, t, parent, succ, fuel, hrep, _, hlatches, hfuel => by
      obtain ⟨fuel, rfl⟩ := Nat.exists_eq_succ_of_ne_zero (by omega : fuel ≠ 0)
      have hnode : s.nodes (Tree.id 0 t) = _ := hrep
      simp only [findLeafLoop, hnode, Option.bind_eq_bind, Option.bind_some, reduceCtorEq, if_false]
      rw [show held [(Tree.leafOf key 0 t).id] [] = s.latches from hlatches.symm]
      rfl
  | d + 1, s, t, parent, succ, fuel, hrep, hnodup, hlatches, hfuel => by
      obtain ⟨fuel, rfl⟩ := Nat.exists_eq_succ_of_ne_zero (by omega : fuel ≠ 0)
      obtain ⟨n, ids, succ', hn, hids, hslot, hchild⟩ := Rep.onRoute hrep key
      obtain ⟨hid, hnodup'⟩ := List.nodup_cons.mp hnodup
      have hne : Tree.id (d + 1) t ≠ (route key (Branch.first t) (Branch.rest t)).id d := by
        intro h
        have hmem := mem_under.mpr ⟨_, route_mem key (Branch.first t) (Branch.rest t),
          Tree.id_mem_ids (route key (Branch.first t) (Branch.rest t))⟩
        rw [← h] at hmem
        exact hid hmem
      have hrest := findLeafLoop_read key (s := s.withLatches
        (held [(route key (Branch.first t) (Branch.rest t)).id d] [])) hchild
        (eq_of_nodup_under hnodup' _ (route_mem key _ _)).1 rfl (by omega : d < fuel)
      refine Eq.trans ?_ hrest
      generalize hroute : (route key (Branch.first t) (Branch.rest t)).id d = child at *
      have hn' : s.nodes (Tree.id (d + 1) t) = some n := hn
      generalize Tree.id (d + 1) t = c at *
      have hfree : s.latches child = .free := by simp [hlatches, held, Ne.symm hne]
      have hlatched : s.setLatch child .shared = s.withLatches (held [child, c] []) := by
        rw [setLatch, hlatches, held_shared]
        rfl
      have hshared : held [child, c] [] c = .shared := by simp [held]
      simp only [findLeafLoop, hn', hids, hslot, Option.bind_eq_bind, Option.bind_some, latchNode,
        hfree, Latch.latchNode_free, Option.map_some, hlatched, if_true, reduceCtorEq, if_false]
      simp only [releaseLatch, withLatches, hshared, Latch.shared, reduceCtorEq, if_false,
        Option.bind_some, setLatch]
      rw [show (Latch.mk .sh 1).drop = .free from rfl, held_release hne]

/-! ### The whole index -/

/-- The nodes of the index are those of the tree, which is a B+-tree. -/
structure Shape (s : Index K I) {d : Nat} (t : Tree K (List I) d) : Prop where
  rep : Rep s.nodes d none none t
  root : s.root = t.id d
  nodup : (t.ids d).Nodup
  bound : ∀ i ∈ t.ids d, 0 < i ∧ i ≤ s.btreeNodeId
  ordered : t.Ordered d ⊥ ⊤
  occupied : t.Occupied btreeOrder (min d 1) d

/-- The index represents the tree, and all latches are free. -/
structure Represents (s : Index K I) {d : Nat} (t : Tree K (List I) d) : Prop
    extends s.Shape t where
  latches : s.latches = held [] []

/-- The depth is below the number of nodes, so the loops have enough fuel. -/
theorem Shape.depth_lt {s : Index K I} {d : Nat} {t : Tree K (List I) d}
    (h : s.Shape t) : d < s.btreeNodeId := by
  have hsub : t.ids d ⊆ List.range' 1 s.btreeNodeId := by
    intro i hi
    obtain ⟨hpos, hle⟩ := h.bound i hi
    exact List.mem_range'_1.mpr ⟨hpos, by omega⟩
  have hlen := (List.subperm_of_subset h.nodup hsub).length_le
  rw [List.length_range'] at hlen
  exact (Tree.depth_lt_length_ids t).trans_le hlen

/-- `find_leaf` for an insertion, whatever latches other operations hold: it aborts and leaves
    the index as it was, or it has latched the leaf of the key and the ancestors that may be
    split. -/
theorem Shape.findLeaf_insert {s : Index K I} {d : Nat} {t : Tree K (List I) d}
    (h : s.Shape t) (hvalid : ∀ i, (s.latches i).Valid) (key : K) :
    (s.findLeaf key .insert = some (s, none) ∧ ∃ i ∈ t.ids d, s.latches i ≠ .free) ∨
    ∃ exs latches', s.findLeaf key .insert =
        some (s.withLatches latches', some ((t.leafOf key d).id, exs.getLast?)) ∧
      Latched s.nodes s.latches latches' (t.leafOf key d).id exs ∧ exs.length ≤ d ∧
      ∀ i ∈ exs, i ∈ t.ids d := by
  have hdepth := h.depth_lt
  have hroot : s.findLeaf key .insert = if (s.latches (t.id d)).latchType = .ex then some (s, none)
      else findLeafLoop key .insert s.btreeNodeId
        (s.withLatches (taken s.latches [t.id d] [])) (t.id d) none := by
    simp only [findLeaf, reduceCtorEq, if_false, latchNode, h.root, Latch.latchNode_sh (hvalid _),
      Option.map_some, Option.bind_eq_bind, Option.bind_some]
    split
    · have hsame : s.setLatch (t.id d) (s.latches (t.id d)) = s := by
        rw [setLatch, Function.update_eq_self]
      simp only [hsame, Bool.false_eq_true, if_false]
    · have hlatched : s.setLatch (t.id d) (s.latches (t.id d)).share =
          s.withLatches (taken s.latches [t.id d] []) := by
        simp only [setLatch, withLatches]
        congr 1
        funext i
        by_cases hi : i = t.id d <;> simp [taken, hi]
      simp only [hlatched, if_true]
      rw [show (s.withLatches (taken s.latches [t.id d] [])).root = t.id d from h.root]
      rfl
  rw [hroot]
  by_cases hex : (s.latches (t.id d)).latchType = .ex
  · rw [if_pos hex]
    refine Or.inl ⟨rfl, t.id d, Tree.id_mem_ids t, fun heq => ?_⟩
    rw [heq] at hex
    cases hex
  · rw [if_neg hex]
    have hloop := findLeafLoop_insert hvalid key
      (s := s.withLatches (taken s.latches [t.id d] [])) h.rep h.nodup (by simp) List.nodup_nil
      trivial hex (by simp) (by simp) rfl (by change 0 + d ≤ s.btreeNodeId; omega) hdepth
    rcases hloop with ⟨hrun, hheld⟩ | ⟨exs, latches', hrun, hlatched, hlen, hmem⟩
    · exact Or.inl ⟨hrun, hheld⟩
    · exact Or.inr ⟨exs, latches', hrun, hlatched, by simpa using hlen, by simpa using hmem⟩

theorem find_eq_leafHasKey (es : List (K × List I)) (key : K) :
    find key es = (leafHasKey (es.map Prod.fst) key).bind fun idx => (es.map Prod.snd)[idx]? := by
  induction es with
  | nil => rfl
  | cons e es ih =>
      rw [find_cons, ih]
      simp only [leafHasKey, List.map_cons, List.findIdx?_cons, decide_eq_true_eq]
      split
      · rfl
      · rw [Option.bind_map]
        rfl

theorem Rep.leafOf {nodes : Nat → Option (BtNode K I)} (key : K) : ∀ {d : Nat}
    {parent succ : Option Nat} {t : Tree K (List I) d}, Rep nodes d parent succ t →
      ∃ parent' succ', nodes (t.leafOf key d).id = some ⟨(t.leafOf key d).entries.map Prod.fst,
        .items ((t.leafOf key d).entries.map Prod.snd), parent', succ'⟩
  | 0, parent, succ, _, h => ⟨parent, succ, h⟩
  | _ + 1, _, _, _, h => by
      obtain ⟨_, _, _, _, _, _, hchild⟩ := Rep.onRoute h key
      have hleaf := Rep.leafOf key hchild
      exact hleaf

/-- A read finds what the tree holds of the key and leaves the index as it was. -/
theorem Represents.indexRead {s : Index K I} {d : Nat} {t : Tree K (List I) d}
    (h : s.Represents t) (key : K) :
    s.indexRead key = (find key (t.entries d)).map fun chain => (s, chain) := by
  have hlatched : s.setLatch (t.id d) .shared = s.withLatches (held [t.id d] []) := by
    simp only [setLatch, withLatches, h.latches]
    congr 1
    funext i
    by_cases hi : i = t.id d <;> simp [held, hi]
  have hfree : s.latches (t.id d) = .free := by simp [h.latches, held]
  have hfind := findLeafLoop_read key (s := s.withLatches (held [t.id d] [])) h.rep h.nodup rfl
    h.depth_lt
  obtain ⟨parent, succ, hnode⟩ := Rep.leafOf key h.rep
  have hrelease : (s.withLatches (held [(t.leafOf key d).id] [])).releaseLatch
      (t.leafOf key d).id = some s := by
    have hheld : held [(t.leafOf key d).id] [] (t.leafOf key d).id = .shared := by simp [held]
    have hfreed : Function.update (held [(t.leafOf key d).id] []) (t.leafOf key d).id .free =
        s.latches := by
      rw [h.latches]
      funext i
      by_cases hi : i = (t.leafOf key d).id <;> simp [held, hi]
    simp only [releaseLatch, withLatches, hheld, Latch.drop_shared, setLatch, hfreed]
    rfl
  rw [← h.ordered.find_leafOf key, find_eq_leafHasKey]
  simp only [Index.indexRead, findLeaf, reduceCtorEq, if_false, latchNode, h.root, hfree,
    Latch.latchNode_free, Option.map_some, Option.bind_eq_bind, Option.bind_some, hlatched, if_true]
  rw [show (s.withLatches (held [t.id d] [])).root = t.id d from h.root,
    show (s.withLatches (held [t.id d] [])).btreeNodeId = s.btreeNodeId from rfl, hfind]
  simp only [Option.bind_some]
  rw [show ((s.withLatches (held [t.id d] [])).withLatches
    (held [(t.leafOf key d).id] [])).nodes (t.leafOf key d).id = _ from hnode]
  simp only [Option.bind_some]
  cases leafHasKey ((t.leafOf key d).entries.map Prod.fst) key with
  | none => rfl
  | some idx =>
      simp only [Option.bind_some]
      cases ((t.leafOf key d).entries.map Prod.snd)[idx]? with
      | none => rfl
      | some chain =>
          simp only [Option.bind_some, Option.map_some]
          exact congrArg (Option.bind · _) hrelease

theorem leafOf_mem_ids (key : K) : ∀ {d : Nat} (t : Tree K (List I) d),
    (t.leafOf key d).id ∈ t.ids d
  | 0, t => Tree.id_mem_ids t
  | _ + 1, _ => List.mem_cons_of_mem _
      (mem_under.mpr ⟨_, route_mem key _ _, leafOf_mem_ids key _⟩)

/-- The part of `index_insert` that changes nodes refines `Tree.insert`, with a
    new root where the old one is split. -/
theorem Shape.insertAt {s : Index K I} {d : Nat} {t : Tree K (List I) d} (h : s.Shape t)
    (hfresh : s.FreshLatches) (key : K) (item : I) :
    ∃ s' d', ∃ t' : Tree K (List I) d',
      s.insertAt s.btreeNodeId (t.leafOf key d).id key item = some s' ∧
      s'.latches = s.latches ∧ s'.Shape t' ∧
      t'.entries d' = upsert key (push item) (t.entries d) := by
  have hlt := h.depth_lt
  have hbound : ∀ i ∈ t.ids d, i ≤ s.btreeNodeId := fun i hi => (h.bound i hi).2
  obtain ⟨fuel, hfuel⟩ : ∃ fuel, s.btreeNodeId = fuel + 1 + d :=
    ⟨s.btreeNodeId - d - 1, by omega⟩
  obtain ⟨s₂, hcount, hkept, hrun, hlinked⟩ := insertAt_tree key item h.rep h.nodup hbound hfresh
    h.ordered bot_le (WithTop.coe_lt_top key) h.occupied (fuel + 1)
  rw [← hfuel] at hrun
  have hordered := h.ordered.insert (by decide : 3 ≤ btreeOrder) key (push item) s.btreeNodeId
    bot_le (WithTop.coe_lt_top key)
  have hentries := h.ordered.entries_insert (by decide : 3 ≤ btreeOrder) key (push item)
    s.btreeNodeId
  have hoccupied := h.occupied.insert (by decide : 3 ≤ btreeOrder) key (push item) s.btreeNodeId
  have hid := Tree.id_insert (by decide : 2 ≤ btreeOrder) key (push item) s.btreeNodeId t
  obtain ⟨-, hperm⟩ := Tree.perm_insert (by decide : 2 ≤ btreeOrder) key (push item)
    s.btreeNodeId t
  have hids := hperm.nodup_iff.mpr (nodup_append_range h.nodup hbound _)
  have hbound₂ : ∀ i ∈ (Tree.insert btreeOrder key (push item) s.btreeNodeId d t).1.under
      (Tree.ids d), 0 < i ∧ i ≤ s₂.btreeNodeId := by
    intro i hi
    have := hkept.mono
    rcases List.mem_append.mp (hperm.mem_iff.mp hi) with hold | hnew
    · exact ⟨(h.bound i hold).1, (hbound i hold).trans this⟩
    · have := List.mem_range'_1.mp hnew
      omega
  generalize (Tree.insert btreeOrder key (push item) s.btreeNodeId d t).1 = grown at *
  cases grown with
  | one t' =>
      exact ⟨s₂, d, t', hrun, hkept.latches,
        ⟨hlinked, hkept.root.trans (h.root.trans hid.symm), hids, hbound₂, hordered, hoccupied⟩,
        hentries⟩
  | two l sep r =>
      obtain ⟨hl, hr⟩ := hlinked
      obtain ⟨nl, hnl, hparent⟩ := hl.root
      obtain ⟨s₃, hroot, hlatches, hcount₃, hroot₃, hrep⟩ := Rep.newRoot (hkept.fresh hfresh)
        sep hl hr hids fun i hi => (hbound₂ i hi).2
      refine ⟨s₃, d + 1, (⟨s₂.btreeNodeId + 1, l, [(sep, r)]⟩ : Branch K (Tree K (List I) d)), ?_,
        hlatches.trans hkept.latches, ⟨hrep, hroot₃, ?_, ?_, hordered, ?_⟩, hentries⟩
      · rw [hrun]
        simp only [continueAt, insertIntoParent, hnl, hparent, Option.bind_eq_bind,
          Option.bind_some, hroot]
      · refine List.nodup_cons.mpr ⟨fun hi => ?_, hids⟩
        exact absurd (hbound₂ _ hi).2 (Nat.not_succ_le_self _)
      · intro i hi
        rcases List.mem_cons.mp hi with rfl | hi
        · exact ⟨Nat.succ_pos _, hcount₃.ge⟩
        · have := hbound₂ i hi
          omega
      · refine ⟨Nat.min_le_right _ _, (by decide : 1 < btreeOrder), ?_⟩
        intro c hc
        rcases List.mem_cons.mp hc with rfl | hc
        · exact hoccupied.1
        · rw [List.mem_singleton.mp hc]
          exact hoccupied.2

/-- `index_insert`, whatever latches other operations hold: it refines an insertion into the
    tree and leaves the latches as they were, unless `find_leaf` aborts. -/
theorem Shape.indexInsert {s : Index K I} {d : Nat} {t : Tree K (List I) d} (h : s.Shape t)
    (hvalid : ∀ i, (s.latches i).Valid) (hfresh : s.FreshLatches) (hdepth : d < 99) (key : K)
    (item : I) :
    (s.findLeaf key .insert = some (s, none) ∧ s.indexInsert key item = none ∧
      ∃ i ∈ t.ids d, s.latches i ≠ .free) ∨
    ∃ s' d', ∃ t' : Tree K (List I) d', s.indexInsert key item = some s' ∧ s'.Shape t' ∧
      s'.latches = s.latches ∧ t'.entries d' = upsert key (push item) (t.entries d) := by
  rcases h.findLeaf_insert hvalid key with ⟨habort, hheld⟩ |
    ⟨exs, latches', hfind, hlatched, hlen, hmem⟩
  · refine Or.inl ⟨habort, ?_, hheld⟩
    simp only [Index.indexInsert, habort, Option.bind_eq_bind, Option.bind_some, Option.bind_none]
  right
  generalize hs₁ : s.withLatches latches' = s₁ at hfind
  -- the latched nodes are found again from the leaf
  have hexList : s₁.exList (t.leafOf key d).id exs.getLast? =
      some ((t.leafOf key d).id :: exs) := by
    cases hlast : exs.getLast? with
    | none => rw [List.getLast?_eq_none_iff.mp hlast, exList]
    | some lastEx =>
        have hchain₁ : ParentChain s₁.nodes (t.leafOf key d).id exs := hs₁ ▸ hlatched.chain
        exact exListLoop_eq hchain₁ hlast hlatched.nodup (by rw [List.length_cons]; omega)
  have hshape : s₁.Shape t := by
    subst hs₁
    exact ⟨h.rep, h.root, h.nodup, h.bound, h.ordered, h.occupied⟩
  have hlatches₁ : s₁.latches = taken s.latches [] ((t.leafOf key d).id :: exs) := by
    rw [← hs₁]
    exact hlatched.latches
  have hfresh₁ : s₁.FreshLatches := by
    intro i hi
    have hnot : i ∉ (t.leafOf key d).id :: exs := by
      intro hmem'
      have hi' : i ∈ t.ids d := by
        rcases List.mem_cons.mp hmem' with rfl | hexs
        · exact leafOf_mem_ids key t
        · exact hmem i hexs
      exact absurd (hshape.bound i hi').2 (Nat.not_le.mpr hi)
    have hi₁ : s.btreeNodeId < i := by
      rw [← hs₁] at hi
      exact hi
    simp only [hlatches₁, taken, List.not_mem_nil, if_false, if_neg hnot, hfresh i hi₁]
  obtain ⟨s₂, d', t', hinsert, hlatches₂, hshape₂, hentries⟩ := hshape.insertAt hfresh₁ key item
  rw [hlatches₁] at hlatches₂
  have hrelease := releaseAll_eq (s := s₂) hlatched.nodup fun i hi => by
    simp only [hlatches₂, taken, List.not_mem_nil, if_false, if_pos hi]
  have hfreed : (fun i => if i ∈ (t.leafOf key d).id :: exs then Latch.free else s₂.latches i) =
      s.latches := by
    funext i
    by_cases hi : i ∈ (t.leafOf key d).id :: exs
    · rw [if_pos hi, hlatched.free i hi]
    · simp only [if_neg hi, hlatches₂, taken, List.not_mem_nil, if_false]
  refine ⟨s₂.withLatches s.latches, d', t', ?_, ⟨hshape₂.rep, hshape₂.root, hshape₂.nodup,
    hshape₂.bound, hshape₂.ordered, hshape₂.occupied⟩, rfl, hentries⟩
  simp only [Index.indexInsert, hfind, Option.bind_eq_bind, Option.bind_some, hexList, hinsert,
    hrelease, hfreed]

/-- `index_insert` refines an insertion into the tree and releases all latches. -/
theorem Represents.indexInsert {s : Index K I} {d : Nat} {t : Tree K (List I) d}
    (h : s.Represents t) (hdepth : d < 99) (key : K) (item : I) :
    ∃ s' d', ∃ t' : Tree K (List I) d', s.indexInsert key item = some s' ∧ s'.Represents t' ∧
      t'.entries d' = upsert key (push item) (t.entries d) := by
  have hfree : ∀ i, s.latches i = .free := by
    intro i
    simp [h.latches, held]
  have hvalid : ∀ i, (s.latches i).Valid := fun i => (hfree i).symm ▸ Latch.valid_free
  rcases h.toShape.indexInsert hvalid (fun i _ => hfree i) hdepth key item with
    ⟨-, -, i, -, hheld⟩ | ⟨s', d', t', hinsert, hshape, hlatches, hentries⟩
  · exact absurd (hfree i) hheld
  · exact ⟨s', d', t', hinsert, ⟨hshape, hlatches.trans h.latches⟩, hentries⟩

end Ordered

end Index

end VeriTxn.IndexBTree
