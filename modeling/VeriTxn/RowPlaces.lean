import VeriTxn.RangeScans

/-!
# Rows and their places

A row knows its page and its slot as long as nothing moves it: `make_node` sets the back pointers,
and no insertion, split or scan keeps them.  What is left are reads, and insertions of a row that
names its place before it gets there and that moves no other one.
-/

namespace VeriTxn.RowPages

open Bytes BPlusTree IndexBTree HashIndex

/-- Every row in slot `i` of a leaf names this leaf and this slot, also further down the item
    list. -/
def Pages.RowsInPlace (s : Pages) : Prop :=
  ∀ p page data i chain ptr, s.heap p = some page → page.contents = .items data →
    data[i]? = some chain → ptr ∈ chain → ∃ row, s.rows ptr = some ⟨row, some p, i⟩

/-- The calls on the index; the row of an insertion has whatever back pointers its maker left. -/
inductive Call where
  | read (key : IdxKey)
  | insert (key : IdxKey) (obj : RowObj)
  | next (last : RowPtr)

def Call.run (s : Pages) : Call → Option Pages
  | .read key => (s.indexRead key).map Prod.fst
  | .insert key obj => (s.indexInsert key obj).map Prod.fst
  | .next last => (s.indexNext last).map Prod.fst

/-- The row of an insertion into a leaf page joins the items of its key or comes behind all others,
    without a split, and names this place already. -/
def Page.keeps (page : Page) (leaf : PagePtr) (key : IdxKey) (obj : RowObj) : Bool :=
  match page.contents, Index.leafHasKey page.keys key with
  | .items _, some i => decide (obj.fromPage = some leaf ∧ obj.offset = i)
  | .items data, none =>
      decide (page.keys.length < btreeOrder - 1 ∧ position key page.keys = data.length ∧
        obj.fromPage = some leaf ∧ obj.offset = data.length)
  | .nodes _, _ => false

/-- The calls that leave every row in its place: reads, and insertions that meet the condition at
    the leaf of their key. -/
def Call.keeps (s : Pages) : Call → Bool
  | .read _ => true
  | .insert key obj =>
      match Pages.findLeaf key s.index.btreeNodeId s s.root with
      | none => true
      | some (s, leaf) => match s.heap leaf with
        | none => true
        | some page => page.keeps leaf key obj
  | .next _ => false

/-! ### Latches and parents -/

/-- A page without its latch and its parent. -/
def Page.bare (page : Page) : Page := { page with parent := 0, latch := .free }

/-- The same pages up to latches and parents. -/
structure Alike (s s' : Pages) : Prop where
  index : s'.index = s.index
  root : s'.root = s.root
  cache : s'.cache = s.cache
  copies : s'.copies = s.copies
  heap : ∀ p, (s'.heap p).map Page.bare = (s.heap p).map Page.bare

/-- The rows are the same, too. -/
structure Same (s s' : Pages) : Prop extends Alike s s' where
  rows : s'.rows = s.rows
  insertedCnt : s'.insertedCnt = s.insertedCnt

section Same

variable {s s' s'' : Pages} {p : PagePtr}

theorem Alike.refl (s : Pages) : Alike s s := ⟨rfl, rfl, rfl, rfl, fun _ => rfl⟩

theorem Alike.trans (h : Alike s s') (h' : Alike s' s'') : Alike s s'' :=
  ⟨h'.index.trans h.index, h'.root.trans h.root, h'.cache.trans h.cache, h'.copies.trans h.copies,
    fun p => (h'.heap p).trans (h.heap p)⟩

theorem Same.refl (s : Pages) : Same s s := ⟨Alike.refl s, rfl, rfl⟩

theorem Same.trans (h : Same s s') (h' : Same s' s'') : Same s s'' :=
  ⟨h.toAlike.trans h'.toAlike, h'.rows.trans h.rows, h'.insertedCnt.trans h.insertedCnt⟩

/-- A page that changes its latch or its parent. -/
theorem setPage_same {page page' : Page} (hp : s.heap p = some page)
    (hbare : page'.bare = page.bare) : Same s (s.setPage p page') := by
  refine ⟨⟨rfl, rfl, rfl, rfl, fun q => ?_⟩, rfl, rfl⟩
  by_cases hq : q = p
  · subst hq
    simp only [Pages.setPage, Function.update_self, hp, Option.map_some, hbare]
  · simp only [Pages.setPage, Function.update_of_ne hq]

theorem setLatch_same {l : Latch} (h : s.setLatch p l = some s') : Same s s' := by
  obtain ⟨page, hp, heq⟩ := Option.bind_eq_some_iff.mp h
  cases heq
  exact setPage_same hp rfl

theorem setParent_same {parent : Nat} (h : s.setParent p parent = some s') : Same s s' := by
  obtain ⟨page, hp, heq⟩ := Option.bind_eq_some_iff.mp h
  cases heq
  exact setPage_same hp rfl

theorem releaseLatch_same (h : s.releaseLatch p = some s') : Same s s' := by
  obtain ⟨page, -, heq⟩ := Option.bind_eq_some_iff.mp h
  exact setLatch_same heq

theorem latchNode_same {type : LatchT} {ok : Bool} (h : s.latchNode p type = some (ok, s')) :
    Same s s' := by
  obtain ⟨page, -, h⟩ := Option.bind_eq_some_iff.mp h
  obtain ⟨⟨ok', l⟩, -, h⟩ := Option.bind_eq_some_iff.mp h
  obtain ⟨s₁, hset, heq⟩ := Option.bind_eq_some_iff.mp h
  cases heq
  exact setLatch_same hset

theorem upgradeLatch_same {rc : RC} (h : s.upgradeLatch p = some (rc, s')) : Same s s' := by
  obtain ⟨page, -, h⟩ := Option.bind_eq_some_iff.mp h
  obtain ⟨⟨rc', l⟩, -, h⟩ := Option.bind_eq_some_iff.mp h
  obtain ⟨s₁, hset, heq⟩ := Option.bind_eq_some_iff.mp h
  cases heq
  exact setLatch_same hset

theorem cleanupLoop_same {lastEx : PagePtr} {fuel : Nat} {node : PagePtr}
    (h : Pages.cleanupLoop lastEx fuel s node = some s') : Same s s' := by
  induction fuel generalizing s node with
  | zero => cases h
  | succ fuel ih =>
      rw [Pages.cleanupLoop] at h
      obtain ⟨parent, -, h⟩ := Option.bind_eq_some_iff.mp h
      obtain ⟨above, -, h⟩ := Option.bind_eq_some_iff.mp h
      obtain ⟨s₁, hrelease, h⟩ := Option.bind_eq_some_iff.mp h
      obtain ⟨page, -, h⟩ := Option.bind_eq_some_iff.mp h
      obtain ⟨last, -, h⟩ := Option.bind_eq_some_iff.mp h
      have hsame := releaseLatch_same hrelease
      split at h
      · cases h
        exact hsame
      · exact hsame.trans (ih h)

theorem cleanup_same {node : PagePtr} {lastEx : Option PagePtr}
    (h : s.cleanup node lastEx = some s') : Same s s' := by
  cases lastEx with
  | none =>
      cases h
      exact Same.refl _
  | some lastEx => exact cleanupLoop_same h

theorem releaseAll_same {ps : List PagePtr} (h : s.releaseAll ps = some s') : Same s s' := by
  induction ps generalizing s with
  | nil =>
      cases h
      exact Same.refl _
  | cons p ps ih =>
      rw [Pages.releaseAll] at h
      obtain ⟨page, -, h⟩ := Option.bind_eq_some_iff.mp h
      split at h
      · obtain ⟨s₁, hrelease, h⟩ := Option.bind_eq_some_iff.mp h
        exact (releaseLatch_same hrelease).trans (ih h)
      · cases h

/-- A page and the same page up to its latch and its parent. -/
theorem Alike.page (h : Alike s s') {page : Page} (hp : s'.heap p = some page) :
    ∃ page', s.heap p = some page' ∧ page'.keys = page.keys ∧ page'.contents = page.contents ∧
      page'.origin = page.origin := by
  have hmap := h.heap p
  rw [hp, Option.map_some] at hmap
  obtain ⟨page', hp', hbare⟩ := Option.map_eq_some_iff.mp hmap.symm
  simp only [Page.bare, Page.mk.injEq] at hbare
  exact ⟨page', hp', hbare.2.1, hbare.2.2.1, hbare.2.2.2.2.2.1⟩

end Same

/-! ### Loading -/

/-- The rows are in place, and pages and rows that are made are new ones. -/
structure Placed (s : Pages) : Prop where
  inPlace : s.RowsInPlace
  pages : ∀ p, s.heap p ≠ none → p.copy < s.copies p.id
  made : ∀ p i j, s.rows (.made p i j) ≠ none → p.copy < s.copies p.id
  inserted : ∀ k, s.rows (.inserted k) ≠ none → k < s.insertedCnt

section Loads

variable {s s' : Pages}

theorem Placed.same (h : Placed s) (hsame : Same s s') : Placed s' := by
  refine ⟨?_, ?_, ?_, ?_⟩
  · intro p page data i chain ptr hp hdata hchain hptr
    obtain ⟨page', hp', -, hcontents, -⟩ := hsame.page hp
    rw [hsame.rows]
    exact h.inPlace p page' data i chain ptr hp' (hcontents.trans hdata) hchain hptr
  · intro p hp
    rw [hsame.copies]
    refine h.pages p fun hnone => hp ?_
    have hmap := hsame.heap p
    rw [hnone] at hmap
    exact Option.map_eq_none_iff.mp hmap
  · rw [hsame.rows, hsame.copies]
    exact h.made
  · rw [hsame.rows, hsame.insertedCnt]
    exact h.inserted

/-- A new page, and the rows that come with it. -/
theorem Placed.newPage (h : Placed s) {id : Nat} {page : Page} {rows : RowPtr → Option RowObj}
    (hold : ∀ ptr, (∀ i j, ptr ≠ .made ⟨id, s.copies id⟩ i j) → rows ptr = s.rows ptr)
    (hnew : ∀ data i chain ptr, page.contents = .items data → data[i]? = some chain →
      ptr ∈ chain → ∃ row, rows ptr = some ⟨row, some ⟨id, s.copies id⟩, i⟩) :
    Placed { s with
      heap := Function.update s.heap ⟨id, s.copies id⟩ (some page)
      copies := Function.update s.copies id (s.copies id + 1)
      rows := rows } := by
  have hgrow : ∀ p : PagePtr, p.copy < s.copies p.id →
      p.copy < Function.update s.copies id (s.copies id + 1) p.id := by
    intro p hp
    by_cases hid : p.id = id
    · rw [hid, Function.update_self]
      rw [hid] at hp
      omega
    · rwa [Function.update_of_ne hid]
  have hself : s.copies id < Function.update s.copies id (s.copies id + 1) id := by
    rw [Function.update_self]
    omega
  refine ⟨?_, ?_, ?_, ?_⟩
  · intro p page' data i chain ptr hp hdata hchain hptr
    by_cases hpage : p = ⟨id, s.copies id⟩
    · subst hpage
      simp only [Function.update_self, Option.some.injEq] at hp
      subst hp
      exact hnew data i chain ptr hdata hchain hptr
    · simp only [Function.update_of_ne hpage] at hp
      obtain ⟨row, hrow⟩ := h.inPlace p page' data i chain ptr hp hdata hchain hptr
      refine ⟨row, ?_⟩
      rw [← hrow]
      -- the row exists already, so it is none of the new ones
      refine hold ptr fun i' j' heq => ?_
      subst heq
      have hlt := h.made _ i' j' (by rw [hrow]; simp)
      exact absurd hlt (Nat.lt_irrefl _)
  · intro p hp
    by_cases hpage : p = ⟨id, s.copies id⟩
    · subst hpage
      exact hself
    · simp only [Function.update_of_ne hpage] at hp
      exact hgrow p (h.pages p hp)
  · intro p i j hrow
    by_cases hpage : p = ⟨id, s.copies id⟩
    · subst hpage
      exact hself
    · have hother : ∀ i' j', RowPtr.made p i j ≠ .made ⟨id, s.copies id⟩ i' j' :=
        fun i' j' heq => hpage (RowPtr.made.inj heq).1
      exact hgrow p (h.made p i j (hold _ hother ▸ hrow))
  · intro k hrow
    have hother : ∀ i j, RowPtr.inserted k ≠ .made ⟨id, s.copies id⟩ i j := fun _ _ => nofun
    exact h.inserted k (hold _ hother ▸ hrow)

/-- A call that keeps the rows in place, and that leaves the inserted rows alone. -/
structure Loads (s s' : Pages) : Prop where
  placed : Placed s → Placed s'
  inserted : ∀ k, s'.rows (.inserted k) = s.rows (.inserted k)

theorem Loads.refl (s : Pages) : Loads s s := ⟨id, fun _ => rfl⟩

theorem Loads.trans {s'' : Pages} (h : Loads s s') (h' : Loads s' s'') : Loads s s'' :=
  ⟨h'.placed ∘ h.placed, fun k => (h'.inserted k).trans (h.inserted k)⟩

theorem Same.loads (h : Same s s') : Loads s s' := ⟨fun hs => hs.same h, fun k => by rw [h.rows]⟩

theorem makeNode_loads {out id : Nat} {p : PagePtr} (hmake : s.makeNode out id = some (s', p)) :
    Loads s s' := by
  obtain ⟨n, -, hmake⟩ := Option.bind_eq_some_iff.mp hmake
  split at hmake
  · cases hmake
  · cases hpointers : n.pointers with
    | items chains =>
        rw [hpointers] at hmake
        cases hmake
        refine ⟨fun h => h.newPage ?_ ?_, fun _ => rfl⟩
        · intro ptr hptr
          cases ptr with
          | made q i j =>
              refine madeRows_of_ne (fun heq => hptr i j ?_) chains s.rows i j
              rw [heq]
          | inserted k => rfl
        · intro data i chain ptr hdata hchain hptr
          cases hdata
          rw [Pages.madeItems, List.getElem?_mapIdx] at hchain
          obtain ⟨items, hitems, rfl⟩ := Option.map_eq_some_iff.mp hchain
          obtain ⟨j, hj, rfl⟩ := List.mem_mapIdx.mp hptr
          refine ⟨items[j], ?_⟩
          simp [Pages.madeRows, hitems, hj]
    | nodes ids =>
        rw [hpointers] at hmake
        cases hmake
        refine ⟨fun h => h.newPage (fun _ _ => rfl) ?_, fun _ => rfl⟩
        intro data i chain ptr hdata
        cases hdata

theorem loadNode_loads {origin : Option Nat} {id : Nat} {p : PagePtr}
    (h : s.loadNode origin id = some (s', p)) : Loads s s' := by
  rw [Pages.loadNode] at h
  split at h
  · cases h
    exact Loads.refl _
  · obtain ⟨out, -, h⟩ := Option.bind_eq_some_iff.mp h
    split at h
    · cases h
    · obtain ⟨⟨s₁, page⟩, hmake, h⟩ := Option.bind_eq_some_iff.mp h
      cases h
      obtain ⟨hplaced, hinserted⟩ := makeNode_loads hmake
      refine ⟨fun hs => ?_, hinserted⟩
      obtain ⟨hin, hpages, hmade, hins⟩ := hplaced hs
      exact ⟨hin, hpages, hmade, hins⟩

theorem loadChild_loads {c : PagePtr} {i : Nat} {p : Option PagePtr}
    (h : s.loadChild c i = some (s', p)) : Loads s s' := by
  obtain ⟨cur, -, h⟩ := Option.bind_eq_some_iff.mp h
  obtain ⟨o, -, h⟩ := Option.bind_eq_some_iff.mp h
  split at h
  · cases h
  · obtain ⟨id, -, h⟩ := Option.bind_eq_some_iff.mp h
    split at h
    · cases h
      exact Loads.refl _
    · obtain ⟨⟨s₁, page⟩, hload, h⟩ := Option.bind_eq_some_iff.mp h
      cases h
      exact loadNode_loads hload

theorem findLeaf_loads {key : IdxKey} {fuel : Nat} {c leaf : PagePtr}
    (h : Pages.findLeaf key fuel s c = some (s', leaf)) : Loads s s' := by
  induction fuel generalizing s c with
  | zero => cases h
  | succ fuel ih =>
      obtain ⟨cur, -, h⟩ := Option.bind_eq_some_iff.mp h
      split at h
      · cases h
        exact Loads.refl _
      · obtain ⟨⟨s₁, child⟩, hload, h⟩ := Option.bind_eq_some_iff.mp h
        obtain ⟨child, -, h⟩ := Option.bind_eq_some_iff.mp h
        exact (loadChild_loads hload).trans (ih h)

theorem indexRead_loads {key : IdxKey} {item : Option RowPtr}
    (h : s.indexRead key = some (s', item)) : Loads s s' := by
  obtain ⟨⟨s₁, leaf⟩, hfind, h⟩ := Option.bind_eq_some_iff.mp h
  obtain ⟨page, -, h⟩ := Option.bind_eq_some_iff.mp h
  split at h
  · cases h
  · split at h
    · cases h
      exact findLeaf_loads hfind
    · obtain ⟨chain, -, h⟩ := Option.bind_eq_some_iff.mp h
      obtain ⟨s₂, hrelease, h⟩ := Option.bind_eq_some_iff.mp h
      cases h
      exact (findLeaf_loads hfind).trans (releaseLatch_same hrelease).loads

theorem dfs_loads {canForceLoad : Pages → Bool} {fuel : Nat} {c : PagePtr}
    (h : Pages.dfs canForceLoad fuel s c = some s') : Loads s s' := by
  induction fuel generalizing s s' c with
  | zero => cases h
  | succ fuel ih =>
      rw [Pages.dfs] at h
      split at h
      · obtain ⟨cur, -, h⟩ := Option.bind_eq_some_iff.mp h
        split at h
        · cases h
          exact Loads.refl _
        · refine Transition.foldlM_keeps (fun s₁ i s₂ hs₁ hround => ?_) (Loads.refl s) h
          obtain ⟨⟨s₃, child⟩, hload, hround⟩ := Option.bind_eq_some_iff.mp hround
          obtain ⟨child, -, hround⟩ := Option.bind_eq_some_iff.mp hround
          exact hs₁.trans ((loadChild_loads hload).trans (ih hround))
      · cases h
        exact Loads.refl _

/-- After `load_all` the rows are in place. -/
theorem loadAll_placed {canForceLoad : Pages → Bool} {index : Index IdxKey Row}
    (h : Pages.loadAll canForceLoad index = some s) : Placed s := by
  obtain ⟨⟨s₁, root⟩, hmake, h⟩ := Option.bind_eq_some_iff.mp h
  have hempty : Placed ⟨index, ⟨index.root, 0⟩, fun _ => none, fun _ => none, fun _ => 0,
      fun _ => none, 0⟩ := by
    refine ⟨?_, fun p hp => absurd rfl hp, fun p i j hp => absurd rfl hp,
      fun k hk => absurd rfl hk⟩
    intro p page data i chain ptr hp
    cases hp
  obtain ⟨hin, hpages, hmade, hins⟩ := (makeNode_loads hmake).placed hempty
  exact (dfs_loads h).placed ⟨hin, hpages, hmade, hins⟩

end Loads

/-! ### Insertions that keep the rows in place -/

section Inserts

variable {s s' t : Pages}

/-- Loads find the same pages whatever the latches and parents are. -/
theorem Alike.loadNode (h : Alike s s') {origin : Option Nat} {id : Nat} {p : PagePtr}
    {t' : Pages} (hload : s'.loadNode origin id = some (t', p)) :
    ∃ t, s.loadNode origin id = some (t, p) ∧ Alike t t' := by
  obtain ⟨hindex, hroot, hcache, hcopies, hheap⟩ := h
  rw [Pages.loadNode, hcache] at hload
  rw [Pages.loadNode]
  cases hin : s.cache id with
  | some page =>
      rw [hin] at hload
      cases hload
      exact ⟨s, rfl, hindex, hroot, hcache, hcopies, hheap⟩
  | none =>
      simp only [hin, hindex, Option.bind_eq_bind] at hload
      obtain ⟨out, hout, hload⟩ := Option.bind_eq_some_iff.mp hload
      simp only [hout, Option.bind_eq_bind, Option.bind_some]
      split at hload
      · cases hload
      · rename_i hlatch
        obtain ⟨⟨s₁, page⟩, hmake, hload⟩ := Option.bind_eq_some_iff.mp hload
        cases hload
        rw [if_neg hlatch]
        rw [Pages.makeNode] at hmake ⊢
        rw [hindex] at hmake
        obtain ⟨n, hn, hmake⟩ := Option.bind_eq_some_iff.mp hmake
        rw [hn]
        simp only [Option.bind_eq_bind, Option.bind_some]
        split at hmake
        · cases hmake
        · rename_i hkeys
          rw [if_neg hkeys]
          have hupdate : ∀ (q : PagePtr) (page : Page) (p : PagePtr),
              (Function.update s'.heap q (some page) p).map Page.bare =
                (Function.update s.heap q (some page) p).map Page.bare := by
            intro q page p
            by_cases hp : p = q
            · rw [hp, Function.update_self, Function.update_self]
            · rw [Function.update_of_ne hp, Function.update_of_ne hp, hheap]
          cases hpointers : n.pointers with
          | items chains =>
              rw [hpointers] at hmake
              cases hmake
              rw [hcopies]
              exact ⟨_, rfl, rfl, hroot, by rw [hcache], rfl, fun p => hupdate _ _ p⟩
          | nodes ids =>
              rw [hpointers] at hmake
              cases hmake
              rw [hcopies]
              exact ⟨_, rfl, rfl, hroot, by rw [hcache], rfl, fun p => hupdate _ _ p⟩

theorem Alike.loadChild (h : Alike s s') {c : PagePtr} {i : Nat} {p : Option PagePtr} {t' : Pages}
    (hload : s'.loadChild c i = some (t', p)) :
    ∃ t, s.loadChild c i = some (t, p) ∧ Alike t t' := by
  obtain ⟨cur', hcur', hload⟩ := Option.bind_eq_some_iff.mp hload
  obtain ⟨o, ho, hload⟩ := Option.bind_eq_some_iff.mp hload
  obtain ⟨cur, hcur, -, hcontents, horigin⟩ := h.page hcur'
  rw [h.index] at ho
  rw [Pages.loadChild]
  simp only [hcur, horigin, ho, hcontents, Option.bind_eq_bind, Option.bind_some]
  split at hload
  · cases hload
  · obtain ⟨id, hid, hload⟩ := Option.bind_eq_some_iff.mp hload
    simp only [hid, Option.bind_some]
    split at hload
    · rename_i hzero
      cases hload
      rw [if_pos hzero]
      exact ⟨s, rfl, h⟩
    · rename_i hzero
      obtain ⟨⟨t', page⟩, hnode, hload⟩ := Option.bind_eq_some_iff.mp hload
      cases hload
      obtain ⟨t, ht, halike⟩ := h.loadNode hnode
      rw [if_neg hzero, ht]
      exact ⟨t, rfl, halike⟩

/-- `find_leaf` loads pages and changes latches and parents, and it finds the leaf that it finds
    without latches. -/
theorem findLeafLoop_spec {key : IdxKey} {fuel : Nat} {c : PagePtr} {lastEx : Option PagePtr}
    {found : Option (PagePtr × Option PagePtr)} (halike : Alike t s)
    (h : Pages.findLeafLoop key fuel s c lastEx = some (s', found)) :
    Loads s s' ∧ ∀ leaf last, found = some (leaf, last) →
      ∃ t', Pages.findLeaf key fuel t c = some (t', leaf) ∧ Alike t' s' := by
  induction fuel generalizing s t c lastEx with
  | zero => cases h
  | succ fuel ih =>
      obtain ⟨cur, hcur, h⟩ := Option.bind_eq_some_iff.mp h
      obtain ⟨cur', hcur', hkeys, hcontents, -⟩ := halike.page hcur
      split at h
      · rename_i data hdata
        obtain ⟨⟨rc, s₁⟩, hupgrade, h⟩ := Option.bind_eq_some_iff.mp h
        have hsame := upgradeLatch_same hupgrade
        dsimp only at h
        split at h
        · cases h
          refine ⟨hsame.loads, fun leaf last heq => ?_⟩
          cases heq
          refine ⟨t, ?_, halike.trans hsame.toAlike⟩
          rw [Pages.findLeaf]
          simp only [hcur', hcontents, hdata, Option.bind_eq_bind, Option.bind_some]
        · obtain ⟨s₂, hrelease, h⟩ := Option.bind_eq_some_iff.mp h
          obtain ⟨s₃, hcleanup, h⟩ := Option.bind_eq_some_iff.mp h
          cases h
          refine ⟨?_, by simp⟩
          exact ((hsame.trans (releaseLatch_same hrelease)).trans (cleanup_same hcleanup)).loads
      · rename_i ids hids
        split at h
        · obtain ⟨⟨s₁, child⟩, hload, h⟩ := Option.bind_eq_some_iff.mp h
          obtain ⟨child, hchild, hrest⟩ := Option.bind_eq_some_iff.mp h
          subst hchild
          obtain ⟨s₂, hparent, h⟩ := Option.bind_eq_some_iff.mp hrest
          obtain ⟨⟨ok, s₃⟩, hlatch, h⟩ := Option.bind_eq_some_iff.mp h
          obtain ⟨t₁, hload', halike₁⟩ := halike.loadChild hload
          have hsame := (setParent_same hparent).trans (latchNode_same hlatch)
          have hloads := (loadChild_loads hload).trans hsame.loads
          have hdescend : ∀ {fuel' leaf}, Pages.findLeaf key (fuel' + 1) t c = some leaf ↔
              Pages.findLeaf key fuel' t₁ child = some leaf := by
            intro fuel' leaf
            rw [Pages.findLeaf]
            simp only [hcur', hcontents, hids, hkeys, hload', Option.bind_eq_bind,
              Option.bind_some]
          dsimp only at h
          split at h
          · obtain ⟨page, -, h⟩ := Option.bind_eq_some_iff.mp h
            split at h
            · obtain ⟨⟨rc, s₄⟩, hupgrade, h⟩ := Option.bind_eq_some_iff.mp h
              have hsame' := hsame.trans (upgradeLatch_same hupgrade)
              dsimp only at h
              split at h
              · obtain ⟨hrest, hleaf⟩ := ih (halike₁.trans hsame'.toAlike) h
                refine ⟨((loadChild_loads hload).trans hsame'.loads).trans hrest, ?_⟩
                intro leaf last heq
                obtain ⟨t', ht', hto⟩ := hleaf leaf last heq
                exact ⟨t', hdescend.mpr ht', hto⟩
              · obtain ⟨s₅, hrelease, h⟩ := Option.bind_eq_some_iff.mp h
                obtain ⟨s₆, hrelease', h⟩ := Option.bind_eq_some_iff.mp h
                obtain ⟨s₇, hcleanup, h⟩ := Option.bind_eq_some_iff.mp h
                cases h
                refine ⟨?_, by simp⟩
                have hend := ((releaseLatch_same hrelease).trans (releaseLatch_same hrelease')).trans
                  (cleanup_same hcleanup)
                exact (loadChild_loads hload).trans (hsame'.trans hend).loads
            · obtain ⟨s₄, hcleanup, h⟩ := Option.bind_eq_some_iff.mp h
              obtain ⟨s₅, hrelease, h⟩ := Option.bind_eq_some_iff.mp h
              have hsame' := (hsame.trans (cleanup_same hcleanup)).trans
                (releaseLatch_same hrelease)
              obtain ⟨hrest, hleaf⟩ := ih (halike₁.trans hsame'.toAlike) h
              refine ⟨((loadChild_loads hload).trans hsame'.loads).trans hrest, ?_⟩
              intro leaf last heq
              obtain ⟨t', ht', hto⟩ := hleaf leaf last heq
              exact ⟨t', hdescend.mpr ht', hto⟩
          · obtain ⟨s₄, hrelease, h⟩ := Option.bind_eq_some_iff.mp h
            obtain ⟨s₅, hcleanup, h⟩ := Option.bind_eq_some_iff.mp h
            cases h
            refine ⟨?_, by simp⟩
            exact hloads.trans ((releaseLatch_same hrelease).trans (cleanup_same hcleanup)).loads
        · cases h

theorem findLeafInsert_spec {key : IdxKey} {found : Option (PagePtr × Option PagePtr)}
    (halike : Alike t s) (h : s.findLeafInsert key = some (s', found)) :
    Loads s s' ∧ ∀ leaf last, found = some (leaf, last) →
      ∃ t', Pages.findLeaf key t.index.btreeNodeId t t.root = some (t', leaf) ∧ Alike t' s' := by
  obtain ⟨⟨ok, s₁⟩, hlatch, h⟩ := Option.bind_eq_some_iff.mp h
  have hsame := latchNode_same hlatch
  have halike₁ := halike.trans hsame.toAlike
  dsimp only at h
  split at h
  · obtain ⟨hloads, hleaf⟩ := findLeafLoop_spec halike₁ h
    refine ⟨hsame.loads.trans hloads, fun leaf last heq => ?_⟩
    obtain ⟨t', hfind, hto⟩ := hleaf leaf last heq
    rw [halike₁.index, halike₁.root] at hfind
    exact ⟨t', hfind, hto⟩
  · cases h
    exact ⟨hsame.loads, by simp⟩

/-- A row of its own. -/
theorem Placed.newRow (h : Placed s) (obj : RowObj) : Placed (s.newRow obj).1 := by
  refine ⟨?_, h.pages, ?_, ?_⟩
  · intro p page data i chain ptr hp hdata hchain hptr
    obtain ⟨row, hrow⟩ := h.inPlace p page data i chain ptr hp hdata hchain hptr
    refine ⟨row, ?_⟩
    have hne : ptr ≠ .inserted s.insertedCnt := by
      rintro rfl
      exact Nat.lt_irrefl _ (h.inserted _ (by rw [hrow]; simp))
    exact (Function.update_of_ne hne ..).trans hrow
  · intro p i j hrow
    have hne : RowPtr.made p i j ≠ .inserted s.insertedCnt := nofun
    have hsame : (s.newRow obj).1.rows (.made p i j) = s.rows (.made p i j) :=
      Function.update_of_ne hne (some obj) s.rows
    exact h.made p i j (hsame ▸ hrow)
  · intro k hrow
    by_cases hk : k = s.insertedCnt
    · subst hk
      exact Nat.lt_succ_self _
    · have hne : RowPtr.inserted k ≠ .inserted s.insertedCnt := fun heq => hk (RowPtr.inserted.inj heq)
      have hsame : (s.newRow obj).1.rows (.inserted k) = s.rows (.inserted k) := by
        rw [Pages.newRow]
        exact Function.update_of_ne hne (some obj) s.rows
      exact Nat.lt_succ_of_lt (h.inserted k (hsame ▸ hrow))

/-- A leaf whose items are replaced by items in place. -/
theorem Placed.setPage (h : Placed s) {p : PagePtr} {page page' : Page}
    (hp : s.heap p = some page)
    (hin : ∀ data i chain ptr, page'.contents = .items data → data[i]? = some chain →
      ptr ∈ chain → ∃ row, s.rows ptr = some ⟨row, some p, i⟩) : Placed (s.setPage p page') := by
  refine ⟨?_, ?_, h.made, h.inserted⟩
  · intro q page'' data i chain ptr hq hdata hchain hptr
    by_cases hqp : q = p
    · subst hqp
      simp only [Pages.setPage, Function.update_self, Option.some.injEq] at hq
      subst hq
      exact hin data i chain ptr hdata hchain hptr
    · simp only [Pages.setPage, Function.update_of_ne hqp] at hq
      exact h.inPlace q page'' data i chain ptr hq hdata hchain hptr
  · intro q hq
    by_cases hqp : q = p
    · subst hqp
      exact h.pages q (by rw [hp]; simp)
    · simp only [Pages.setPage, Function.update_of_ne hqp] at hq
      exact h.pages q hq

/-- The part that changes nodes puts a row that names its place there and moves no other one. -/
theorem Placed.insertAt (h : Placed s) {fuel : Nat} {leaf : PagePtr} {page : Page} {key : IdxKey}
    {item : RowPtr} {obj : RowObj} (hp : s.heap leaf = some page)
    (hkeeps : page.keeps leaf key obj = true) (hitem : s.rows item = some obj)
    (hinsert : s.insertAt fuel leaf key item = some s') : Placed s' := by
  obtain ⟨row, fromPage, offset⟩ := obj
  rw [Page.keeps] at hkeeps
  rw [Pages.insertAt] at hinsert
  simp only [hp, Option.bind_eq_bind, Option.bind_some] at hinsert
  cases hcontents : page.contents with
  | nodes ids =>
      rw [hcontents] at hkeeps
      cases hkeeps
  | items data =>
      rw [hcontents] at hkeeps
      cases hkey : Index.leafHasKey page.keys key with
      | some i =>
          rw [hkey] at hkeeps
          simp only [decide_eq_true_eq] at hkeeps
          obtain ⟨rfl, rfl⟩ := hkeeps
          rw [if_pos (Or.inr (Option.isSome_of_eq_some hkey)), Pages.insertIntoLeaf] at hinsert
          simp only [hp, hcontents, hkey, Option.bind_eq_bind, Option.bind_some] at hinsert
          obtain ⟨chain, hchain, hinsert⟩ := Option.bind_eq_some_iff.mp hinsert
          cases hinsert
          refine h.setPage hp fun data' i' chain' ptr hdata hchain' hptr => ?_
          cases hdata
          by_cases hi : i' = offset
          · subst hi
            have hlt := (List.getElem?_eq_some_iff.mp hchain).1
            rw [List.getElem?_set_self hlt] at hchain'
            cases hchain'
            rcases List.mem_cons.mp hptr with rfl | hptr
            · exact ⟨row, hitem⟩
            · exact h.inPlace leaf page data i' chain ptr hp hcontents hchain hptr
          · rw [List.getElem?_set_ne (Ne.symm hi)] at hchain'
            exact h.inPlace leaf page data i' chain' ptr hp hcontents hchain' hptr
      | none =>
          rw [hkey] at hkeeps
          simp only [decide_eq_true_eq] at hkeeps
          obtain ⟨hroom, hlast, rfl, rfl⟩ := hkeeps
          rw [if_pos (Or.inl hroom), Pages.insertIntoLeaf] at hinsert
          simp only [hp, hcontents, hkey, Option.bind_eq_bind, Option.bind_some, hlast] at hinsert
          split at hinsert
          · cases hinsert
            refine h.setPage hp fun data' i' chain' ptr hdata hchain' hptr => ?_
            cases hdata
            rw [List.insertIdx_length_self] at hchain'
            by_cases hi : i' < data.length
            · rw [List.getElem?_append_left hi] at hchain'
              exact h.inPlace leaf page data i' chain' ptr hp hcontents hchain' hptr
            · rw [List.getElem?_append_right (Nat.le_of_not_lt hi), List.getElem?_singleton]
                at hchain'
              split at hchain'
              · rename_i hzero
                cases hchain'
                have hend : i' = data.length := by omega
                rw [List.mem_singleton.mp hptr, hend]
                exact ⟨row, hitem⟩
              · cases hchain'
          · cases hinsert

/-- An insertion that meets the condition. -/
theorem Placed.indexInsert (h : Placed s) {key : IdxKey} {obj : RowObj} {rc : RC}
    (hkeeps : (Call.insert key obj).keeps s = true)
    (hinsert : s.indexInsert key obj = some (s', rc)) : Placed s' := by
  rw [Pages.indexInsert] at hinsert
  obtain ⟨⟨s₁, found⟩, hfind, hinsert⟩ := Option.bind_eq_some_iff.mp hinsert
  have halike : Alike s (s.newRow obj).1 := ⟨rfl, rfl, rfl, rfl, fun _ => rfl⟩
  obtain ⟨hloads, hleaf⟩ := findLeafInsert_spec halike hfind
  have h₁ := hloads.placed (h.newRow obj)
  cases found with
  | none =>
      cases hinsert
      exact h₁
  | some found =>
      obtain ⟨leaf, lastEx⟩ := found
      obtain ⟨t, hfind', hto⟩ := hleaf leaf lastEx rfl
      obtain ⟨held, -, hinsert⟩ := Option.bind_eq_some_iff.mp hinsert
      obtain ⟨s₂, hat, hinsert⟩ := Option.bind_eq_some_iff.mp hinsert
      obtain ⟨s₃, hrelease, hinsert⟩ := Option.bind_eq_some_iff.mp hinsert
      cases hinsert
      obtain ⟨page, hpage, -⟩ := Option.bind_eq_some_iff.mp hat
      obtain ⟨page', hpage', hkeys, hcontents, -⟩ := hto.page hpage
      have hkeeps' : page.keeps leaf key obj = true := by
        rw [Call.keeps, hfind'] at hkeeps
        simp only [hpage'] at hkeeps
        rw [Page.keeps, hkeys, hcontents] at hkeeps
        exact hkeeps
      have hitem : s₁.rows (.inserted s.insertedCnt) = some obj := by
        rw [hloads.inserted]
        exact Function.update_self ..
      exact (h₁.insertAt hpage hkeeps' hitem hat).same (releaseAll_same hrelease)

/-- One call. -/
theorem Placed.step (h : Placed s) {call : Call} (hkeeps : call.keeps s = true)
    (hrun : call.run s = some s') : Placed s' := by
  cases call with
  | read key =>
      obtain ⟨⟨s₁, item⟩, hread, rfl⟩ := Option.map_eq_some_iff.mp hrun
      exact (indexRead_loads hread).placed h
  | insert key obj =>
      obtain ⟨⟨s₁, rc⟩, hinsert, rfl⟩ := Option.map_eq_some_iff.mp hrun
      exact h.indexInsert hkeeps hinsert
  | next last => cases hkeeps

end Inserts

/-- **Rows know their page while nothing moves them.**  In every run from `load_all` whose calls all
    meet the condition, every row of a leaf names its page and its slot in the state reached. -/
theorem rows_know_their_page {canForceLoad : Pages → Bool} {index : Index IdxKey Row}
    {s₀ s : Pages} (hload : Pages.loadAll canForceLoad index = some s₀) {calls : List Call}
    (hmeet : Transition.AllSteps Call.run (fun s call => call.keeps s = true) s₀ calls)
    (hrun : Transition.runs Call.run s₀ calls = some s) : s.RowsInPlace := by
  have hplaced : Placed s :=
    Transition.runs_invariant (fun _ _ _ hs hkeeps hstep => hs.step hkeeps hstep)
      (loadAll_placed hload) hmeet hrun
  exact hplaced.inPlace

/-- The tree of three keys, loaded. -/
def threeLoaded : Option Pages :=
  (Transition.runs (fun s op => s.indexInsert op.1 op.2) Index.init threeKeys).bind
    (Pages.loadAll fun _ => true)

/-- A read, and an insertion of a row that names its place behind the others. -/
def keepingCalls : List Call := [.read 2, .insert 4 ⟨⟨4, 4, [0]⟩, some ⟨1, 0⟩, 3⟩]

theorem rows_know_their_page_three_keys :
    ∃ s₀ s, threeLoaded = some s₀ ∧ Transition.runs Call.run s₀ keepingCalls = some s ∧
      s.RowsInPlace := by
  have hsome : (threeLoaded.bind fun s₀ => Transition.runs Call.run s₀ keepingCalls).isSome := by
    decide +kernel
  have hmeet : ∀ s₀ ∈ threeLoaded,
      Transition.AllSteps Call.run (fun s call => call.keeps s = true) s₀ keepingCalls := by
    decide +kernel
  obtain ⟨s, hs⟩ := Option.isSome_iff_exists.mp hsome
  obtain ⟨s₀, hs₀, hrun⟩ := Option.bind_eq_some_iff.mp hs
  obtain ⟨index, -, hload⟩ := Option.bind_eq_some_iff.mp hs₀
  exact ⟨s₀, s, hs₀, hrun, rows_know_their_page hload (hmeet s₀ hs₀) hrun⟩

/-- The first chain of a leaf. -/
def firstChain : Pointers RowPtr → Option (List RowPtr)
  | .items data => data[0]?
  | .nodes _ => none

/-- After a scan step the row of the key 1, in slot 0 of its leaf, names slot 1. -/
theorem scanned_row_out_of_place :
    ∃ s₀ s, threeLoaded = some s₀ ∧
      Transition.runs Call.run s₀ [.read 1, .next (.made ⟨1, 0⟩ 0 0)] = some s ∧
      ¬ s.RowsInPlace := by
  have hrun : (threeLoaded.bind fun s₀ =>
      (Transition.runs Call.run s₀ [.read 1, .next (.made ⟨1, 0⟩ 0 0)]).bind fun s =>
        (s.heap ⟨1, 0⟩).bind fun page => (firstChain page.contents).map fun chain =>
          (chain, (s.rows (.made ⟨1, 0⟩ 0 0)).map RowObj.offset)) =
      some ([.made ⟨1, 0⟩ 0 0], some 1) := by
    decide +kernel
  obtain ⟨s₀, hs₀, hrun⟩ := Option.bind_eq_some_iff.mp hrun
  obtain ⟨s, hs, hrun⟩ := Option.bind_eq_some_iff.mp hrun
  obtain ⟨page, hpage, hrun⟩ := Option.bind_eq_some_iff.mp hrun
  refine ⟨s₀, s, hs₀, hs, fun hin => ?_⟩
  cases hcontents : page.contents with
  | nodes ids =>
      rw [hcontents] at hrun
      cases hrun
  | items data =>
      rw [hcontents] at hrun
      obtain ⟨chain, hchain, heq⟩ := Option.map_eq_some_iff.mp hrun
      obtain ⟨rfl, hoffset⟩ := Prod.mk.inj heq
      obtain ⟨row, hrow⟩ := hin _ page data 0 _ _ hpage hcontents hchain (List.mem_singleton.mpr rfl)
      rw [hrow] at hoffset
      cases hoffset

end VeriTxn.RowPages
