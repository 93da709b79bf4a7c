import Mathlib.Data.Fintype.Card
import Mathlib.Data.List.Chain
import Mathlib.Logic.Relation

/-!
# Depth-first search and the edges back onto its path

The graph is given by lists of outgoing edges.  The search takes the edges of a node in their order
and follows those that are live and lead to a node not seen before.  It collects the edges, live or
not, that lead back onto the path from the root to the node it is at.

A live edge back onto the path closes a cycle, and a graph in which the search meets none has no
cycle in reach of the root.
-/

namespace VeriTxn.DepthFirst

open Relation

variable {α β : Type*}

structure EdgeLists (α β : Type*) where
  edges : α → List β
  target : β → α
  live : β → Bool

/-- An edge that the search met at `node` and that leads back onto `node :: path`, where `path` goes
    from the node before `node` down to the root. -/
structure Back (α β : Type*) where
  node : α
  path : List α
  edge : β

/-! ### The part of the path that an edge back closes -/

/-- The list up to the first `k`. -/
def upTo [DecidableEq α] (k : α) : List α → List α
  | [] => []
  | v :: p => if v = k then [v] else v :: upTo k p

theorem upTo_append [DecidableEq α] (k : α) (p : List α) : ∃ rest, upTo k p ++ rest = p := by
  induction p with
  | nil => exact ⟨[], rfl⟩
  | cons v p ih =>
      simp only [upTo]
      split
      · exact ⟨p, rfl⟩
      · obtain ⟨rest, hrest⟩ := ih
        exact ⟨rest, congrArg (v :: ·) hrest⟩

theorem getLast?_upTo [DecidableEq α] {k : α} {p : List α} (h : k ∈ p) :
    (upTo k p).getLast? = some k := by
  induction p with
  | nil => exact absurd h List.not_mem_nil
  | cons v p ih =>
      simp only [upTo]
      split
      · rename_i hv
        simp [hv]
      · rename_i hv
        rcases List.mem_cons.mp h with rfl | h
        · exact absurd rfl hv
        · simp [List.getLast?_cons, ih h]

theorem head?_upTo [DecidableEq α] (k v : α) (p : List α) : (upTo k (v :: p)).head? = some v := by
  simp only [upTo]
  split <;> rfl

namespace EdgeLists

variable (g : EdgeLists α β)

/-- A live edge leads from `v` to `w`. -/
def Step (v w : α) : Prop := ∃ e ∈ g.edges v, g.live e ∧ g.target e = w

/-- The edges of `v`, in order; `descend` searches from a new node. -/
def scan [DecidableEq α] (descend : α → List α → List α × List (Back α β)) (v : α)
    (path : List α) : List β → List α → List α × List (Back α β)
  | [], seen => (seen, [])
  | e :: es, seen =>
      if g.target e ∈ v :: path then
        let r := scan descend v path es seen
        (r.1, ⟨v, path, e⟩ :: r.2)
      else if g.target e ∉ seen ∧ g.live e then
        let r := descend (g.target e) seen
        let r' := scan descend v path es r.1
        (r'.1, r.2 ++ r'.2)
      else
        scan descend v path es seen

/-- The search from `v`: the nodes seen and the edges back onto the path. -/
def walk [DecidableEq α] : Nat → α → List α → List α → List α × List (Back α β)
  | 0, _, _, seen => (seen, [])
  | n + 1, v, path, seen =>
      g.scan (fun w seen => walk n w (v :: path) seen) v path (g.edges v) (v :: seen)

/-- The edges back onto its path that the search from `root` meets, in this order. -/
def backs [DecidableEq α] [Fintype α] (root : α) : List (Back α β) :=
  (g.walk (Fintype.card α) root [] []).2

/-! ### The search as a relation -/

/-- With `seen` seen, the edges `es` of `v` add up to `seen'` and yield the edges back `bs`. -/
inductive Scans : α → List α → List β → List α → List α → List (Back α β) → Prop where
  | done (v path seen) : Scans v path [] seen seen []
  | back {v path e es seen seen' bs} (honto : g.target e ∈ v :: path)
      (hrest : Scans v path es seen seen' bs) :
      Scans v path (e :: es) seen seen' (⟨v, path, e⟩ :: bs)
  | skip {v path e es seen seen' bs} (hoff : g.target e ∉ v :: path)
      (hskip : g.live e → g.target e ∈ seen) (hrest : Scans v path es seen seen' bs) :
      Scans v path (e :: es) seen seen' bs
  | descend {v path e es seen seen₁ seen' bs₁ bs} (hnew : g.target e ∉ seen) (hlive : g.live e)
      (hoff : g.target e ∉ v :: path)
      (hdown : Scans (g.target e) (v :: path) (g.edges (g.target e)) (g.target e :: seen) seen₁ bs₁)
      (hrest : Scans v path es seen₁ seen' bs) :
      Scans v path (e :: es) seen seen' (bs₁ ++ bs)

variable {g}

theorem Scans.subset {v path es seen seen' bs} (h : g.Scans v path es seen seen' bs) :
    seen ⊆ seen' := by
  induction h with
  | done => exact List.Subset.refl _
  | back _ _ ih => exact ih
  | skip _ _ _ ih => exact ih
  | descend _ _ _ _ _ ihdown ihrest =>
      exact fun u hu => ihrest (ihdown (List.mem_cons_of_mem _ hu))

theorem scan_scans [DecidableEq α] {descend : α → List α → List α × List (Back α β)}
    {v path es seen} (hdescend : ∀ w seen', w ∉ seen' → seen ⊆ seen' →
      g.Scans w (v :: path) (g.edges w) (w :: seen') (descend w seen').1 (descend w seen').2) :
    g.Scans v path es seen (g.scan descend v path es seen).1 (g.scan descend v path es seen).2 := by
  induction es generalizing seen with
  | nil => exact .done v path seen
  | cons e es ih =>
      simp only [scan]
      split
      · rename_i honto
        exact .back honto (ih hdescend)
      · rename_i hoff
        split
        · rename_i hnew
          have hdown := hdescend _ seen hnew.1 (List.Subset.refl _)
          refine .descend hnew.1 hnew.2 hoff hdown (ih ?_)
          intro w seen' hw hsub
          exact hdescend w seen' hw fun u hu => hsub (hdown.subset (List.mem_cons_of_mem _ hu))
        · rename_i hskip
          refine .skip hoff ?_ (ih hdescend)
          intro hlive
          by_contra hnew
          exact hskip ⟨hnew, hlive⟩

/-- Fuel for every node not seen suffices. -/
theorem walk_scans [DecidableEq α] [Fintype α] {n v path seen} (hv : v ∉ seen)
    (hfuel : Fintype.card α ≤ n + seen.toFinset.card) :
    g.Scans v path (g.edges v) (v :: seen) (g.walk n v path seen).1 (g.walk n v path seen).2 := by
  induction n generalizing v path seen with
  | zero =>
      have hlt : seen.toFinset.card < Fintype.card α :=
        Finset.card_lt_univ_of_notMem (by simpa using hv)
      omega
  | succ n ih =>
      apply scan_scans
      intro w seen' hw hsub
      apply ih hw
      have hcons : (v :: seen).toFinset.card = seen.toFinset.card + 1 := by
        rw [List.toFinset_cons, Finset.card_insert_of_notMem (by simpa using hv)]
      have hle : (v :: seen).toFinset.card ≤ seen'.toFinset.card := by
        apply Finset.card_le_card
        intro u hu
        exact List.mem_toFinset.mpr (hsub (List.mem_toFinset.mp hu))
      omega

theorem backs_scans [DecidableEq α] [Fintype α] (root : α) :
    ∃ seen, g.Scans root [] (g.edges root) [root] seen (g.backs root) :=
  ⟨_, walk_scans List.not_mem_nil (Nat.le_add_right _ _)⟩

/-! ### An edge back onto the path closes a cycle -/

variable (g) in
/-- A path of live steps from the root, its end first. -/
structure Trail (root : α) (p : List α) : Prop where
  chain : p.IsChain fun w u => g.Step u w
  nodup : p.Nodup
  reach : ∀ u ∈ p, ReflTransGen g.Step root u

theorem Trail.single (root : α) : g.Trail root [root] := by
  refine ⟨List.isChain_singleton _, List.nodup_singleton _, ?_⟩
  intro u hu
  rw [List.mem_singleton.mp hu]

theorem Trail.cons {root v w : α} {p : List α} (h : g.Trail root (v :: p)) (hstep : g.Step v w)
    (hnew : w ∉ v :: p) : g.Trail root (w :: v :: p) := by
  refine ⟨List.isChain_cons_cons.mpr ⟨hstep, h.chain⟩, List.nodup_cons.mpr ⟨hnew, h.nodup⟩, ?_⟩
  intro u hu
  rcases List.mem_cons.mp hu with rfl | hu
  · exact (h.reach v List.mem_cons_self).tail hstep
  · exact h.reach u hu

variable (g) in
structure Closes (root : α) (b : Back α β) : Prop where
  trail : g.Trail root (b.node :: b.path)
  edge_mem : b.edge ∈ g.edges b.node
  onto : g.target b.edge ∈ b.node :: b.path

theorem Scans.closes {root v path es seen seen' bs} (h : g.Scans v path es seen seen' bs)
    (htrail : g.Trail root (v :: path)) (hes : es ⊆ g.edges v) : ∀ b ∈ bs, g.Closes root b := by
  induction h with
  | done => exact fun b hb => absurd hb List.not_mem_nil
  | back honto _ ih =>
      intro b hb
      rcases List.mem_cons.mp hb with rfl | hb
      · exact ⟨htrail, hes List.mem_cons_self, honto⟩
      · exact ih htrail (fun e he => hes (List.mem_cons_of_mem _ he)) b hb
  | skip _ _ _ ih => exact ih htrail fun e he => hes (List.mem_cons_of_mem _ he)
  | descend _ hlive hoff _ _ ihdown ihrest =>
      intro b hb
      rcases List.mem_append.mp hb with hb | hb
      · have hstep : g.Step _ _ := ⟨_, hes List.mem_cons_self, hlive, rfl⟩
        exact ihdown (htrail.cons hstep hoff) (List.Subset.refl _) b hb
      · exact ihrest htrail (fun e he => hes (List.mem_cons_of_mem _ he)) b hb

theorem backs_close [DecidableEq α] [Fintype α] (root : α) :
    ∀ b ∈ g.backs root, g.Closes root b := by
  obtain ⟨seen, h⟩ := backs_scans (g := g) root
  exact h.closes (.single root) (List.Subset.refl _)

variable (g) in
/-- The path from the node of the edge back down to its target. -/
def lap [DecidableEq α] (b : Back α β) : List α := upTo (g.target b.edge) (b.node :: b.path)

theorem mem_of_mem_lap [DecidableEq α] {b : Back α β} {u : α} (hu : u ∈ g.lap b) :
    u ∈ b.node :: b.path := by
  obtain ⟨rest, hrest⟩ := upTo_append (g.target b.edge) (b.node :: b.path)
  rw [← hrest]
  exact List.mem_append_left _ hu

theorem Trail.left {root : α} {p p' : List α} (h : g.Trail root (p ++ p')) : g.Trail root p :=
  ⟨h.chain.left_of_append, (List.nodup_append.mp h.nodup).1,
    fun u hu => h.reach u (List.mem_append_left _ hu)⟩

theorem Closes.lap_trail [DecidableEq α] {root : α} {b : Back α β} (h : g.Closes root b) :
    g.Trail root (g.lap b) := by
  obtain ⟨rest, hrest⟩ := upTo_append (g.target b.edge) (b.node :: b.path)
  have htrail : g.Trail root (g.lap b ++ rest) := by
    rw [lap, hrest]
    exact h.trail
  exact htrail.left

theorem edges_ne_nil_of_chain {v : α} {p : List α}
    (h : (v :: p).IsChain fun w u => g.Step u w) : ∀ u ∈ p, g.edges u ≠ [] := by
  induction p generalizing v with
  | nil => exact fun u hu => absurd hu List.not_mem_nil
  | cons w p ih =>
      obtain ⟨⟨e, he, _⟩, hchain⟩ := List.isChain_cons_cons.mp h
      intro u hu
      rcases List.mem_cons.mp hu with rfl | hu
      · exact List.ne_nil_of_mem he
      · exact ih hchain u hu

/-- Every node of the path has an edge. -/
theorem Closes.edges_ne_nil {root : α} {b : Back α β} (h : g.Closes root b) :
    ∀ u ∈ b.node :: b.path, g.edges u ≠ [] := by
  intro u hu
  rcases List.mem_cons.mp hu with rfl | hu
  · exact List.ne_nil_of_mem h.edge_mem
  · exact edges_ne_nil_of_chain h.trail.chain u hu

/-! ### No live edge back onto the path, no cycle -/

/-- Every node that is seen and off the path is left behind with no infinite path out of it. -/
theorem Scans.acc {v path es seen seen' bs} (h : g.Scans v path es seen seen' bs)
    (hdead : ∀ b ∈ bs, ¬ g.live b.edge)
    (hseen : ∀ u ∈ seen, u ∉ v :: path → Acc (fun w u => g.Step u w) u) :
    (∀ u ∈ seen', u ∉ v :: path → Acc (fun w u => g.Step u w) u) ∧
      ∀ e ∈ es, g.live e → Acc (fun w u => g.Step u w) (g.target e) := by
  induction h with
  | done => exact ⟨hseen, fun e he => absurd he List.not_mem_nil⟩
  | back _ _ ih =>
      obtain ⟨hseen', hes⟩ := ih (fun b hb => hdead b (List.mem_cons_of_mem _ hb)) hseen
      refine ⟨hseen', ?_⟩
      intro e he hlive
      rcases List.mem_cons.mp he with rfl | he
      · exact absurd hlive (hdead _ List.mem_cons_self)
      · exact hes e he hlive
  | skip hoff hskip _ ih =>
      obtain ⟨hseen', hes⟩ := ih hdead hseen
      refine ⟨hseen', ?_⟩
      intro e he hlive
      rcases List.mem_cons.mp he with rfl | he
      · exact hseen _ (hskip hlive) hoff
      · exact hes e he hlive
  | @descend _ _ e _ _ _ _ _ _ _ _ hoff _ _ ihdown ihrest =>
      obtain ⟨hdown, hedges⟩ := ihdown (fun b hb => hdead b (List.mem_append_left _ hb)) (by
        intro u hu hu'
        rcases List.mem_cons.mp hu with rfl | hu
        · exact absurd List.mem_cons_self hu'
        · exact hseen u hu fun hmem => hu' (List.mem_cons_of_mem _ hmem))
      have htarget : Acc (fun w u => g.Step u w) (g.target e) := Acc.intro _ (by
        rintro w ⟨e', he', hlive', rfl⟩
        exact hedges e' he' hlive')
      obtain ⟨hseen', hes⟩ := ihrest (fun b hb => hdead b (List.mem_append_right _ hb)) (by
        intro u hu hu'
        by_cases hut : u = g.target e
        · exact hut ▸ htarget
        · exact hdown u hu fun hmem => (List.mem_cons.mp hmem).elim hut hu')
      refine ⟨hseen', ?_⟩
      intro e' he' hlive'
      rcases List.mem_cons.mp he' with rfl | he'
      · exact htarget
      · exact hes e' he' hlive'

theorem not_transGen_of_acc {r : α → α → Prop} {u : α} (h : Acc (fun w v => r v w) u) :
    ¬ TransGen r u u := by
  have hacc : Acc (TransGen fun w v => r v w) u := h.transGen
  intro hcycle
  have hswap : TransGen (fun w v => r v w) u u := transGen_swap.mp hcycle
  clear h hcycle
  induction hacc with
  | intro u _ ih => exact ih u hswap hswap

theorem no_cycle_of_backs [DecidableEq α] [Fintype α] {root u : α}
    (hdead : ∀ b ∈ g.backs root, ¬ g.live b.edge) (hreach : ReflTransGen g.Step root u) :
    ¬ TransGen g.Step u u := by
  obtain ⟨seen, h⟩ := backs_scans (g := g) root
  obtain ⟨_, hedges⟩ := h.acc hdead fun u hu hu' => absurd hu hu'
  have hroot : Acc (fun w u => g.Step u w) root := Acc.intro _ (by
    rintro w ⟨e, he, hlive, rfl⟩
    exact hedges e he hlive)
  apply not_transGen_of_acc
  induction hreach with
  | refl => exact hroot
  | tail _ hstep ih => exact ih.inv hstep

end EdgeLists

end VeriTxn.DepthFirst
