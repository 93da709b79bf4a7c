import VeriTxn.HashFloor
import Mathlib.Data.List.Range

/-!
# The nodes of a hash chain

`hash_chain` as the code has it: `hash_item`s linked by `next`, with `head`, `tail`, the
32-bit `size` and the chain's latch.  An operation is `none` when an assertion fails, a null
or deleted item is followed, or the latch is never free.  No list of live items is longer than
the items ever allocated, so the loops have that many turns.
-/

namespace VeriTxn.HashNodes

open HashChain (Strict Agree IsFloor Covers)

/-- `hash_item`. -/
structure Node extends HashItem where
  next : Option Nat

/-- `hash_chain`; `fresh` is the address of the next `new`. -/
structure Chain where
  nodes : Nat → Option Node
  fresh : Nat
  size : UInt32
  head : Option Nat
  tail : Option Nat
  latch : Bool

namespace Chain

/-- The constructor. -/
def new : Chain := ⟨fun _ => none, 0, 0, none, none, false⟩

def lock (c : Chain) : Option Chain := if c.latch then none else some { c with latch := true }

def unlock (c : Chain) : Option Chain := if c.latch then some { c with latch := false } else none

/-- `new hash_item(ts, value)`. -/
def alloc (ts : Nat) (value : UInt64) (c : Chain) : Chain :=
  { c with
    nodes := Function.update c.nodes c.fresh (some ⟨⟨value, ts⟩, none⟩)
    fresh := c.fresh + 1 }

/-- An assignment to `a->next`. -/
def setNext (a : Nat) (x : Option Nat) (c : Chain) : Option Chain :=
  (c.nodes a).map fun n =>
    { c with nodes := Function.update c.nodes a (some { n with next := x }) }

/-- The loop of `vaccum`. -/
def vaccumLoop (validTs : Nat) : Nat → Chain → Option Chain
  | 0, _ => none
  | fuel + 1, c =>
      if c.size > 1 then do
        let oldNode ← c.head
        let n ← c.nodes oldNode
        match n.next with
        | none => some c
        | some next => do
            let m ← c.nodes next
            if m.commitTs ≤ validTs then
              vaccumLoop validTs fuel
                { c with
                  head := some next
                  nodes := Function.update c.nodes oldNode none
                  size := c.size - 1 }
            else some c
      else some c

/-- `vaccum`. -/
def vaccum (validTs : Nat) (c : Chain) : Option Chain := do
  let c ← c.lock
  let c ← vaccumLoop validTs (c.fresh + 1) c
  c.unlock

/-- The loop of `insert`, with the assertion behind it. -/
def insertLoop (ts : Nat) (value : UInt64) : Nat → Nat → Option Nat → Chain → Option Chain
  | 0, _, _, _ => none
  | _ + 1, _, none, _ => none
  | fuel + 1, last, some i, c => do
      let n ← c.nodes i
      if ts = n.commitTs then
        if value = n.value then unlock { c with size := c.size - 1 } else none
      else if n.commitTs > ts then do
        let newNode := c.fresh
        let c := c.alloc ts value
        let l ← c.nodes last
        let c ← c.setNext newNode l.next
        let c ← c.setNext last (some newNode)
        c.unlock
      else insertLoop ts value fuel i n.next c

/-- The branches of `insert`.  For an empty chain and in the loop it allocates a second item, and
    `newNode` is never used. -/
def link (ts : Nat) (value : UInt64) (newNode : Nat) (c : Chain) : Option Chain :=
  match c.head with
  | none => unlock { c.alloc ts value with head := some c.fresh, tail := some c.fresh }
  | some head => do
      let tail ← c.tail
      let t ← c.nodes tail
      if ts > t.commitTs then do
        let c ← c.setNext tail (some newNode)
        unlock { c with tail := some newNode }
      else do
        let h ← c.nodes head
        if ts < h.commitTs then do
          let c ← c.setNext newNode (some head)
          unlock { c with head := some newNode }
        else insertLoop ts value (c.fresh + 1) head (some head) c

/-- `insert`. -/
def insert (ts : Nat) (value : UInt64) (c : Chain) : Option Chain := do
  let c ← c.lock
  let c := { c with size := c.size + 1 }
  link ts value c.fresh (c.alloc ts value)

/-- The arguments `get` writes to. -/
structure Out where
  length : UInt64
  rts : Nat

/-- An exit of `get` with the value of the item at `a`. -/
def answer (a : Nat) (out : Out) (c : Chain) : Option (UInt64 × Out × Chain) := do
  let n ← c.nodes a
  let c ← c.unlock
  some (n.value, { out with rts := n.commitTs }, c)

/-- The loop of `get`, and the exit behind it. -/
def getLoop (ts : Nat) : Nat → Nat → Option Nat → Out → Chain →
    Option (UInt64 × Out × Chain)
  | 0, _, _, _, _ => none
  | _ + 1, _, none, out, c => c.tail.bind fun tail => answer tail out c
  | fuel + 1, last, some i, out, c => do
      let n ← c.nodes i
      if ts < n.commitTs then answer last out c
      else getLoop ts fuel i n.next out c

/-- `get` behind the fast path. -/
def getSlow (ts : Nat) (out : Out) (c : Chain) : Option (UInt64 × Out × Chain) := do
  let head ← c.head
  let h ← c.nodes head
  if ts < h.commitTs then do
    let c ← c.unlock
    some (-1, out, c)
  else getLoop ts (c.fresh + 1) head (some head) out c

/-- `get`; `fast` is `FAST_VERI_CHAIN_ACCESS`. -/
def get (fast : Bool) (ts : Nat) (out : Out) (c : Chain) : Option (UInt64 × Out × Chain) := do
  let c ← c.lock
  if c.size = 0 then do
    let c ← c.unlock
    some (-1, out, c)
  else
    let out := { out with length := c.size.toUInt64 }
    if fast then do
      let tail ← c.tail
      let t ← c.nodes tail
      if ts ≥ t.commitTs then answer tail out c else getSlow ts out c
    else getSlow ts out c

/-! ### The list from `head` to `tail` -/

/-- Following `next` from `top`, the items up to `stop`. -/
def Linked (nodes : Nat → Option Node) : Option Nat → List (Nat × HashItem) → Option Nat → Prop
  | top, [], stop => top = stop
  | top, n :: ns, stop =>
      top = some n.1 ∧ ∃ next, nodes n.1 = some ⟨n.2, next⟩ ∧ Linked nodes next ns stop

/-- The items of the chain, with their addresses. -/
structure Shape (c : Chain) (ns : List (Nat × HashItem)) : Prop where
  linked : Linked c.nodes c.head ns none
  tail_eq : c.tail = ns.getLast?.map Prod.fst
  nodup : (ns.map Prod.fst).Nodup
  below : ∀ n ∈ ns, n.1 < c.fresh

/-- Between two calls, with the right `size`. -/
structure Holds (c : Chain) (ns : List (Nat × HashItem)) : Prop where
  shape : c.Shape ns
  size_eq : c.size.toNat = ns.length
  unlatched : c.latch = false

variable {nodes nodes' : Nat → Option Node} {ns l r : List (Nat × HashItem)}
  {top stop : Option Nat} {c : Chain}

theorem Linked.frame (h : Linked nodes top ns stop)
    (hsame : ∀ n ∈ ns, nodes' n.1 = nodes n.1) : Linked nodes' top ns stop := by
  induction ns generalizing top with
  | nil => exact h
  | cons n ns ih =>
      obtain ⟨htop, next, hnode, hrest⟩ := h
      refine ⟨htop, next, ?_, ih hrest fun m hm => hsame m (List.mem_cons_of_mem n hm)⟩
      rw [hsame n (List.mem_cons_self ..), hnode]

theorem linked_append :
    Linked nodes top (l ++ r) stop ↔ ∃ mid, Linked nodes top l mid ∧ Linked nodes mid r stop := by
  induction l generalizing top with
  | nil => exact ⟨fun h => ⟨top, rfl, h⟩, fun ⟨mid, hmid, h⟩ => hmid ▸ h⟩
  | cons n l ih =>
      constructor
      · rintro ⟨htop, next, hnode, hrest⟩
        obtain ⟨mid, hl, hr⟩ := ih.mp hrest
        exact ⟨mid, ⟨htop, next, hnode, hl⟩, hr⟩
      · rintro ⟨mid, ⟨htop, next, hnode, hl⟩, hr⟩
        exact ⟨htop, next, hnode, ih.mpr ⟨mid, hl, hr⟩⟩

/-- Writing to an address outside the list. -/
theorem Linked.update (h : Linked nodes top ns stop) {a : Nat} (ha : a ∉ ns.map Prod.fst)
    (x : Option Node) : Linked (Function.update nodes a x) top ns stop := by
  refine h.frame fun n hn => Function.update_of_ne (fun heq => ha ?_) ..
  exact heq ▸ List.mem_map_of_mem hn

theorem Linked.node (h : Linked nodes top ns stop) {n : Nat × HashItem} (hn : n ∈ ns) :
    ∃ next, nodes n.1 = some ⟨n.2, next⟩ := by
  obtain ⟨l, r, rfl⟩ := List.append_of_mem hn
  obtain ⟨mid, -, -, next, hnode, -⟩ := linked_append.mp h
  exact ⟨next, hnode⟩

theorem Shape.fresh_not_mem (h : c.Shape ns) : c.fresh ∉ ns.map Prod.fst := by
  intro hmem
  obtain ⟨n, hn, heq⟩ := List.mem_map.mp hmem
  exact Nat.lt_irrefl _ (heq ▸ h.below n hn)

/-- There are at most as many items as ever allocated. -/
theorem Shape.length_le (h : c.Shape ns) : ns.length ≤ c.fresh := by
  have hsub : ns.map Prod.fst ⊆ List.range c.fresh := by
    intro a ha
    obtain ⟨n, hn, rfl⟩ := List.mem_map.mp ha
    exact List.mem_range.mpr (h.below n hn)
  have hle := (List.subperm_of_subset h.nodup hsub).length_le
  rwa [List.length_map, List.length_range] at hle

theorem Shape.alloc (h : c.Shape ns) (ts : Nat) (value : UInt64) :
    (c.alloc ts value).Shape ns where
  linked := h.linked.update h.fresh_not_mem _
  tail_eq := h.tail_eq
  nodup := h.nodup
  below n hn := Nat.lt_succ_of_lt (h.below n hn)

/-- The first and the last item, as the code reads them. -/
theorem Shape.head_node {n : Nat × HashItem} (h : c.Shape (n :: ns)) :
    c.head = some n.1 ∧ ∃ next, c.nodes n.1 = some ⟨n.2, next⟩ ∧ Linked c.nodes next ns none :=
  h.linked

theorem Shape.tail_node (h : c.Shape ns) {n : Nat × HashItem} (hn : ns.getLast? = some n) :
    c.tail = some n.1 ∧ ∃ next, c.nodes n.1 = some ⟨n.2, next⟩ := by
  refine ⟨by rw [h.tail_eq, hn]; rfl, ?_⟩
  exact h.linked.node (List.mem_of_getLast? hn)

/-! ### Insertion -/

theorem lock_eq (h : c.latch = false) : c.lock = some { c with latch := true } := by
  rw [lock, h]
  rfl

theorem unlock_eq (h : c.latch = true) : c.unlock = some { c with latch := false } := by
  rw [unlock, h]
  rfl

theorem setNext_eq {a : Nat} {n : Node} (h : c.nodes a = some n) (x : Option Nat) :
    c.setNext a x =
      some { c with nodes := Function.update c.nodes a (some { n with next := x }) } := by
  rw [setNext, h]
  rfl

/-- A new item between the one at `a` and the next. -/
theorem Linked.insertAfter {a b : Nat} {p item : HashItem} {next : Option Nat}
    (h : Linked nodes top (l ++ (a, p) :: r) stop)
    (hnodup : ((l ++ (a, p) :: r).map Prod.fst).Nodup)
    (hb : b ∉ (l ++ (a, p) :: r).map Prod.fst) (ha : nodes a = some ⟨p, next⟩) :
    Linked (Function.update (Function.update nodes b (some ⟨item, next⟩)) a (some ⟨p, some b⟩))
      top (l ++ (a, p) :: (b, item) :: r) stop := by
  rw [List.map_append, List.map_cons] at hnodup hb
  obtain ⟨-, hright, hdisjoint⟩ := List.nodup_append.mp hnodup
  have hal : a ∉ l.map Prod.fst := fun hmem => hdisjoint a hmem a (List.mem_cons_self ..) rfl
  have har : a ∉ r.map Prod.fst := (List.nodup_cons.mp hright).1
  have hba : b ≠ a := by
    rintro rfl
    exact hb (List.mem_append_right _ (List.mem_cons_self ..))
  have hbl : b ∉ l.map Prod.fst := fun hmem => hb (List.mem_append_left _ hmem)
  have hbr : b ∉ r.map Prod.fst := fun hmem =>
    hb (List.mem_append_right _ (List.mem_cons_of_mem _ hmem))
  obtain ⟨mid, hl, hmid, next', ha', hr⟩ := linked_append.mp h
  rw [ha] at ha'
  cases ha'
  refine linked_append.mpr ⟨mid, (hl.update hbl _).update hal _, hmid, some b, ?_, rfl, next, ?_, ?_⟩
  · exact Function.update_self ..
  · rw [Function.update_of_ne hba, Function.update_self]
  · exact (hr.update hbr _).update har _

/-- Where the loop of `insert` stops it puts the item, between `last` and the next. -/
theorem Shape.insertAfter {a : Nat} {p : HashItem} {n : Nat × HashItem} {next : Option Nat}
    (h : c.Shape (l ++ (a, p) :: n :: r)) (ha : c.nodes a = some ⟨p, next⟩) (item : HashItem) :
    ∃ c₁ c₂, (c.alloc item.commitTs item.value).setNext c.fresh next = some c₁ ∧
      c₁.setNext a (some c.fresh) = some c₂ ∧ c₂.Shape (l ++ (a, p) :: (c.fresh, item) :: n :: r) ∧
      c₂.size = c.size ∧ c₂.latch = c.latch := by
  have hmem : a ∈ (l ++ (a, p) :: n :: r).map Prod.fst := by simp
  have hne : a ≠ c.fresh := by
    rintro rfl
    exact h.fresh_not_mem hmem
  have hnew : (c.alloc item.commitTs item.value).nodes c.fresh = some ⟨item, none⟩ :=
    Function.update_self ..
  have hold : (Function.update (c.alloc item.commitTs item.value).nodes c.fresh
      (some ⟨item, next⟩)) a = some ⟨p, next⟩ := by
    rw [Function.update_of_ne hne]
    exact (Function.update_of_ne hne ..).trans ha
  refine ⟨_, _, setNext_eq hnew next, setNext_eq hold (some c.fresh), ?_, rfl, rfl⟩
  have hperm : (l ++ (a, p) :: (c.fresh, item) :: n :: r).Perm
      ((c.fresh, item) :: (l ++ (a, p) :: n :: r)) := by
    have hmid : ((l ++ [(a, p)]) ++ (c.fresh, item) :: n :: r).Perm
        ((c.fresh, item) :: ((l ++ [(a, p)]) ++ n :: r)) := List.perm_middle
    rwa [List.append_assoc, List.append_assoc] at hmid
  refine ⟨?_, h.tail_eq.trans (by simp), ?_, fun m hm => ?_⟩
  · simp only [Chain.alloc, Function.update_idem]
    exact h.linked.insertAfter h.nodup h.fresh_not_mem ha
  · rw [(hperm.map Prod.fst).nodup_iff]
    exact List.nodup_cons.mpr ⟨h.fresh_not_mem, h.nodup⟩
  · rcases List.mem_cons.mp (hperm.mem_iff.mp hm) with rfl | hm
    · exact Nat.lt_succ_self _
    · exact Nat.lt_succ_of_lt (h.below m hm)

theorem Shape.relabel (h : c.Shape ns) (size : UInt32) (latch : Bool) :
    ({ c with size := size, latch := latch }).Shape ns :=
  ⟨h.linked, h.tail_eq, h.nodup, h.below⟩

theorem size_pred {size : UInt32} {k : Nat} (h : size.toNat = k + 1) : (size - 1).toNat = k := by
  have hone : (1 : UInt32) ≤ size := by
    rw [UInt32.le_iff_toNat_le, h]
    exact Nat.le_add_left ..
  rw [UInt32.toNat_sub_of_le _ _ hone, h]
  exact Nat.add_sub_cancel ..

/-- The loop of `insert` does behind `last` what the loop over the list does. -/
theorem insertLoop_spec {ts : Nat} {value : UInt64} {fuel last : Nat} {p : HashItem}
    {next : Option Nat} {items' : List HashItem} (h : c.Shape (l ++ (last, p) :: r))
    (hsize : c.size.toNat = (l ++ (last, p) :: r).length + 1) (hlatch : c.latch = true)
    (hlast : c.nodes last = some ⟨p, next⟩) (hrest : Linked c.nodes next r none)
    (hfuel : r.length < fuel) (hloop : HashChain.insertLoop ts value (r.map Prod.snd) = some items') :
    ∃ c' r', insertLoop ts value fuel last next c = some c' ∧
      c'.Holds (l ++ (last, p) :: r') ∧ r'.map Prod.snd = items' := by
  induction r generalizing l last p next fuel items' with
  | nil => cases hloop
  | cons n r ih =>
      obtain ⟨i, item⟩ := n
      obtain ⟨fuel, rfl⟩ : ∃ k, fuel = k + 1 := ⟨fuel - 1, by omega⟩
      obtain ⟨rfl, next', hnode, hrest'⟩ := hrest
      rw [List.map_cons, HashChain.insertLoop] at hloop
      simp only [insertLoop, hnode, Option.bind_eq_bind, Option.bind_some]
      by_cases heq : ts = item.commitTs
      · rw [if_pos heq] at hloop ⊢
        by_cases hvalue : value = item.value
        · rw [if_pos hvalue] at hloop ⊢
          cases hloop
          exact ⟨_, (i, item) :: r, unlock_eq hlatch, ⟨h.relabel _ _, size_pred hsize, rfl⟩, rfl⟩
        · rw [if_neg hvalue] at hloop
          cases hloop
      rw [if_neg heq] at hloop ⊢
      by_cases hgt : item.commitTs > ts
      · rw [if_pos hgt] at hloop ⊢
        cases hloop
        obtain ⟨c₁, c₂, hset₁, hset₂, hshape, hsize', hlatch'⟩ :=
          h.insertAfter hlast ⟨value, ts⟩
        have hne : last ≠ c.fresh := Nat.ne_of_lt (h.below (last, p) (by simp))
        have hlast' : (c.alloc ts value).nodes last = some ⟨p, some i⟩ :=
          (Function.update_of_ne hne ..).trans hlast
        refine ⟨{ c₂ with latch := false }, (c.fresh, ⟨value, ts⟩) :: (i, item) :: r, ?_,
          ⟨hshape.relabel c₂.size false, ?_, rfl⟩, rfl⟩
        · rw [hlast', Option.bind_some, hset₁, Option.bind_some, hset₂, Option.bind_some]
          exact unlock_eq (hlatch'.trans hlatch)
        · simp only [hsize', hsize, List.length_append, List.length_cons]
          omega
      · rw [if_neg hgt] at hloop ⊢
        obtain ⟨rest', hloop', rfl⟩ := Option.map_eq_some_iff.mp hloop
        have hshift : ∀ r', l ++ (last, p) :: (i, item) :: r' =
            (l ++ [(last, p)]) ++ (i, item) :: r' := fun r' => by simp
        rw [hshift] at h hsize
        obtain ⟨c', r', hrun, hholds, hmap⟩ :=
          ih h hsize hnode hrest' (Nat.lt_of_succ_lt_succ hfuel) hloop'
        refine ⟨c', (i, item) :: r', hrun, ?_, by rw [List.map_cons, hmap]⟩
        rw [hshift]
        exact hholds

/-- Behind the last item. -/
theorem Shape.append {a : Nat} {p : HashItem} (h : c.Shape (l ++ [(a, p)])) (ts : Nat)
    (value : UInt64) :
    ∃ c₁, (c.alloc ts value).setNext a (some c.fresh) = some c₁ ∧
      ({ c₁ with tail := some c.fresh }).Shape (l ++ [(a, p)] ++ [(c.fresh, HashItem.mk value ts)]) ∧
      c₁.size = c.size ∧ c₁.latch = c.latch := by
  obtain ⟨mid, -, rfl, next, ha, hnext⟩ := linked_append.mp h.linked
  cases hnext
  have hne : a ≠ c.fresh := Nat.ne_of_lt (h.below (a, p) (by simp))
  have ha' : (c.alloc ts value).nodes a = some ⟨p, none⟩ :=
    (Function.update_of_ne hne ..).trans ha
  refine ⟨_, setNext_eq ha' (some c.fresh), ⟨?_, by simp, ?_, fun m hm => ?_⟩, rfl, rfl⟩
  · rw [List.append_assoc]
    exact h.linked.insertAfter h.nodup h.fresh_not_mem ha
  · rw [List.map_append, List.map_singleton, (List.perm_append_singleton ..).nodup_iff]
    exact List.nodup_cons.mpr ⟨h.fresh_not_mem, h.nodup⟩
  · rcases List.mem_append.mp hm with hm | hm
    · exact Nat.lt_succ_of_lt (h.below m hm)
    · rw [List.mem_singleton.mp hm]
      exact Nat.lt_succ_self _

/-- Before the first one. -/
theorem Shape.prepend {n : Nat × HashItem} (h : c.Shape (n :: ns)) (ts : Nat) (value : UInt64) :
    ∃ c₁, (c.alloc ts value).setNext c.fresh (some n.1) = some c₁ ∧
      ({ c₁ with head := some c.fresh }).Shape ((c.fresh, ⟨value, ts⟩) :: n :: ns) ∧
      c₁.size = c.size ∧ c₁.latch = c.latch := by
  have hnew : (c.alloc ts value).nodes c.fresh = some ⟨⟨value, ts⟩, none⟩ :=
    Function.update_self ..
  refine ⟨_, setNext_eq hnew (some n.1), ⟨⟨rfl, some n.1, Function.update_self .., ?_⟩, ?_, ?_,
    fun m hm => ?_⟩, rfl, rfl⟩
  · rw [← h.head_node.1]
    exact ((h.alloc ts value).linked.update h.fresh_not_mem _)
  · exact h.tail_eq.trans (by simp)
  · exact List.nodup_cons.mpr ⟨h.fresh_not_mem, h.nodup⟩
  · rcases List.mem_cons.mp hm with rfl | hm
    · exact Nat.lt_succ_self _
    · exact Nat.lt_succ_of_lt (h.below m hm)

theorem shape_first (c : Chain) (ts : Nat) (value : UInt64) :
    ({ c.alloc ts value with head := some c.fresh, tail := some c.fresh }).Shape
      [(c.fresh, ⟨value, ts⟩)] where
  linked := ⟨rfl, none, Function.update_self .., rfl⟩
  tail_eq := rfl
  nodup := List.pairwise_singleton ..
  below m hm := by
    rw [List.mem_singleton.mp hm]
    exact Nat.lt_succ_self _

theorem link_nil (h : c.Shape []) (hsize : c.size = 1) (hlatch : c.latch = true) (ts : Nat)
    (value : UInt64) :
    ∃ c', link ts value c.fresh (c.alloc ts value) = some c' ∧
      c'.Holds [(c.fresh + 1, ⟨value, ts⟩)] := by
  have hhead : (c.alloc ts value).head = none := h.linked
  refine ⟨_, ?_, (shape_first (c.alloc ts value) ts value).relabel 1 false, rfl, rfl⟩
  rw [link, hhead, ← hsize]
  exact unlock_eq hlatch

theorem link_cons {n : Nat × HashItem} {ts : Nat} {value : UInt64} {items' : List HashItem}
    (h : c.Shape (n :: ns)) (hsize : c.size.toNat = ns.length + 2) (hlatch : c.latch = true)
    (hinsert : (HashChain.mk ((n :: ns).map Prod.snd)).insert ts value = some ⟨items'⟩) :
    ∃ c' ns', link ts value c.fresh (c.alloc ts value) = some c' ∧ c'.Holds ns' ∧
      ns'.map Prod.snd = items' := by
  have hshape := h.alloc ts value
  obtain ⟨hhead, next, hfirst, hrest⟩ := hshape.head_node
  obtain ⟨t, ht⟩ : ∃ t, (n :: ns).getLast? = some t := ⟨_, List.getLast?_cons⟩
  obtain ⟨htail, last, hlast⟩ := hshape.tail_node ht
  have htail' : (HashChain.mk (n.2 :: ns.map Prod.snd)).tail = some t.2 := by
    rw [HashChain.tail, ← List.map_cons, List.getLast?_map, ht]
    rfl
  simp only [HashChain.insert, List.map_cons, htail', List.head?_cons] at hinsert
  simp only [link, hhead, htail, hlast, hfirst, Option.bind_eq_bind, Option.bind_some]
  by_cases happend : ts > t.2.commitTs
  · rw [if_pos happend] at hinsert ⊢
    cases hinsert
    obtain ⟨front, hfront⟩ := List.getLast?_eq_some_iff.mp ht
    rw [hfront] at h
    obtain ⟨c₁, hset, hshape₁, hsize₁, hlatch₁⟩ := h.append ts value
    refine ⟨_, _, by rw [hset, Option.bind_some]; exact unlock_eq (hlatch₁.trans hlatch),
      ⟨hshape₁.relabel c₁.size false, ?_, rfl⟩, ?_⟩
    · rw [← hfront, hsize₁, hsize]
      simp
    · rw [← hfront]
      simp
  rw [if_neg happend] at hinsert ⊢
  by_cases hprepend : ts < n.2.commitTs
  · rw [if_pos hprepend] at hinsert ⊢
    cases hinsert
    obtain ⟨c₁, hset, hshape₁, hsize₁, hlatch₁⟩ := h.prepend ts value
    refine ⟨_, _, by rw [hset, Option.bind_some]; exact unlock_eq (hlatch₁.trans hlatch),
      ⟨hshape₁.relabel c₁.size false, ?_, rfl⟩, rfl⟩
    rw [hsize₁, hsize]
    rfl
  rw [if_neg hprepend] at hinsert ⊢
  obtain ⟨_, hloop, heq⟩ := Option.map_eq_some_iff.mp hinsert
  cases heq
  -- in the first turn `last` and `i` are both the head, which is not after `ts`
  rw [HashChain.insertLoop] at hloop
  simp only [insertLoop, hfirst, Option.bind_eq_bind, Option.bind_some]
  by_cases heq : ts = n.2.commitTs
  · rw [if_pos heq] at hloop ⊢
    by_cases hvalue : value = n.2.value
    · rw [if_pos hvalue] at hloop ⊢
      cases hloop
      exact ⟨_, n :: ns, unlock_eq hlatch, ⟨hshape.relabel _ _, size_pred hsize, rfl⟩, rfl⟩
    · rw [if_neg hvalue] at hloop
      cases hloop
  have hle : n.2.commitTs ≤ ts := Nat.not_lt.mp hprepend
  rw [if_neg heq, if_neg (Nat.not_lt.mpr hle)] at hloop ⊢
  obtain ⟨rest', hloop', rfl⟩ := Option.map_eq_some_iff.mp hloop
  have hlength := hshape.length_le
  obtain ⟨c', r', hrun, hholds, hmap⟩ :=
    insertLoop_spec (l := []) hshape hsize hlatch hfirst hrest hlength hloop'
  exact ⟨c', n :: r', hrun, hholds, by rw [List.map_cons, hmap]⟩

/-- `insert` on the nodes is `insert` on the list. -/
theorem Holds.insert (h : c.Holds ns) (hroom : ns.length + 1 < 2 ^ 32) {ts : Nat} {value : UInt64}
    {items' : List HashItem}
    (hinsert : (HashChain.mk (ns.map Prod.snd)).insert ts value = some ⟨items'⟩) :
    ∃ c' ns', c.insert ts value = some c' ∧ c'.Holds ns' ∧ ns'.map Prod.snd = items' := by
  have hshape := h.shape.relabel (c.size + 1) true
  have hsize : (c.size + 1).toNat = ns.length + 1 := by
    rw [UInt32.toNat_add, h.size_eq]
    exact Nat.mod_eq_of_lt hroom
  rw [Chain.insert, lock_eq h.unlatched]
  cases ns with
  | nil =>
      cases hinsert
      have hone : c.size + 1 = 1 := UInt32.toNat_inj.mp hsize
      obtain ⟨c', hlink, hholds⟩ := link_nil hshape hone rfl ts value
      exact ⟨c', _, hlink, hholds, rfl⟩
  | cons n ns => exact link_cons hshape hsize rfl hinsert

/-! ### Vacuuming -/

theorem Shape.dropHead {n m : Nat × HashItem} (h : c.Shape (n :: m :: ns)) (size : UInt32) :
    ({ c with
      head := some m.1
      nodes := Function.update c.nodes n.1 none
      size := size }).Shape (m :: ns) := by
  obtain ⟨-, next, -, hrest⟩ := h.head_node
  obtain ⟨hn, hnodup⟩ := List.nodup_cons.mp h.nodup
  refine ⟨?_, h.tail_eq.trans (by simp), hnodup, fun k hk => h.below k (List.mem_cons_of_mem n hk)⟩
  rw [hrest.1] at hrest
  exact hrest.update hn none

theorem vaccumLoop_spec {validTs fuel : Nat} (h : c.Shape ns) (hsize : c.size.toNat = ns.length)
    (hfuel : ns.length < fuel) :
    ∃ c' ns', vaccumLoop validTs fuel c = some c' ∧ c'.Shape ns' ∧ c'.size.toNat = ns'.length ∧
      c'.latch = c.latch ∧ ns'.map Prod.snd = HashChain.vaccumLoop validTs (ns.map Prod.snd) := by
  induction ns generalizing c fuel with
  | nil =>
      obtain ⟨fuel, rfl⟩ : ∃ k, fuel = k + 1 := ⟨fuel - 1, by omega⟩
      have hsmall : ¬ c.size > 1 := by
        rw [gt_iff_lt, UInt32.lt_iff_toNat_lt, hsize]
        decide
      exact ⟨c, [], by rw [vaccumLoop, if_neg hsmall], h, hsize, rfl, rfl⟩
  | cons n ns ih =>
      obtain ⟨fuel, rfl⟩ : ∃ k, fuel = k + 1 := ⟨fuel - 1, by omega⟩
      cases ns with
      | nil =>
          have hsmall : ¬ c.size > 1 := by
            rw [gt_iff_lt, UInt32.lt_iff_toNat_lt, hsize]
            exact Nat.lt_irrefl 1
          exact ⟨c, [n], by rw [vaccumLoop, if_neg hsmall], h, hsize, rfl, rfl⟩
      | cons m ns =>
          have hlarge : c.size > 1 := by
            rw [gt_iff_lt, UInt32.lt_iff_toNat_lt, hsize]
            exact Nat.succ_lt_succ (Nat.succ_pos _)
          obtain ⟨hhead, next, hn, rfl, next', hm, -⟩ := h.head_node
          simp only [vaccumLoop, if_pos hlarge, hhead, hn, hm, Option.bind_eq_bind,
            Option.bind_some, List.map_cons, HashChain.vaccumLoop]
          by_cases hle : m.2.commitTs ≤ validTs
          · rw [if_pos hle, if_pos hle]
            exact ih (h.dropHead (c.size - 1)) (size_pred hsize) (Nat.lt_of_succ_lt_succ hfuel)
          · rw [if_neg hle, if_neg hle]
            exact ⟨c, n :: m :: ns, rfl, h, hsize, rfl, rfl⟩

/-- `vaccum` on the nodes is `vaccum` on the list. -/
theorem Holds.vaccum (h : c.Holds ns) (validTs : Nat) :
    ∃ c' ns', c.vaccum validTs = some c' ∧ c'.Holds ns' ∧
      ns'.map Prod.snd = HashChain.vaccumLoop validTs (ns.map Prod.snd) := by
  have hshape := h.shape.relabel c.size true
  obtain ⟨c', ns', hrun, hshape', hsize', hlatch', hmap⟩ :=
    vaccumLoop_spec hshape h.size_eq (Nat.lt_succ_of_le hshape.length_le)
  refine ⟨_, ns', ?_, ⟨hshape'.relabel c'.size false, hsize', rfl⟩, hmap⟩
  rw [Chain.vaccum, lock_eq h.unlatched]
  exact (congrArg (Option.bind · unlock) hrun).trans (unlock_eq hlatch')

/-! ### Lookup -/

/-- What `get` gives back for the item it finds. -/
def found (out : Out) (c : Chain) : Option HashItem → UInt64 × Out × Chain
  | none => (-1, if c.size = 0 then out else { out with length := c.size.toUInt64 }, c)
  | some i => (i.value, ⟨c.size.toUInt64, i.commitTs⟩, c)

theorem answer_eq {a : Nat} {n : Node} {out : Out} (ha : c.nodes a = some n)
    (hlatch : c.latch = true) :
    answer a out c =
      some (n.value, { out with rts := n.commitTs }, { c with latch := false }) := by
  simp only [answer, ha, unlock_eq hlatch, Option.bind_eq_bind, Option.bind_some]

theorem getLoop_spec {fuel last : Nat} {p : HashItem} {next : Option Nat}
    (h : c.Shape (l ++ (last, p) :: r)) (hlatch : c.latch = true)
    (hlast : c.nodes last = some ⟨p, next⟩) (hrest : Linked c.nodes next r none)
    (hfuel : r.length < fuel) (ts : Nat) (out : Out) :
    getLoop ts fuel last next out c =
      some ((HashChain.getLoop ts p (r.map Prod.snd)).value,
        { out with rts := (HashChain.getLoop ts p (r.map Prod.snd)).commitTs },
        { c with latch := false }) := by
  induction r generalizing l last p next fuel with
  | nil =>
      obtain ⟨fuel, rfl⟩ : ∃ k, fuel = k + 1 := ⟨fuel - 1, by omega⟩
      cases hrest
      have htail : c.tail = some last := h.tail_eq.trans (by simp)
      rw [getLoop]
      exact (congrArg (Option.bind · fun tail => answer tail out c) htail).trans
        (answer_eq hlast hlatch)
  | cons n r ih =>
      obtain ⟨i, item⟩ := n
      obtain ⟨fuel, rfl⟩ : ∃ k, fuel = k + 1 := ⟨fuel - 1, by omega⟩
      obtain ⟨rfl, next', hnode, hrest'⟩ := hrest
      simp only [getLoop, hnode, Option.bind_eq_bind, Option.bind_some, List.map_cons,
        HashChain.getLoop]
      by_cases hlt : ts < item.commitTs
      · rw [if_pos hlt, if_pos hlt]
        exact answer_eq hlast hlatch
      · rw [if_neg hlt, if_neg hlt]
        rw [List.append_cons] at h
        exact ih h hnode hrest' (Nat.lt_of_succ_lt_succ hfuel)

theorem getSlow_spec {n : Nat × HashItem} {c' : Chain} (h : c.Shape (n :: ns))
    (hlatch : c.latch = true) (hc' : c' = { c with latch := false }) (hsize : c.size ≠ 0)
    (hstrict : Strict ((n :: ns).map Prod.snd)) (ts : Nat) (out : Out) :
    getSlow ts { out with length := c.size.toUInt64 } c =
      some (found out c' (HashChain.newest ((n :: ns).map Prod.snd) ts)) := by
  obtain ⟨hhead, next, hfirst, hrest⟩ := h.head_node
  have hunlock : c.unlock = some c' := hc' ▸ unlock_eq hlatch
  have hsize' : c'.size = c.size := by rw [hc']
  have hloop := getLoop_spec (l := []) h hlatch hfirst hrest h.length_le ts
  rw [← hc'] at hloop
  simp only [getSlow, hhead, hfirst, Option.bind_eq_bind, Option.bind_some, hunlock]
  rw [List.map_cons] at hstrict ⊢
  obtain ⟨hbefore, hstrict'⟩ := List.pairwise_cons.mp hstrict
  by_cases hlt : ts < n.2.commitTs
  · have hnone : HashChain.newest (n.2 :: ns.map Prod.snd) ts = none := by
      refine HashChain.newest_eq_none fun i hi => ?_
      rcases List.mem_cons.mp hi with rfl | hi
      · exact hlt
      · exact Nat.lt_trans hlt (hbefore i hi)
    rw [if_pos hlt, hnone, found, hsize', if_neg hsize]
  · -- in the first turn `last` and `i` are both the head
    rw [if_neg hlt, getLoop, hfirst]
    simp only [Option.bind_eq_bind, Option.bind_some]
    rw [if_neg hlt, hloop, ← HashChain.getLoop_eq (Nat.not_lt.mp hlt) (hstrict'.imp Nat.le_of_lt),
      found, hsize']

/-- At and after its time stamp the last item is the newest. -/
theorem newest_of_tail {items : List HashItem} {t : HashItem} {ts : Nat} (hstrict : Strict items)
    (ht : items.getLast? = some t) (hts : t.commitTs ≤ ts) : HashChain.newest items ts = some t := by
  have hall : (items.filter fun i => i.commitTs ≤ ts) = items := by
    refine List.filter_eq_self.mpr fun i hi => decide_eq_true ?_
    exact Nat.le_trans (hstrict.ordered.le_tail ht i hi) hts
  rw [HashChain.newest, hall, ht]

/-- A call that changes nothing unlocks the chain it locked. -/
theorem Holds.locked (h : c.Holds ns) :
    ∃ c₁, c.lock = some c₁ ∧ c₁.Shape ns ∧ c₁.latch = true ∧ c = { c₁ with latch := false } ∧
      c₁.unlock = some c ∧ c₁.size = c.size := by
  refine ⟨_, lock_eq h.unlatched, h.shape.relabel c.size true, rfl, by rw [← h.unlatched], ?_, rfl⟩
  rw [unlock_eq rfl, ← h.unlatched]

/-- `get` finds the newest item that counts at `ts`, with and without the fast path. -/
theorem Holds.get (h : c.Holds ns) (hstrict : Strict (ns.map Prod.snd)) (fast : Bool) (ts : Nat)
    (out : Out) :
    c.get fast ts out = some (found out c (HashChain.newest (ns.map Prod.snd) ts)) := by
  obtain ⟨c₁, hlock, hshape, hlatch, hc, hunlock, hsize₁⟩ := h.locked
  simp only [Chain.get, hlock, Option.bind_eq_bind, Option.bind_some]
  cases ns with
  | nil =>
      have hzero : c.size = 0 := UInt32.toNat_inj.mp h.size_eq
      have hnone : HashChain.newest (([] : List (Nat × HashItem)).map Prod.snd) ts = none := rfl
      rw [if_pos (hsize₁.trans hzero), hunlock, Option.bind_some, hnone, found, if_pos hzero]
  | cons n ns =>
      have hsize : c.size ≠ 0 := by
        intro hzero
        have heq := h.size_eq
        rw [hzero] at heq
        cases heq
      have hslow := getSlow_spec hshape hlatch hc (hsize₁ ▸ hsize) hstrict ts out
      rw [if_neg (hsize₁ ▸ hsize)]
      cases fast with
      | false => exact hslow
      | true =>
          obtain ⟨t, ht⟩ : ∃ t, (n :: ns).getLast? = some t := ⟨_, List.getLast?_cons⟩
          obtain ⟨htail, last, hlast⟩ := hshape.tail_node ht
          simp only [htail, hlast, Option.bind_some, if_true]
          by_cases hts : ts ≥ t.2.commitTs
          · have ht' : ((n :: ns).map Prod.snd).getLast? = some t.2 := by
              rw [List.getLast?_map, ht]
              rfl
            rw [if_pos hts, answer_eq hlast hlatch, newest_of_tail hstrict ht' hts, ← hc, hsize₁]
            rfl
          · rw [if_neg hts]
            exact hslow

end Chain

/-! ### Runs -/

/-- A call on the chain. -/
inductive Call where
  | insert (ts : Nat) (value : UInt64)
  | vaccum (validTs : Nat)
deriving DecidableEq

def Call.run (c : Chain) : Call → Option Chain
  | .insert ts value => c.insert ts value
  | .vaccum validTs => c.vaccum validTs

/-- The pair a call inserts. -/
def Call.pair? : Call → Option HashItem
  | .insert ts value => some ⟨value, ts⟩
  | .vaccum _ => none

def Call.vaccum? : Call → Option Nat
  | .insert _ _ => none
  | .vaccum validTs => some validTs

/-- The pairs inserted by a sequence of calls. -/
def inserts (calls : List Call) : List HashItem := calls.filterMap Call.pair?

/-- The arguments of its vacuums. -/
def vaccums (calls : List Call) : List Nat := calls.filterMap Call.vaccum?

/-- The calls on an empty chain. -/
def run (calls : List Call) : Option Chain := calls.foldlM Call.run Chain.new

theorem holds_new : Chain.new.Holds [] where
  shape := ⟨rfl, rfl, List.Pairwise.nil, by simp⟩
  size_eq := rfl
  unlatched := rfl

/-- After a sequence of calls the nodes are a list that stands for the inserted pairs. -/
theorem run_spec {calls : List Call} (hcount : calls.length < 2 ^ 32)
    (hagree : Agree (inserts calls)) :
    ∃ c ns, run calls = some c ∧ c.Holds ns ∧
      Covers (ns.map Prod.snd) (inserts calls) (vaccums calls) := by
  induction calls using List.reverseRecOn with
  | nil => exact ⟨Chain.new, [], rfl, holds_new, List.Pairwise.nil, by simp, by simp [inserts]⟩
  | append_singleton calls call ih =>
      rw [List.length_append, List.length_singleton] at hcount
      have hinserts : inserts (calls ++ [call]) = inserts calls ++ inserts [call] :=
        List.filterMap_append
      have hvaccums : vaccums (calls ++ [call]) = vaccums calls ++ vaccums [call] :=
        List.filterMap_append
      rw [hinserts] at hagree
      have hagree' : Agree (inserts calls) := fun p hp q hq =>
        hagree p (List.mem_append_left _ hp) q (List.mem_append_left _ hq)
      obtain ⟨c, ns, hrun, hholds, hcovers⟩ := ih (Nat.lt_of_succ_lt hcount) hagree'
      have hlast : run (calls ++ [call]) = call.run c := by
        rw [run] at hrun ⊢
        rw [List.foldlM_append, hrun]
        simp only [List.foldlM_cons, List.foldlM_nil, Option.bind_eq_bind, Option.bind_some,
          Option.pure_def, Option.bind_fun_some]
      rw [hlast, hinserts, hvaccums]
      cases call with
      | insert ts value =>
          obtain ⟨items', hinsert, hcovers'⟩ := hcovers.insert hagree
          have hroom : ns.length + 1 < 2 ^ 32 := by
            have hle := hcovers.length_le
            have hfilter : (inserts calls).length ≤ calls.length := List.length_filterMap_le ..
            rw [List.length_map] at hle
            omega
          obtain ⟨c', ns', hrun', hholds', rfl⟩ := hholds.insert hroom hinsert
          refine ⟨c', ns', hrun', hholds', ?_⟩
          rw [show vaccums [Call.insert ts value] = [] from rfl, List.append_nil]
          exact hcovers'
      | vaccum validTs =>
          obtain ⟨c', ns', hrun', hholds', hmap⟩ := hholds.vaccum validTs
          refine ⟨c', ns', hrun', hholds', ?_⟩
          rw [hmap, show inserts [Call.vaccum validTs] = [] from rfl, List.append_nil]
          exact hcovers.vaccum validTs

/-- At a time that no vacuum reached, `get` gives the floor. -/
theorem get_isFloor {calls : List Call} {c : Chain} {ns : List (Nat × HashItem)}
    (h : c.Holds ns) (hcovers : Covers (ns.map Prod.snd) (inserts calls) (vaccums calls))
    {ts : Nat} (hts : ∀ v ∈ vaccums calls, v ≤ ts) (fast : Bool) (out : Chain.Out) :
    ∃ value out', c.get fast ts out = some (value, out', c) ∧
      IsFloor (inserts calls) ts value := by
  have hfloor := hcovers.get_isFloor hts
  rw [HashChain.get_eq_newest hcovers.strict.ordered] at hfloor
  rw [h.get hcovers.strict fast ts out]
  cases hnewest : HashChain.newest (ns.map Prod.snd) ts with
  | none =>
      simp only [hnewest] at hfloor
      exact ⟨_, _, rfl, hfloor⟩
  | some item =>
      simp only [hnewest] at hfloor
      exact ⟨_, _, rfl, hfloor⟩

/-- Fewer than 2^32 insertions and vacuums, in any order, leave a strictly ascending list with its
    `size` and `tail`.  A lookup that no vacuum overtook finds the floor of the inserted pairs, on
    the fast path and without it, and whatever the order of the insertions. -/
theorem chain_is_floor_map {calls : List Call} (hcount : calls.length < 2 ^ 32)
    (hagree : Agree (inserts calls)) :
    ∃ c ns, run calls = some c ∧
      Chain.Linked c.nodes c.head ns none ∧ Strict (ns.map Prod.snd) ∧
      c.size.toNat = ns.length ∧ c.tail = ns.getLast?.map Prod.fst ∧
      (∀ ts out, c.get true ts out = c.get false ts out) ∧
      (∀ ts, (∀ v ∈ vaccums calls, v ≤ ts) → ∀ fast out, ∃ value out',
        c.get fast ts out = some (value, out', c) ∧ IsFloor (inserts calls) ts value) ∧
      ∀ calls', calls'.length < 2 ^ 32 → (inserts calls').Perm (inserts calls) →
        ∃ c', run calls' = some c' ∧ ∀ ts, (∀ v ∈ vaccums calls, v ≤ ts) →
          (∀ v ∈ vaccums calls', v ≤ ts) → ∀ fast out,
            (c'.get fast ts out).map Prod.fst = (c.get fast ts out).map Prod.fst := by
  obtain ⟨c, ns, hrun, hholds, hcovers⟩ := run_spec hcount hagree
  refine ⟨c, ns, hrun, hholds.shape.linked, hcovers.strict, hholds.size_eq, hholds.shape.tail_eq,
    fun ts out => ?_, fun ts hts fast out => get_isFloor hholds hcovers hts fast out,
    fun calls' hcount' hperm => ?_⟩
  · rw [hholds.get hcovers.strict, hholds.get hcovers.strict]
  · have hagree' : Agree (inserts calls') := fun p hp q hq =>
      hagree p (hperm.mem_iff.mp hp) q (hperm.mem_iff.mp hq)
    obtain ⟨c', ns', hrun', hholds', hcovers'⟩ := run_spec hcount' hagree'
    refine ⟨c', hrun', fun ts hts hts' fast out => ?_⟩
    obtain ⟨value, out₁, hget, hfloor⟩ := get_isFloor hholds hcovers hts fast out
    obtain ⟨value', out₂, hget', hfloor'⟩ := get_isFloor hholds' hcovers' hts' fast out
    rw [hget, hget', Option.map_some, Option.map_some]
    exact congrArg some (hfloor'.unique hagree' (fun p => hperm.mem_iff) hfloor)

/-- Insertions out of order, with a duplicate and a vacuum among them. -/
def arrivals : List Call :=
  [.insert 5 50, .insert 3 30, .insert 9 90, .vaccum 6, .insert 5 50, .insert 7 70, .insert 2 20]

theorem chain_is_floor_map_arrivals :
    ∃ c, run arrivals = some c ∧ c.size = 4 ∧
      ∀ fast out, ∃ out', c.get fast 8 out = some (70, out', c) := by
  have hagree : Agree (inserts arrivals) := by
    unfold Agree
    decide
  obtain ⟨c, ns, hrun, -, -, -, -, -, hfloor, -⟩ := chain_is_floor_map (by decide) hagree
  have hsize : (run arrivals).map Chain.size = some 4 := by decide +kernel
  rw [hrun] at hsize
  refine ⟨c, hrun, Option.some.inj hsize, fun fast out => ?_⟩
  obtain ⟨value, out', hget, hvalue⟩ := hfloor 8 (by decide) fast out
  have hseventy : IsFloor (inserts arrivals) 8 70 :=
    Or.inl ⟨⟨70, 7⟩, by decide, by decide, by decide, rfl⟩
  rw [hvalue.unique hagree (fun p => Iff.rfl) hseventy] at hget
  exact ⟨out', hget⟩

end VeriTxn.HashNodes
