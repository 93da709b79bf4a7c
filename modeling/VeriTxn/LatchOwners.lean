import VeriTxn.Latch
import VeriTxn.Transition
import Mathlib

/-!
# Who holds the latches of the verified B+-tree

`IndexBTEnc::index_insert` latches its way down, shared first, exclusively where a child is full,
and gives the exclusive latches back at the end.  `index_read` walks down without latches and
releases the one of the leaf when it finds its key.

Every latch operation and every change of a parent pointer is a step of its own.  The nodes that an
insert meets, which of them are full and which are leaves, are arbitrary, and so are the changes of
parent pointers by splits.  The list of 100 ancestors is taken as long enough.
-/

namespace VeriTxn.LatchOwners

open Transition

/-- `IndexBTEnc::release_latch`: the type it returns, and the latch after it. -/
def releaseLatch (l : Latch) : Option (LatchT × Latch) :=
  if l.latchType = .sh ∧ l.shareCnt = 0 then none else some (l.latchType, l.drop)

/-- What an insert has still to release: a node, or by `cleanup` the parents of `node` up to
    `lastEx`. -/
inductive Op (N : Type*) where
  | one (n : N)
  | up (node lastEx : N)
deriving DecidableEq

/-- Where an insert is, with the local variables of `find_leaf` and `index_insert`. -/
inductive Phase (N : Type*) where
  | idle
  /-- `c` is latched shared. -/
  | descending (c : N) (lastEx : Option N)
  /-- `child->parent` is set. -/
  | found (c child : N) (lastEx : Option N)
  /-- `child` is latched shared as well. -/
  | latched (c child : N) (lastEx : Option N)
  /-- It releases and then goes on at `next`, or returns `Abort`. -/
  | releasing (ops : List (Op N)) (next : Option N)
  /-- It fills `ex_list`. -/
  | listing (tmpNode lastEx : N) (exList : List N)
  /-- The tree is changed, the rest of `ex_list` is to be released. -/
  | finishing (exList : List N)
  /-- An assertion failed. -/
  | failed
deriving DecidableEq

/-- An insert and the nodes it has upgraded and not yet released. -/
structure Insert (N : Type*) where
  phase : Phase N
  held : List N

structure Sys (T N : Type*) where
  latches : N → Latch
  parent : N → Option N
  inserts : T → Insert N

inductive Action (T N : Type*) where
  /-- `find_leaf` latches the root it has read. -/
  | start (t : T) (root : N)
  /-- It loads the child and sets its parent. -/
  | choose (t : T) (child : N)
  | latchChild (t : T)
  /-- Whether the child is full. -/
  | decide (t : T) (full : Bool)
  /-- `c` is a leaf. -/
  | atLeaf (t : T)
  | release (t : T)
  | list (t : T)
  | finish (t : T)
  /-- `index_read` releases the leaf. -/
  | read (n : N)
  /-- The node leaves the cache, and comes back as a fresh copy. -/
  | evict (n : N)
  | setParent (n : N) (p : Option N)

variable {T N : Type*} [DecidableEq T] [DecidableEq N]

def cleanup (c : N) : Option N → List (Op N)
  | none => []
  | some lastEx => [.up c lastEx]

def Sys.goto (s : Sys T N) (t : T) (phase : Phase N) (held : List N) : Sys T N :=
  { s with inserts := Function.update s.inserts t ⟨phase, held⟩ }

def Sys.setLatch (s : Sys T N) (n : N) (l : Latch) : Sys T N :=
  { s with latches := Function.update s.latches n l }

def Sys.setParent (s : Sys T N) (n : N) (p : Option N) : Sys T N :=
  { s with parent := Function.update s.parent n p }

/-- A step of `releasing`. -/
def Sys.releaseNext (s : Sys T N) (t : T) (held : List N) (next : Option N) :
    List (Op N) → Sys T N
  | [] =>
      match next with
      | none => s.goto t .idle held
      | some child => s.goto t (.descending child none) held
  | .one n :: ops =>
      match releaseLatch (s.latches n) with
      | none => s.goto t .failed held
      | some (_, l) => (s.setLatch n l).goto t (.releasing ops next) held
  | .up node lastEx :: ops =>
      match s.parent node with
      | none => s.goto t .failed held
      | some p =>
          match releaseLatch (s.latches p) with
          | none => s.goto t .failed held
          | some (_, l) =>
              (s.setLatch p l).goto t
                (.releasing (if p = lastEx then ops else .up p lastEx :: ops) next) (held.erase p)

/-- A step of an insert, by its phase. -/
def Sys.insertStep (s : Sys T N) (t : T) (held : List N) :
    Action T N → Phase N → Option (Sys T N)
  | .start _ root, .idle =>
      match (s.latches root).latchNode .sh with
      | none => some (s.goto t .failed held)
      | some (false, _) => some s
      | some (true, l) => some ((s.setLatch root l).goto t (.descending root none) held)
  | .choose _ child, .descending c lastEx =>
      if (s.latches c).latchType = .sh then
        some ((s.setParent child (some c)).goto t (.found c child lastEx) held)
      else some (s.goto t .failed held)
  | .latchChild _, .found c child lastEx =>
      match (s.latches child).latchNode .sh with
      | none => some (s.goto t .failed held)
      | some (false, _) => some (s.goto t (.releasing (.one c :: cleanup c lastEx) none) held)
      | some (true, l) => some ((s.setLatch child l).goto t (.latched c child lastEx) held)
  | .decide _ full, .latched c child lastEx =>
      if full then
        match (s.latches c).upgradeLatch with
        | none => some (s.goto t .failed held)
        | some (.rcok, l) =>
            some ((s.setLatch c l).goto t (.descending child (lastEx.or (some c))) (c :: held))
        | some _ =>
            some (s.goto t (.releasing (.one c :: .one child :: cleanup c lastEx) none) held)
      else some (s.goto t (.releasing (cleanup c lastEx ++ [.one c]) (some child)) held)
  | .atLeaf _, .descending c lastEx =>
      match (s.latches c).upgradeLatch with
      | none => some (s.goto t .failed held)
      | some (.rcok, l) =>
          some ((s.setLatch c l).goto t
            (match lastEx with
              | none => .finishing [c]
              | some lastEx => .listing c lastEx []) (c :: held))
      | some _ => some (s.goto t (.releasing (.one c :: cleanup c lastEx) none) held)
  | .release _, .releasing ops next => some (s.releaseNext t held next ops)
  | .list _, .listing tmpNode lastEx exList =>
      if tmpNode = lastEx then some (s.goto t (.finishing (exList ++ [lastEx])) held)
      else
        match s.parent tmpNode with
        | none => some (s.goto t .failed held)
        | some p => some (s.goto t (.listing p lastEx (exList ++ [tmpNode])) held)
  | .finish _, .finishing [] => some (s.goto t .idle held)
  | .finish _, .finishing (n :: exList) =>
      match releaseLatch (s.latches n) with
      | none => some (s.goto t .failed held)
      | some (type, l) =>
          some ((s.setLatch n l).goto t (if type = .ex then .finishing exList else .failed)
            (held.erase n))
  | _, _ => none

def step (s : Sys T N) (a : Action T N) : Option (Sys T N) :=
  match a with
  | .start t _ | .choose t _ | .latchChild t | .decide t _ | .atLeaf t | .release t | .list t
  | .finish t => s.insertStep t (s.inserts t).held a (s.inserts t).phase
  | .read n => (releaseLatch (s.latches n)).map fun r => s.setLatch n r.2
  | .evict n => some (s.setLatch n .free)
  | .setParent n p => some (s.setParent n p)

/-- No latch is held, no insert is under way. -/
def Sys.init (parent : N → Option N) : Sys T N :=
  ⟨fun _ => .free, parent, fun _ => ⟨.idle, []⟩⟩

/-- What an insert has upgraded stays latched exclusively and is nobody else's, and no assertion
    failed. -/
structure Sys.Kept (s : Sys T N) : Prop where
  latched : ∀ t, ∀ n ∈ (s.inserts t).held, (s.latches n).latchType = .ex
  single : ∀ t u n, n ∈ (s.inserts t).held → n ∈ (s.inserts u).held → t = u
  asserted : ∀ t, (s.inserts t).phase ≠ .failed

/-! ### The latches account for the holders -/

section Accounts

variable [Fintype T]

/-- How often the inserts share `n`. -/
def sharers (shared : T → List N) (n : N) : Nat := ∑ t, (shared t).count n

/-- The latch of a node that `k` share. -/
def latchOf (k : Nat) : Latch := if k = 0 then .free else ⟨.sh, k⟩

structure Accounts (latches : N → Latch) (held shared : T → List N) : Prop where
  exclusive : ∀ t, ∀ n ∈ held t, latches n = .exclusive
  unshared : ∀ t, ∀ n ∈ held t, sharers shared n = 0
  others : ∀ n, (∀ t, n ∉ held t) → latches n = latchOf (sharers shared n)
  single : ∀ t u n, n ∈ held t → n ∈ held u → t = u
  nodup : ∀ t, (held t).Nodup

theorem latchNode_latchOf (k : Nat) :
    (latchOf k).latchNode .sh = some (true, latchOf (k + 1)) := by
  cases k with
  | zero => rfl
  | succ k => rfl

theorem upgradeLatch_latchOf (k : Nat) :
    (latchOf (k + 1)).upgradeLatch =
      some (if k = 0 then (.rcok, .exclusive) else (.abort, latchOf (k + 1))) := by
  cases k with
  | zero => rfl
  | succ k => rfl

theorem releaseLatch_latchOf (k : Nat) :
    releaseLatch (latchOf (k + 1)) = some (.sh, latchOf k) := by
  cases k with
  | zero => rfl
  | succ k => rfl

variable {latches : N → Latch} {held shared : T → List N} {t : T} {n : N}

theorem sharers_update (shared : T → List N) (t : T) (l : List N) (n : N) :
    sharers (Function.update shared t l) n + (shared t).count n =
      sharers shared n + l.count n := by
  have hrest : ∑ u ∈ Finset.univ.erase t, (Function.update shared t l u).count n =
      ∑ u ∈ Finset.univ.erase t, (shared u).count n := by
    apply Finset.sum_congr rfl
    intro u hu
    rw [Function.update_of_ne (Finset.ne_of_mem_erase hu)]
  unfold sharers
  rw [← Finset.add_sum_erase _ _ (Finset.mem_univ t),
    ← Finset.add_sum_erase _ (fun u => (shared u).count n) (Finset.mem_univ t),
    Function.update_self]
  omega

omit [DecidableEq T] in
theorem sharers_pos (h : n ∈ shared t) : 0 < sharers shared n := by
  have hle : (shared t).count n ≤ sharers shared n :=
    Finset.single_le_sum (f := fun t => (shared t).count n) (fun _ _ => Nat.zero_le _)
      (Finset.mem_univ t)
  exact lt_of_lt_of_le (List.count_pos_iff.mpr h) hle

omit [DecidableEq T] in
/-- A node that somebody shares is latched by those only. -/
theorem Accounts.of_shared (h : Accounts latches held shared) (hn : n ∈ shared t) :
    (∀ u, n ∉ held u) ∧ ∃ k, sharers shared n = k + 1 ∧ latches n = latchOf (k + 1) := by
  have hpos := sharers_pos hn
  have hnone : ∀ u, n ∉ held u := by
    intro u hu
    have := h.unshared u n hu
    omega
  obtain ⟨k, hk⟩ : ∃ k, sharers shared n = k + 1 := ⟨_, (Nat.sub_add_cancel hpos).symm⟩
  exact ⟨hnone, k, hk, hk ▸ h.others n hnone⟩

omit [Fintype T] [DecidableEq N] in
/-- One insert's list changes, `m` stays in it or out of it. -/
theorem mem_held_update {l : List N} {m : N} (hm : m ∈ l ↔ m ∈ held t) (u : T) :
    m ∈ Function.update held t l u ↔ m ∈ held u := by
  by_cases hu : u = t
  · subst hu
    rw [Function.update_self]
    exact hm
  · rw [Function.update_of_ne hu]

theorem Accounts.nodup_update (h : Accounts latches held shared) {l : List N} (hl : l.Nodup) :
    ∀ u, (Function.update held t l u).Nodup :=
  (Function.forall_update_iff held fun _ l => l.Nodup).mpr ⟨hl, fun u _ => h.nodup u⟩

omit [DecidableEq T] in
/-- The latch of one node changes with its holders. -/
theorem Accounts.change {held' shared' : T → List N} {l : Latch}
    (h : Accounts latches held shared)
    (hheld : ∀ u m, m ≠ n → (m ∈ held' u ↔ m ∈ held u))
    (hshared : ∀ m, m ≠ n → sharers shared' m = sharers shared m)
    (hnodup : ∀ u, (held' u).Nodup)
    (hn : (∃ t, (∀ u, n ∈ held' u ↔ u = t) ∧ l = .exclusive ∧ sharers shared' n = 0) ∨
      (∀ u, n ∉ held' u) ∧ l = latchOf (sharers shared' n)) :
    Accounts (Function.update latches n l) held' shared' := by
  refine ⟨?_, ?_, ?_, ?_, hnodup⟩
  · intro u m hm
    by_cases hmn : m = n
    · subst hmn
      rcases hn with ⟨t, _, hl, _⟩ | ⟨hnone, _⟩
      · rw [Function.update_self, hl]
      · exact absurd hm (hnone u)
    · rw [Function.update_of_ne hmn]
      exact h.exclusive u m ((hheld u m hmn).mp hm)
  · intro u m hm
    by_cases hmn : m = n
    · subst hmn
      rcases hn with ⟨t, _, _, hzero⟩ | ⟨hnone, _⟩
      · exact hzero
      · exact absurd hm (hnone u)
    · rw [hshared m hmn]
      exact h.unshared u m ((hheld u m hmn).mp hm)
  · intro m hm
    by_cases hmn : m = n
    · subst hmn
      rcases hn with ⟨t, honly, _⟩ | ⟨_, hl⟩
      · exact absurd ((honly t).mpr rfl) (hm t)
      · rw [Function.update_self, hl]
    · rw [Function.update_of_ne hmn, hshared m hmn]
      exact h.others m fun u hu => hm u ((hheld u m hmn).mpr hu)
  · intro u v m hu hv
    by_cases hmn : m = n
    · subst hmn
      rcases hn with ⟨t, honly, _⟩ | ⟨hnone, _⟩
      · rw [(honly u).mp hu, (honly v).mp hv]
      · exact absurd hu (hnone u)
    · exact h.single u v m ((hheld u m hmn).mp hu) ((hheld v m hmn).mp hv)

/-- `latch_node` succeeds on a node that nobody holds exclusively. -/
theorem Accounts.share {l : Latch} (h : Accounts latches held shared)
    (hlatch : (latches n).latchNode .sh = some (true, l)) :
    Accounts (Function.update latches n l) held
      (Function.update shared t (shared t ++ [n])) := by
  have hnone : ∀ u, n ∉ held u := by
    intro u hu
    rw [h.exclusive u n hu] at hlatch
    cases hlatch
  rw [h.others n hnone, latchNode_latchOf] at hlatch
  cases hlatch
  have hcount := fun m => sharers_update shared t (shared t ++ [n]) m
  simp only [List.count_append, List.count_singleton] at hcount
  refine h.change (fun _ _ _ => Iff.rfl) ?_ h.nodup (.inr ⟨hnone, ?_⟩)
  · intro m hm
    have hm' := hcount m
    simp [Ne.symm hm] at hm'
    omega
  · have hn := hcount n
    simp at hn
    rw [show sharers (Function.update shared t (shared t ++ [n])) n = sharers shared n + 1 by omega]

theorem sharers_erase (hn : n ∈ shared t) (m : N) :
    sharers (Function.update shared t ((shared t).erase n)) m + (if m = n then 1 else 0) =
      sharers shared m := by
  have hcount := sharers_update shared t ((shared t).erase n) m
  by_cases hm : m = n
  · subst hm
    have hpos := List.count_pos_iff.mpr hn
    rw [List.count_erase_self] at hcount
    rw [if_pos rfl]
    omega
  · rw [List.count_erase_of_ne hm] at hcount
    rw [if_neg hm]
    omega

/-- `upgrade_latch` succeeds for the only one that shares the node. -/
theorem Accounts.upgrade {l : Latch} (h : Accounts latches held shared) (hn : n ∈ shared t)
    (hlatch : (latches n).upgradeLatch = some (.rcok, l)) :
    Accounts (Function.update latches n l) (Function.update held t (n :: held t))
      (Function.update shared t ((shared t).erase n)) := by
  obtain ⟨hnone, k, hk, hlatches⟩ := h.of_shared hn
  rw [hlatches, upgradeLatch_latchOf] at hlatch
  have hk0 : k = 0 := by
    by_contra hk0
    rw [if_neg hk0] at hlatch
    cases hlatch
  rw [if_pos hk0] at hlatch
  cases hlatch
  have herase := sharers_erase hn
  refine h.change (fun u m hm => ?_) ?_ ?_ (.inl ⟨t, ?_, rfl, ?_⟩)
  · exact mem_held_update (by simp [hm]) u
  · intro m hm
    have := herase m
    rwa [if_neg hm] at this
  · exact h.nodup_update (List.nodup_cons.mpr ⟨hnone t, h.nodup t⟩)
  · intro u
    by_cases hu : u = t
    · subst hu
      simp
    · rw [Function.update_of_ne hu]
      exact ⟨fun hmem => absurd hmem (hnone u), fun heq => absurd heq hu⟩
  · have := herase n
    rw [if_pos rfl] at this
    omega

/-- One that shares the node releases it. -/
theorem Accounts.releaseShared {r : LatchT × Latch} (h : Accounts latches held shared)
    (hn : n ∈ shared t) (hlatch : releaseLatch (latches n) = some r) :
    Accounts (Function.update latches n r.2) held
      (Function.update shared t ((shared t).erase n)) := by
  obtain ⟨hnone, k, hk, hlatches⟩ := h.of_shared hn
  rw [hlatches, releaseLatch_latchOf] at hlatch
  cases hlatch
  have herase := sharers_erase hn
  refine h.change (fun _ _ _ => Iff.rfl) ?_ h.nodup (.inr ⟨hnone, ?_⟩)
  · intro m hm
    have := herase m
    rwa [if_neg hm] at this
  · have := herase n
    rw [if_pos rfl] at this
    rw [show sharers (Function.update shared t ((shared t).erase n)) n = k by omega]

/-- The one that holds the node exclusively releases it. -/
theorem Accounts.releaseHeld {r : LatchT × Latch} (h : Accounts latches held shared)
    (hn : n ∈ held t) (hlatch : releaseLatch (latches n) = some r) :
    r.1 = .ex ∧ Accounts (Function.update latches n r.2)
      (Function.update held t ((held t).erase n)) shared := by
  have hzero := h.unshared t n hn
  rw [h.exclusive t n hn] at hlatch
  cases hlatch
  refine ⟨rfl, h.change (fun u m hm => ?_) (fun _ _ => rfl) ?_ (.inr ⟨?_, ?_⟩)⟩
  · exact mem_held_update (List.mem_erase_of_ne hm) u
  · exact h.nodup_update ((h.nodup t).erase n)
  · intro u
    by_cases hu : u = t
    · subst hu
      rw [Function.update_self]
      exact (h.nodup u).not_mem_erase
    · rw [Function.update_of_ne hu]
      exact fun hmem => hu (h.single u t n hmem hn)
  · rw [hzero]
    rfl

end Accounts

/-! ### The way up -/

def Op.shared : Op N → List N
  | .one n => [n]
  | .up _ _ => []

/-- The nodes an insert has latched shared. -/
def Phase.shared : Phase N → List N
  | .descending c _ | .found c _ _ => [c]
  | .latched c child _ => [c, child]
  | .releasing ops next => ops.flatMap Op.shared ++ next.toList
  | .idle | .listing _ _ _ | .finishing _ | .failed => []

/-- The parent pointers lead from `c` through the nodes of `held` to `lastEx`. -/
def Climbs (parent : N → Option N) (c : N) (held : List N) (lastEx : Option N) : Prop :=
  (c :: held).IsChain (fun a b => parent a = some b) ∧ held.getLast? = lastEx

/-- The operations release what is held. -/
def Owes (parent : N → Option N) : List (Op N) → List N → Prop
  | [], held => held = []
  | .one _ :: ops, held => Owes parent ops held
  | .up node lastEx :: ops, held => Climbs parent node held (some lastEx) ∧ Owes parent ops []

/-- An insert can reach all it holds. -/
def Insert.Good (parent : N → Option N) (i : Insert N) : Prop :=
  match i.phase with
  | .idle => i.held = []
  | .descending c lastEx => Climbs parent c i.held lastEx
  | .found c child lastEx | .latched c child lastEx =>
      parent child = some c ∧ Climbs parent c i.held lastEx
  | .releasing ops _ => Owes parent ops i.held
  | .listing tmpNode lastEx exList =>
      ∃ rest, i.held = exList ++ tmpNode :: rest ∧
        (tmpNode :: rest).IsChain (fun a b => parent a = some b) ∧
        (tmpNode :: rest).getLast? = some lastEx
  | .finishing exList => i.held = exList
  | .failed => False

def Op.links (held : List N) : Op N → List N
  | .one _ => []
  | .up node _ => (node :: held).dropLast

/-- The nodes whose parent pointers an insert still goes by: those it came through, from the
    highest one below `lastEx` on. -/
def Insert.links (i : Insert N) : List N :=
  match i.phase with
  | .descending c _ => (c :: i.held).dropLast
  | .found c child _ | .latched c child _ => child :: (c :: i.held).dropLast
  | .releasing ops _ => ops.flatMap (Op.links i.held)
  | .listing _ _ exList => (i.held.drop exList.length).dropLast
  | .idle | .finishing _ | .failed => []

section Climbs

omit [DecidableEq N]

variable {parent parent' : N → Option N} {held : List N} {c : N} {lastEx : Option N}

theorem isChain_congr {l : List N} (h : l.IsChain fun a b => parent a = some b)
    (hsame : ∀ a ∈ l.dropLast, parent' a = parent a) :
    l.IsChain fun a b => parent' a = some b := by
  induction l with
  | nil => exact .nil
  | cons a l ih =>
      cases l with
      | nil => exact List.isChain_singleton _
      | cons b l =>
          obtain ⟨hab, hrest⟩ := List.isChain_cons_cons.mp h
          rw [List.dropLast_cons_of_ne_nil (List.cons_ne_nil b l)] at hsame
          refine List.isChain_cons_cons.mpr ⟨?_, ih hrest fun x hx => ?_⟩
          · rw [hsame a List.mem_cons_self, hab]
          · exact hsame x (List.mem_cons_of_mem _ hx)

theorem Climbs.congr (h : Climbs parent c held lastEx)
    (hsame : ∀ a ∈ (c :: held).dropLast, parent' a = parent a) :
    Climbs parent' c held lastEx :=
  ⟨isChain_congr h.1 hsame, h.2⟩

theorem Owes.congr {ops : List (Op N)} (h : Owes parent ops held)
    (hsame : ∀ a ∈ ops.flatMap (Op.links held), parent' a = parent a) :
    Owes parent' ops held := by
  induction ops generalizing held with
  | nil => exact h
  | cons op ops ih =>
      cases op with
      | one n => exact ih h fun a ha => hsame a (List.mem_flatMap.mpr (by
          obtain ⟨o, ho, ha⟩ := List.mem_flatMap.mp ha
          exact ⟨o, List.mem_cons_of_mem _ ho, ha⟩))
      | up node last =>
          refine ⟨h.1.congr fun a ha => hsame a ?_, ih h.2 fun a ha => ?_⟩
          · exact List.mem_flatMap.mpr ⟨_, List.mem_cons_self, ha⟩
          · obtain ⟨o, _, ha⟩ := List.mem_flatMap.mp ha
            cases o with
            | one n => exact absurd ha List.not_mem_nil
            | up node last => exact absurd ha List.not_mem_nil

/-- Changes of other parent pointers do not matter to an insert. -/
theorem Insert.Good.congr {i : Insert N} (h : i.Good parent)
    (hsame : ∀ a ∈ i.links, parent' a = parent a) : i.Good parent' := by
  obtain ⟨phase, held⟩ := i
  cases phase with
  | idle => exact h
  | descending c lastEx => exact Climbs.congr h hsame
  | found c child lastEx | latched c child lastEx =>
      refine ⟨(hsame child List.mem_cons_self).trans h.1, h.2.congr fun a ha => ?_⟩
      exact hsame a (List.mem_cons_of_mem _ ha)
  | releasing ops next => exact Owes.congr h hsame
  | listing tmpNode lastEx exList =>
      obtain ⟨rest, hheld, hchain, hlast⟩ := h
      refine ⟨rest, hheld, isChain_congr hchain fun a ha => hsame a ?_, hlast⟩
      change a ∈ (held.drop exList.length).dropLast
      rw [show held = exList ++ tmpNode :: rest from hheld, List.drop_left]
      exact ha
  | finishing exList => exact h
  | failed => exact h

end Climbs

/-! ### The runs -/

/-- No parent pointer that an insert goes by is changed. -/
def Sys.Relinks (s : Sys T N) (n : N) (p : Option N) : Prop :=
  s.parent n = p ∨ ∀ t, n ∉ (s.inserts t).links

/-- A read releases, and an eviction drops, a node that is not latched, and no parent pointer that
    an insert goes by is changed. -/
def Undisturbed (s : Sys T N) : Action T N → Prop
  | .read n | .evict n => (s.latches n).latchType = .none
  | .setParent n p => s.Relinks n p
  | .choose t child =>
      ∀ c lastEx, (s.inserts t).phase = .descending c lastEx → s.Relinks child (some c)
  | .start _ _ | .latchChild _ | .decide _ _ | .atLeaf _ | .release _ | .list _ | .finish _ => True

instance Undisturbed.decidable [Fintype T] (s : Sys T N) (a : Action T N) :
    Decidable (Undisturbed s a) :=
  match a with
  | .read n | .evict n => inferInstanceAs (Decidable ((s.latches n).latchType = .none))
  | .setParent n p => inferInstanceAs (Decidable (s.parent n = p ∨ ∀ t, n ∉ (s.inserts t).links))
  | .choose t child =>
      match h : (s.inserts t).phase with
      | .descending c lastEx =>
          decidable_of_iff (s.parent child = some c ∨ ∀ t, child ∉ (s.inserts t).links)
            ⟨fun hlinks c' _ heq => by cases h.symm.trans heq; exact hlinks, fun hall => hall c lastEx h⟩
      | .idle | .found _ _ _ | .latched _ _ _ | .releasing _ _ | .listing _ _ _ | .finishing _
      | .failed => .isTrue fun _ _ heq => by rw [h] at heq; cases heq
  | .start _ _ | .latchChild _ | .decide _ _ | .atLeaf _ | .release _ | .list _ | .finish _ =>
      .isTrue trivial

section Runs

variable [Fintype T] {s s' : Sys T N} {t : T}

def Sys.held (s : Sys T N) (t : T) : List N := (s.inserts t).held

def Sys.shared (s : Sys T N) (t : T) : List N := (s.inserts t).phase.shared

structure Inv (s : Sys T N) : Prop where
  accounts : Accounts s.latches s.held s.shared
  good : ∀ t, (s.inserts t).Good s.parent

omit [Fintype T] [DecidableEq N] in
theorem held_goto (s : Sys T N) (t : T) (phase : Phase N) (held : List N) :
    (s.goto t phase held).held = Function.update s.held t held := by
  funext u
  by_cases hu : u = t
  · subst hu
    simp [Sys.held, Sys.goto]
  · simp [Sys.held, Sys.goto, hu]

omit [Fintype T] [DecidableEq N] in
theorem shared_goto (s : Sys T N) (t : T) (phase : Phase N) (held : List N) :
    (s.goto t phase held).shared = Function.update s.shared t phase.shared := by
  funext u
  by_cases hu : u = t
  · subst hu
    simp [Sys.shared, Sys.goto]
  · simp [Sys.shared, Sys.goto, hu]

/-- An insert goes on, with the accounts of the new latches. -/
theorem Inv.goto (h : Inv s) {latches : N → Latch} {phase : Phase N} {held : List N}
    (haccounts : Accounts latches (Function.update s.held t held)
      (Function.update s.shared t phase.shared))
    (hgood : Insert.Good s.parent ⟨phase, held⟩) :
    Inv (Sys.goto { s with latches := latches } t phase held) := by
  refine ⟨?_, ?_⟩
  · rw [held_goto, shared_goto]
    exact haccounts
  · intro u
    by_cases hu : u = t
    · subst hu
      simpa [Sys.goto] using hgood
    · simpa [Sys.goto, hu] using h.good u

/-- An insert goes on without a latch operation. -/
theorem Inv.move (h : Inv s) {phase : Phase N} (hshared : phase.shared = s.shared t)
    (hgood : Insert.Good s.parent ⟨phase, s.held t⟩) : Inv (s.goto t phase (s.held t)) := by
  have haccounts : Accounts s.latches (Function.update s.held t (s.held t))
      (Function.update s.shared t phase.shared) := by
    rw [hshared, Function.update_eq_self, Function.update_eq_self]
    exact h.accounts
  exact h.goto haccounts hgood

omit [DecidableEq T] in
theorem Accounts.eq_latchOf {latches : N → Latch} {held shared : T → List N}
    (h : Accounts latches held shared) (n : N) :
    latches n = .exclusive ∨ ∃ k, latches n = latchOf k := by
  by_cases hn : ∃ t, n ∈ held t
  · obtain ⟨t, ht⟩ := hn
    exact .inl (h.exclusive t n ht)
  · exact .inr ⟨_, h.others n fun t ht => hn ⟨t, ht⟩⟩

omit [DecidableEq T] in
/-- A latch that is not held is free. -/
theorem Inv.eq_free (h : Inv s) {n : N} (hn : (s.latches n).latchType = .none) :
    s.latches n = .free := by
  rcases h.accounts.eq_latchOf n with heq | ⟨k, heq⟩
  · rw [heq] at hn
    cases hn
  · rw [heq, latchOf] at hn ⊢
    by_cases hk : k = 0
    · rw [if_pos hk]
    · rw [if_neg hk] at hn
      cases hn

omit [DecidableEq T] in
theorem Inv.setParent (h : Inv s) {n : N} {p : Option N} (hlinks : s.Relinks n p) :
    Inv (s.setParent n p) := by
  refine ⟨h.accounts, fun u => (h.good u).congr fun a ha => ?_⟩
  by_cases han : a = n
  · subst han
    rcases hlinks with heq | hnone
    · simp [Sys.setParent, heq]
    · exact absurd ha (hnone u)
  · simp [Sys.setParent, han]

omit [DecidableEq T] [Fintype T] [DecidableEq N] in
theorem good_at {parent : N → Option N} {phase : Phase N} (hphase : (s.inserts t).phase = phase)
    (h : (s.inserts t).Good parent) : Insert.Good parent ⟨phase, s.held t⟩ := by
  rw [← hphase]
  exact h

theorem Inv.share (h : Inv s) {n : N} {l : Latch} {phase : Phase N}
    (hlatch : (s.latches n).latchNode .sh = some (true, l))
    (hshared : phase.shared = s.shared t ++ [n])
    (hgood : Insert.Good s.parent ⟨phase, s.held t⟩) :
    Inv ((s.setLatch n l).goto t phase (s.held t)) := by
  apply h.goto _ hgood
  rw [hshared, Function.update_eq_self]
  exact h.accounts.share hlatch

theorem Inv.upgrade (h : Inv s) {n : N} {l : Latch} {phase : Phase N} (hn : n ∈ s.shared t)
    (hlatch : (s.latches n).upgradeLatch = some (.rcok, l))
    (hshared : phase.shared = (s.shared t).erase n)
    (hgood : Insert.Good s.parent ⟨phase, n :: s.held t⟩) :
    Inv ((s.setLatch n l).goto t phase (n :: s.held t)) := by
  apply h.goto _ hgood
  rw [hshared]
  exact h.accounts.upgrade hn hlatch

theorem Inv.releaseShared (h : Inv s) {n : N} {r : LatchT × Latch} {phase : Phase N}
    (hn : n ∈ s.shared t) (hlatch : releaseLatch (s.latches n) = some r)
    (hshared : phase.shared = (s.shared t).erase n)
    (hgood : Insert.Good s.parent ⟨phase, s.held t⟩) :
    Inv ((s.setLatch n r.2).goto t phase (s.held t)) := by
  apply h.goto _ hgood
  rw [hshared, Function.update_eq_self]
  exact h.accounts.releaseShared hn hlatch

theorem Inv.releaseHeld (h : Inv s) {n : N} {r : LatchT × Latch} {phase : Phase N}
    (hn : n ∈ s.held t) (hlatch : releaseLatch (s.latches n) = some r)
    (hshared : phase.shared = s.shared t)
    (hgood : Insert.Good s.parent ⟨phase, (s.held t).erase n⟩) :
    Inv ((s.setLatch n r.2).goto t phase ((s.held t).erase n)) := by
  apply h.goto _ hgood
  rw [hshared, Function.update_eq_self]
  exact (h.accounts.releaseHeld hn hlatch).2

omit [DecidableEq T] in
theorem Inv.latchNode_isSome (h : Inv s) (n : N) : (s.latches n).latchNode .sh ≠ none := by
  rcases h.accounts.eq_latchOf n with heq | ⟨k, heq⟩
  · rw [heq]
    exact Option.some_ne_none _
  · rw [heq, latchNode_latchOf]
    exact Option.some_ne_none _

omit [DecidableEq T] in
theorem Inv.releaseLatch_isSome (h : Inv s) (n : N) : releaseLatch (s.latches n) ≠ none := by
  rcases h.accounts.eq_latchOf n with heq | ⟨k, heq⟩
  · rw [heq]
    exact Option.some_ne_none _
  · rw [heq]
    cases k with
    | zero => exact Option.some_ne_none _
    | succ k =>
        rw [releaseLatch_latchOf]
        exact Option.some_ne_none _

omit [DecidableEq T] in
theorem Inv.upgradeLatch_isSome (h : Inv s) {n : N} (hn : n ∈ s.shared t) :
    (s.latches n).upgradeLatch ≠ none := by
  obtain ⟨_, k, _, heq⟩ := h.accounts.of_shared hn
  rw [heq, upgradeLatch_latchOf]
  exact Option.some_ne_none _

/-! ### The steps of an insert -/

omit [DecidableEq T] [Fintype T] [DecidableEq N] in
/-- The child comes below a node that is upgraded. -/
theorem Climbs.push {parent : N → Option N} {c child : N} {held : List N} {lastEx : Option N}
    (h : Climbs parent c held lastEx) (hchild : parent child = some c) :
    Climbs parent child (c :: held) (lastEx.or (some c)) := by
  refine ⟨List.isChain_cons_cons.mpr ⟨hchild, h.1⟩, ?_⟩
  rw [List.getLast?_cons, ← h.2]
  cases held.getLast? with
  | none => rfl
  | some last => rfl

omit [DecidableEq T] [Fintype T] [DecidableEq N] in
theorem Climbs.owes_cleanup {parent : N → Option N} {c : N} {held : List N} {lastEx : Option N}
    (h : Climbs parent c held lastEx) : Owes parent (cleanup c lastEx) held := by
  cases lastEx with
  | none => exact List.getLast?_eq_none_iff.mp h.2
  | some last => exact ⟨h, rfl⟩

omit [DecidableEq T] [Fintype T] [DecidableEq N] in
theorem Climbs.owes_cleanup_one {parent : N → Option N} {c : N} {held : List N}
    {lastEx : Option N} (h : Climbs parent c held lastEx) (n : N) :
    Owes parent (cleanup c lastEx ++ [.one n]) held := by
  cases lastEx with
  | none => exact List.getLast?_eq_none_iff.mp h.2
  | some last => exact ⟨h, rfl⟩

omit [DecidableEq T] [Fintype T] [DecidableEq N] in
theorem shared_cleanup (c : N) (lastEx next : Option N) :
    (cleanup c lastEx).flatMap Op.shared ++ next.toList = next.toList := by
  cases lastEx with
  | none => rfl
  | some last => rfl

omit [DecidableEq T] [Fintype T] in
/-- The next parent is the next node held. -/
theorem Climbs.pop {parent : N → Option N} {node last : N} {held : List N}
    (h : Climbs parent node held (some last)) (hnodup : held.Nodup) :
    ∃ p rest, held = p :: rest ∧ parent node = some p ∧
      if p = last then rest = [] else Climbs parent p rest (some last) := by
  obtain ⟨hchain, hlast⟩ := h
  cases held with
  | nil => cases hlast
  | cons p rest =>
      obtain ⟨hnode, hchain⟩ := List.isChain_cons_cons.mp hchain
      refine ⟨p, rest, rfl, hnode, ?_⟩
      cases rest with
      | nil =>
          have hp : p = last := Option.some.inj hlast
          rw [if_pos hp]
      | cons q rest =>
          rw [List.getLast?_cons_cons] at hlast
          have hne : p ≠ last := by
            rintro rfl
            exact (List.nodup_cons.mp hnodup).1 (List.mem_of_getLast? hlast)
          rw [if_neg hne]
          exact ⟨hchain, hlast⟩

theorem Inv.step_idle (h : Inv s) {a : Action T N} (hphase : (s.inserts t).phase = .idle)
    (hstep : s.insertStep t (s.held t) a .idle = some s') : Inv s' := by
  have hheld : s.held t = [] := good_at hphase (h.good t)
  have hshared : s.shared t = [] := congrArg Phase.shared hphase
  cases a with
  | start u root =>
      delta Sys.insertStep at hstep
      dsimp only at hstep
      cases hlatch : (s.latches root).latchNode .sh with
      | none => exact absurd hlatch (h.latchNode_isSome root)
      | some r =>
          obtain ⟨ok, l⟩ := r
          rw [hlatch] at hstep
          cases ok with
          | false =>
              cases hstep
              exact h
          | true =>
              cases hstep
              refine h.share hlatch ?_ ?_
              · rw [hshared]
                rfl
              · rw [hheld]
                exact ⟨List.isChain_singleton root, rfl⟩
  | _ => cases hstep

theorem Inv.step_descending (h : Inv s) {a : Action T N} {c : N} {lastEx : Option N}
    (hund : Undisturbed s a) (hphase : (s.inserts t).phase = .descending c lastEx)
    (ha : ∀ u child, a = .choose u child → u = t)
    (hstep : s.insertStep t (s.held t) a (.descending c lastEx) = some s') : Inv s' := by
  have hgood : Climbs s.parent c (s.held t) lastEx := good_at hphase (h.good t)
  have hshared : s.shared t = [c] := congrArg Phase.shared hphase
  have hc : c ∈ s.shared t := by
    rw [hshared]
    exact List.mem_cons_self
  cases a with
  | choose u child =>
      obtain rfl := ha u child rfl
      have hlatches := (h.accounts.of_shared hc).2
      have hsh : (s.latches c).latchType = .sh := by
        obtain ⟨k, _, hlatch⟩ := hlatches
        rw [hlatch]
        rfl
      delta Sys.insertStep at hstep
      dsimp only at hstep
      rw [if_pos hsh] at hstep
      cases hstep
      have hset := h.setParent (hund c lastEx hphase)
      refine hset.move ?_ ⟨Function.update_self .., ?_⟩
      · exact hshared.symm
      · exact good_at hphase (hset.good u)
  | atLeaf u =>
      delta Sys.insertStep at hstep
      dsimp only at hstep
      cases hlatch : (s.latches c).upgradeLatch with
      | none => exact absurd hlatch (h.upgradeLatch_isSome hc)
      | some r =>
          obtain ⟨rc, l⟩ := r
          rw [hlatch] at hstep
          cases rc with
          | rcok =>
              cases hstep
              refine h.upgrade hc hlatch ?_ ?_
              · rw [hshared, List.erase_cons_head]
                cases lastEx with
                | none => rfl
                | some last => rfl
              · cases lastEx with
                | none =>
                    rw [List.getLast?_eq_none_iff.mp hgood.2]
                    exact rfl
                | some last =>
                    refine ⟨s.held t, rfl, hgood.1, ?_⟩
                    rw [List.getLast?_cons, hgood.2]
                    rfl
          | _ =>
              cases hstep
              refine h.move ?_ hgood.owes_cleanup
              rw [hshared]
              exact congrArg (c :: ·) (shared_cleanup c lastEx none)
  | _ => cases hstep

theorem Inv.step_found (h : Inv s) {a : Action T N} {c child : N} {lastEx : Option N}
    (hphase : (s.inserts t).phase = .found c child lastEx)
    (hstep : s.insertStep t (s.held t) a (.found c child lastEx) = some s') : Inv s' := by
  obtain ⟨hchild, hgood⟩ : s.parent child = some c ∧ Climbs s.parent c (s.held t) lastEx :=
    good_at hphase (h.good t)
  have hshared : s.shared t = [c] := congrArg Phase.shared hphase
  cases a with
  | latchChild u =>
      delta Sys.insertStep at hstep
      dsimp only at hstep
      cases hlatch : (s.latches child).latchNode .sh with
      | none => exact absurd hlatch (h.latchNode_isSome child)
      | some r =>
          obtain ⟨ok, l⟩ := r
          rw [hlatch] at hstep
          cases ok with
          | false =>
              cases hstep
              refine h.move ?_ hgood.owes_cleanup
              rw [hshared]
              exact congrArg (c :: ·) (shared_cleanup c lastEx none)
          | true =>
              cases hstep
              refine h.share hlatch ?_ ⟨hchild, hgood⟩
              rw [hshared]
              rfl
  | _ => cases hstep

theorem Inv.step_latched (h : Inv s) {a : Action T N} {c child : N} {lastEx : Option N}
    (hphase : (s.inserts t).phase = .latched c child lastEx)
    (hstep : s.insertStep t (s.held t) a (.latched c child lastEx) = some s') : Inv s' := by
  obtain ⟨hchild, hgood⟩ : s.parent child = some c ∧ Climbs s.parent c (s.held t) lastEx :=
    good_at hphase (h.good t)
  have hshared : s.shared t = [c, child] := congrArg Phase.shared hphase
  have hc : c ∈ s.shared t := by
    rw [hshared]
    exact List.mem_cons_self
  cases a with
  | decide u full =>
      delta Sys.insertStep at hstep
      dsimp only at hstep
      cases full with
      | true =>
          rw [if_pos rfl] at hstep
          cases hlatch : (s.latches c).upgradeLatch with
          | none => exact absurd hlatch (h.upgradeLatch_isSome hc)
          | some r =>
              obtain ⟨rc, l⟩ := r
              rw [hlatch] at hstep
              cases rc with
              | rcok =>
                  cases hstep
                  refine h.upgrade hc hlatch ?_ (hgood.push hchild)
                  rw [hshared, List.erase_cons_head]
                  rfl
              | _ =>
                  cases hstep
                  refine h.move ?_ hgood.owes_cleanup
                  rw [hshared]
                  exact congrArg (c :: child :: ·) (shared_cleanup c lastEx none)
      | false =>
          rw [if_neg (by decide)] at hstep
          cases hstep
          refine h.move ?_ (hgood.owes_cleanup_one c)
          rw [hshared]
          cases lastEx with
          | none => rfl
          | some last => rfl
  | _ => cases hstep

theorem Inv.step_releasing (h : Inv s) {a : Action T N} {ops : List (Op N)} {next : Option N}
    (hphase : (s.inserts t).phase = .releasing ops next)
    (hstep : s.insertStep t (s.held t) a (.releasing ops next) = some s') : Inv s' := by
  have hgood : Owes s.parent ops (s.held t) := good_at hphase (h.good t)
  have hshared : s.shared t = ops.flatMap Op.shared ++ next.toList := congrArg Phase.shared hphase
  cases a with
  | release u =>
      delta Sys.insertStep at hstep
      dsimp only at hstep
      cases hstep
      cases ops with
      | nil =>
          have hheld : s.held t = [] := hgood
          cases next with
          | none => exact h.move hshared.symm hheld
          | some child =>
              refine h.move hshared.symm ?_
              rw [hheld]
              exact ⟨List.isChain_singleton child, rfl⟩
      | cons op ops =>
          cases op with
          | one n =>
              have hn : n ∈ s.shared t := by
                rw [hshared]
                exact List.mem_cons_self
              simp only [Sys.releaseNext]
              cases hlatch : releaseLatch (s.latches n) with
              | none => exact absurd hlatch (h.releaseLatch_isSome n)
              | some r =>
                  refine h.releaseShared hn hlatch ?_ hgood
                  rw [hshared]
                  exact (List.erase_cons_head ..).symm
          | up node last =>
              obtain ⟨p, rest, hheld, hp, hrest⟩ := hgood.1.pop (h.accounts.nodup t)
              have hmem : p ∈ s.held t := by
                rw [hheld]
                exact List.mem_cons_self
              simp only [Sys.releaseNext, hp]
              cases hlatch : releaseLatch (s.latches p) with
              | none => exact absurd hlatch (h.releaseLatch_isSome p)
              | some r =>
                  refine h.releaseHeld hmem hlatch ?_ ?_
                  · rw [hshared]
                    by_cases hlast : p = last
                    · rw [if_pos hlast]
                      rfl
                    · rw [if_neg hlast]
                      rfl
                  · rw [hheld, List.erase_cons_head]
                    by_cases hlast : p = last
                    · rw [if_pos hlast] at hrest ⊢
                      rw [hrest]
                      exact hgood.2
                    · rw [if_neg hlast] at hrest ⊢
                      exact ⟨hrest, hgood.2⟩
  | _ => cases hstep

theorem Inv.step_listing (h : Inv s) {a : Action T N} {node last : N} {exList : List N}
    (hphase : (s.inserts t).phase = .listing node last exList)
    (hstep : s.insertStep t (s.held t) a (.listing node last exList) = some s') : Inv s' := by
  obtain ⟨rest, hheld, hchain, hlast⟩ := good_at hphase (h.good t)
  change s.held t = exList ++ node :: rest at hheld
  have hshared : s.shared t = [] := congrArg Phase.shared hphase
  have hnodup := h.accounts.nodup t
  rw [hheld] at hnodup
  replace hnodup : (node :: rest).Nodup := (List.nodup_append.mp hnodup).2.1
  cases a with
  | list u =>
      delta Sys.insertStep at hstep
      dsimp only at hstep
      cases rest with
      | nil =>
          have hnode : node = last := Option.some.inj hlast
          rw [if_pos hnode] at hstep
          cases hstep
          refine h.move hshared.symm ?_
          rw [← hnode]
          exact hheld
      | cons p rest =>
          obtain ⟨hp, hchain⟩ := List.isChain_cons_cons.mp hchain
          rw [List.getLast?_cons_cons] at hlast
          have hne : node ≠ last := by
            rintro rfl
            exact (List.nodup_cons.mp hnodup).1 (List.mem_of_getLast? hlast)
          simp only [if_neg hne, hp] at hstep
          cases hstep
          refine h.move hshared.symm ⟨rest, ?_, hchain, hlast⟩
          rw [List.append_assoc]
          exact hheld
  | _ => cases hstep

theorem Inv.step_finishing (h : Inv s) {a : Action T N} {exList : List N}
    (hphase : (s.inserts t).phase = .finishing exList)
    (hstep : s.insertStep t (s.held t) a (.finishing exList) = some s') : Inv s' := by
  have hheld : s.held t = exList := good_at hphase (h.good t)
  have hshared : s.shared t = [] := congrArg Phase.shared hphase
  cases a with
  | finish u =>
      cases exList with
      | nil =>
          cases hstep
          exact h.move hshared.symm hheld
      | cons n exList =>
          have hmem : n ∈ s.held t := by
            rw [hheld]
            exact List.mem_cons_self
          delta Sys.insertStep at hstep
          dsimp only at hstep
          cases hlatch : releaseLatch (s.latches n) with
          | none => exact absurd hlatch (h.releaseLatch_isSome n)
          | some r =>
              obtain ⟨type, l⟩ := r
              obtain ⟨htype, _⟩ := h.accounts.releaseHeld hmem hlatch
              rw [hlatch] at hstep
              simp only [if_pos (show type = .ex from htype)] at hstep
              cases hstep
              refine h.releaseHeld hmem hlatch hshared.symm ?_
              rw [hheld, List.erase_cons_head]
              exact rfl
  | _ => cases hstep

theorem Inv.insertStep (h : Inv s) {a : Action T N} (hund : Undisturbed s a)
    (ha : ∀ u child, a = .choose u child → u = t)
    (hstep : s.insertStep t (s.held t) a (s.inserts t).phase = some s') : Inv s' := by
  cases hphase : (s.inserts t).phase with
  | idle => exact h.step_idle hphase (hphase ▸ hstep)
  | descending c lastEx => exact h.step_descending hund hphase ha (hphase ▸ hstep)
  | found c child lastEx => exact h.step_found hphase (hphase ▸ hstep)
  | latched c child lastEx => exact h.step_latched hphase (hphase ▸ hstep)
  | releasing ops next => exact h.step_releasing hphase (hphase ▸ hstep)
  | listing node last exList => exact h.step_listing hphase (hphase ▸ hstep)
  | finishing exList => exact h.step_finishing hphase (hphase ▸ hstep)
  | failed => exact (good_at hphase (h.good t)).elim

omit [DecidableEq T] in
theorem Inv.setLatch_free (h : Inv s) {n : N} (hn : (s.latches n).latchType = .none) :
    s.setLatch n .free = s := by
  rw [Sys.setLatch, Function.update_eq_self_iff.mpr (h.eq_free hn).symm]

theorem Inv.step (h : Inv s) {a : Action T N} (hund : Undisturbed s a)
    (hstep : step s a = some s') : Inv s' := by
  cases a with
  | read n =>
      have hlatch : releaseLatch (s.latches n) = some (.none, .free) := by
        rw [h.eq_free hund]
        rfl
      simp only [LatchOwners.step, hlatch, Option.map_some, h.setLatch_free hund] at hstep
      cases hstep
      exact h
  | evict n =>
      simp only [LatchOwners.step, h.setLatch_free hund] at hstep
      cases hstep
      exact h
  | setParent n p =>
      cases hstep
      exact h.setParent hund
  | choose u child => exact h.insertStep hund (fun _ _ heq => by cases heq; rfl) hstep
  | _ => exact h.insertStep hund nofun hstep

omit [DecidableEq T] in
theorem inv_init (parent : N → Option N) : Inv (Sys.init parent : Sys T N) := by
  refine ⟨⟨?_, ?_, ?_, ?_, fun _ => List.nodup_nil⟩, fun _ => rfl⟩
  · exact fun _ _ hn => absurd hn List.not_mem_nil
  · exact fun _ _ hn => absurd hn List.not_mem_nil
  · intro n _
    have hnone : sharers (Sys.init parent : Sys T N).shared n = 0 :=
      Finset.sum_eq_zero fun _ _ => rfl
    rw [hnone]
    rfl
  · exact fun _ _ _ hn => absurd hn List.not_mem_nil

omit [DecidableEq T] in
theorem Inv.kept (h : Inv s) : s.Kept := by
  refine ⟨?_, h.accounts.single, ?_⟩
  · intro t n hn
    rw [h.accounts.exclusive t n hn]
    rfl
  · intro t hphase
    exact good_at hphase (h.good t)

/-- **The exclusive latches of the inserts are kept** in every run whose steps are undisturbed. -/
theorem exclusive_latches_kept (parent : N → Option N) {as : List (Action T N)}
    (hund : AllSteps step Undisturbed (Sys.init parent) as)
    (hrun : runs step (Sys.init parent) as = some s) : s.Kept :=
  (runs_invariant (P := Inv) (fun _ _ _ h hund hstep => h.step hund hstep) (inv_init parent)
    hund hrun).kept

end Runs

/-- Under the root 1 one insert goes to the full leaf 2 and the other to leaf 3, and reads find
    their keys in leaf 4 meanwhile. -/
def twoInserts : List (Action Bool Nat) :=
  [.start false 1, .start true 1, .choose false 2, .choose true 3, .latchChild false,
    .latchChild true, .decide true false, .release true, .read 4, .release true,
    .decide false true, .atLeaf true, .read 4, .atLeaf false, .list false, .finish true,
    .list false, .read 3, .finish true, .finish false, .read 4, .finish false, .finish false,
    .read 2]

def underRoot (as : List (Action Bool Nat)) : Option (Sys Bool Nat) :=
  runs step (Sys.init fun n => if n = 1 then none else some 1) as

/-- After so many of these steps the one insert has upgraded the leaf and the root, the other its
    leaf; at the end they have released them. -/
theorem exclusive_latches_kept_two_inserts :
    (∃ s, underRoot (twoInserts.take 14) = some s ∧ (s.inserts false).held = [2, 1] ∧
      (s.inserts true).held = [3] ∧ s.Kept) ∧
    ∃ s, underRoot twoInserts = some s ∧ (s.inserts false).phase = .idle ∧
      (s.inserts true).phase = .idle ∧ s.Kept := by
  have hund : ∀ n, n = 14 ∨ n = 24 → AllSteps step Undisturbed
      (Sys.init fun n => if n = 1 then none else some 1) (twoInserts.take n) := by
    rintro n (rfl | rfl)
    · decide
    · decide
  constructor
  · have hsome : (underRoot (twoInserts.take 14)).map (fun s =>
        ((s.inserts false).held, (s.inserts true).held)) = some ([2, 1], [3]) := by
      decide
    obtain ⟨s, hrun, hs⟩ := Option.map_eq_some_iff.mp hsome
    obtain ⟨hfull, hleaf⟩ := Prod.mk.inj hs
    exact ⟨s, hrun, hfull, hleaf, exclusive_latches_kept _ (hund 14 (.inl rfl)) hrun⟩
  · have hsome : (underRoot twoInserts).map (fun s =>
        ((s.inserts false).phase, (s.inserts true).phase)) = some (.idle, .idle) := by
      decide
    obtain ⟨s, hrun, hs⟩ := Option.map_eq_some_iff.mp hsome
    obtain ⟨hfirst, hsecond⟩ := Prod.mk.inj hs
    exact ⟨s, hrun, hfirst, hsecond, exclusive_latches_kept _ (hund 24 (.inr rfl)) hrun⟩

/-- A read that finds its key in a leaf which an insert has just upgraded frees the leaf, and the
    assertion of the insert fails. -/
theorem read_frees_exclusive_latch :
    ¬ ∀ (as : List (Action Unit Nat)) (s : Sys Unit Nat),
      runs step (Sys.init fun _ => none) as = some s → s.Kept := by
  intro h
  exact (h [.start () 1, .atLeaf (), .read 1, .finish ()] _ rfl).asserted () rfl

end VeriTxn.LatchOwners
