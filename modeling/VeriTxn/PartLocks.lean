import Mathlib.Data.Set.Card
import Mathlib.Logic.Relation
import VeriTxn.Shifts
import VeriTxn.Transition
import VeriTxn.Types

/-!
# H-Store: partition locks

`PartMan` gives a partition to one transaction at a time.  A transaction younger than the owner
waits, in the order of time stamps; an older one is refused, and `Plock::lock` then gives up
everything it has asked for.  `ready_part` counts the partitions a transaction waits for: its own
`lock` and `unlock` change it, and so does the `unlock` of the owner before it.

There is one transaction manager for each of the `g_thread_cnt` threads.  The latched calls of
`PartMan` are the steps.
-/

namespace VeriTxn.Hstore

open Shifts

variable {n : Nat} {P : Type}

/-- `PartMan`; transactions are the managers of the threads. -/
structure PartMan (n : Nat) where
  owner : Option (Fin n)
  waiters : Nat → Option (Fin n)
  waiterCnt : Nat

/-- `PartMan::init`; the array is not set. -/
def PartMan.init : PartMan n := ⟨none, fun _ => none, 0⟩

/-- `PartMan::lock(txn)`: the result, the manager, and whether `txn->ready_part` goes up;
    `none` when an assertion fails. -/
def PartMan.lock (ts : Fin n → Nat) (m : PartMan n) (txn : Fin n) :
    Option (RC × PartMan n × Bool) :=
  match m.owner with
  | none => some (.rcok, { m with owner := some txn }, false)
  | some owner =>
      if ts owner < ts txn then
        if m.waiterCnt < n then do
          let waiters ← insertLoop (fun w => ts txn > ts w) txn m.waiterCnt m.waiters
          some (.wait, ⟨some owner, waiters, m.waiterCnt + 1⟩, true)
        else none
      else some (.abort, m, false)

/-- `PartMan::unlock(txn)`: the manager, and whose `ready_part` goes down. -/
def PartMan.unlock (ts : Fin n → Nat) (m : PartMan n) (txn : Fin n) :
    Option (PartMan n × Option (Fin n)) :=
  if m.owner = some txn then
    if m.waiterCnt = 0 then some ({ m with owner := none }, none)
    else do
      let owner ← m.waiters 0
      let waiters ← shiftLoop (fun w w' => ts w < ts w') (m.waiterCnt - 1) 0 m.waiters
      some (⟨some owner, waiters, m.waiterCnt - 1⟩, some owner)
  else
    let (find, waiters) := removeLoop txn m.waiterCnt m.waiterCnt 0 false m.waiters
    if find then some ({ m with waiters := waiters, waiterCnt := m.waiterCnt - 1 }, some txn)
    else none

/-- Where a transaction is in `Plock::lock` and `Plock::unlock`. -/
inductive Call (P : Type) where
  | idle
  /-- in the first loop of `lock`, at `i` -/
  | locking (parts : List P) (i : Nat)
  /-- `lock` was refused at `i`; in its second loop, at `j` -/
  | undoing (parts : List P) (i j : Nat)
  | aborted
  /-- in `while (txn->ready_part > 0)` -/
  | spinning (parts : List P)
  /-- `lock` returned RCOK -/
  | owns (parts : List P)
  /-- in the loop of `unlock`, at `i` -/
  | unlocking (parts : List P) (i : Nat)
deriving DecidableEq

/-- The partitions, and each transaction's time stamp, `ready_part` and call. -/
structure Plock (n : Nat) (P : Type) where
  partMans : P → PartMan n
  ts : Fin n → Nat
  readyPart : Fin n → Int
  calls : Fin n → Call P

def Plock.init (ts : Fin n → Nat) : Plock n P :=
  ⟨fun _ => .init, ts, fun _ => 0, fun _ => .idle⟩

/-- What can happen next: a new transaction calls `lock`, one that has returned from it calls
    `unlock`, or a call goes on. -/
inductive Action (n : Nat) (P : Type) where
  | lock (t : Fin n) (ts : Nat) (parts : List P)
  | unlock (t : Fin n)
  | next (t : Fin n)

variable [DecidableEq P]

def Plock.goto (s : Plock n P) (t : Fin n) (c : Call P) : Plock n P :=
  { s with calls := Function.update s.calls t c }

/-- `part_mans[p]->lock(t)`, then `ok` or, if it is refused, `refused`. -/
def Plock.lockPart (s : Plock n P) (t : Fin n) (p : P) (ok refused : Call P) :
    Option (Plock n P) := do
  let (rc, m, waits) ← (s.partMans p).lock s.ts t
  some { s with
    partMans := Function.update s.partMans p m
    readyPart := if waits then Function.update s.readyPart t (s.readyPart t + 1) else s.readyPart
    calls := Function.update s.calls t (if rc = .abort then refused else ok) }

/-- `part_mans[p]->unlock(t)`, then `c`. -/
def Plock.unlockPart (s : Plock n P) (t : Fin n) (p : P) (c : Call P) : Option (Plock n P) := do
  let (m, ready) ← (s.partMans p).unlock s.ts t
  some { s with
    partMans := Function.update s.partMans p m
    readyPart := match ready with
      | some u => Function.update s.readyPart u (s.readyPart u - 1)
      | none => s.readyPart
    calls := Function.update s.calls t c }

/-- The next step of a call; `none` while it spins and when an assertion fails. -/
def Plock.next (s : Plock n P) (t : Fin n) : Option (Plock n P) :=
  match s.calls t with
  | .locking parts i =>
      match parts[i]? with
      | some p => s.lockPart t p (.locking parts (i + 1)) (.undoing parts i 0)
      | none => some (s.goto t (.spinning parts))
  | .undoing parts i j =>
      if j < i then do
        let p ← parts[j]?
        s.unlockPart t p (.undoing parts i (j + 1))
      else if s.readyPart t = 0 then some (s.goto t .aborted) else none
  | .spinning parts =>
      if s.readyPart t > 0 then none
      else if s.readyPart t = 0 then some (s.goto t (.owns parts)) else none
  | .unlocking parts i =>
      match parts[i]? with
      | some p => s.unlockPart t p (.unlocking parts (i + 1))
      | none => some (s.goto t .idle)
  | _ => none

/-- A transaction that holds nothing calls `lock` with distinct partitions and a time stamp
    no other has. -/
def Plock.step (s : Plock n P) : Action n P → Option (Plock n P)
  | .lock t ts parts =>
      if (s.calls t = .idle ∨ s.calls t = .aborted) ∧ parts.Nodup ∧ ∀ u, u ≠ t → s.ts u ≠ ts then
        some { s.goto t (.locking parts 0) with ts := Function.update s.ts t ts }
      else none
  | .unlock t =>
      match s.calls t with
      | .owns parts => some (s.goto t (.unlocking parts 0))
      | _ => none
  | .next t => s.next t

/-! ### One partition -/

/-- The waiters in the order of the array. -/
def PartMan.waiterList (m : PartMan n) : List (Fin n) := toList m.waiters m.waiterCnt

/-- The waiters are `ws`: in ascending order and younger than the owner. -/
structure PartMan.Sound (ts : Fin n → Nat) (m : PartMan n) (ws : List (Fin n)) : Prop where
  cnt : m.waiterCnt = ws.length
  holds : Holds m.waiters ws
  ascending : ws.Pairwise fun w w' => ts w < ts w'
  younger : ∀ o ∈ m.owner, ∀ w ∈ ws, ts o < ts w
  free : m.owner = none → ws = []

variable {ts : Fin n → Nat} {m : PartMan n} {ws : List (Fin n)} {t : Fin n}

theorem PartMan.Sound.waiterList_eq (h : m.Sound ts ws) : m.waiterList = ws := by
  rw [PartMan.waiterList, h.cnt]
  exact h.holds.toList

theorem PartMan.sound_init (ts : Fin n → Nat) : PartMan.init.Sound ts [] where
  cnt := rfl
  holds := holdsAt_nil _ _
  ascending := List.Pairwise.nil
  younger _ h := nomatch h
  free _ := rfl

/-- The owner does not wait. -/
theorem PartMan.Sound.owner_notMem (h : m.Sound ts ws) (hown : m.owner = some t) : t ∉ ws :=
  fun ht => Nat.lt_irrefl _ (h.younger t hown t ht)

theorem PartMan.Sound.nodup (h : m.Sound ts ws) : ws.Nodup := by
  refine h.ascending.imp ?_
  rintro w w' hlt rfl
  exact Nat.lt_irrefl _ hlt

/-- Waiters and the new one leave room in the array. -/
theorem PartMan.Sound.waiterCnt_lt (h : m.Sound ts ws) (ht : t ∉ ws) : m.waiterCnt < n := by
  have hnodup : (t :: ws).Nodup := List.nodup_cons.mpr ⟨ht, h.nodup⟩
  have hle := hnodup.length_le_card
  rw [Fintype.card_fin, List.length_cons, ← h.cnt] at hle
  exact hle

/-- **What `lock` can do**: take a free partition, queue up behind the older waiters, or be
    refused by a younger owner. -/
theorem PartMan.Sound.lock_cases (h : m.Sound ts ws) (hinj : Function.Injective ts)
    (howner : m.owner ≠ some t) (ht : t ∉ ws) :
    (m.owner = none ∧ ws = [] ∧ m.lock ts t = some (.rcok, { m with owner := some t }, false)) ∨
    (∃ o m' front back, m.owner = some o ∧ ws = front ++ back ∧
      m.lock ts t = some (.wait, m', true) ∧ m'.owner = some o ∧ m'.Sound ts (front ++ t :: back)) ∨
    (∃ o, m.owner = some o ∧ m.lock ts t = some (.abort, m, false)) := by
  unfold PartMan.lock
  cases hown : m.owner with
  | none => exact .inl ⟨rfl, h.free hown, rfl⟩
  | some o =>
      refine .inr ?_
      by_cases hlt : ts o < ts t
      · refine .inl ?_
        obtain ⟨a', front, back, hloop, hsplit, hholds, hback, hlast⟩ :
            ∃ a' front back, insertLoop (fun w => ts t > ts w) t m.waiterCnt m.waiters = some a' ∧
              ws ++ [] = front ++ back ∧ Holds a' (front ++ t :: back) ∧
              (∀ w ∈ back, decide (ts t > ts w) = false) ∧
              ∀ w ∈ front.getLast?, decide (ts t > ts w) = true :=
          insertLoop_eq_some h.cnt.symm h.holds (holdsAt_nil _ _) (by simp)
        rw [List.append_nil] at hsplit
        have hasc := h.ascending
        rw [hsplit] at hasc
        obtain ⟨hasc₁, hasc₂, hbetween⟩ := List.pairwise_append.mp hasc
        have hyounger : ∀ w ∈ back, ts t < ts w := by
          intro w hw
          have hle : ts t ≤ ts w := by simpa using hback w hw
          refine Nat.lt_of_le_of_ne hle fun heq => ht ?_
          rw [hsplit, hinj heq]
          exact List.mem_append_right _ hw
        -- the last of the front is older, and the others are older than it
        have holder : ∀ w ∈ front, ts w < ts t := by
          intro w hw
          obtain ⟨init, last, rfl⟩ : ∃ init last, front = init ++ [last] := by
            rcases List.eq_nil_or_concat front with rfl | ⟨init, last, rfl⟩
            · cases hw
            · exact ⟨init, last, by simp⟩
          have hlt' : ts last < ts t := by simpa using hlast last (by simp)
          rcases List.mem_append.mp hw with hw | hw
          · exact ((List.pairwise_append.mp hasc₁).2.2 w hw last (by simp)).trans hlt'
          · exact List.mem_singleton.mp hw ▸ hlt'
        refine ⟨o, ⟨some o, a', m.waiterCnt + 1⟩, front, back, rfl, hsplit, ?_, rfl, ?_⟩
        · dsimp only
          rw [if_pos hlt, if_pos (h.waiterCnt_lt ht), hloop]
          rfl
        · constructor
          · rw [h.cnt, hsplit, List.length_append, List.length_append, List.length_cons,
              Nat.add_assoc]
          · exact hholds
          · refine List.pairwise_append.mpr ⟨hasc₁, List.pairwise_cons.mpr ⟨hyounger, hasc₂⟩, ?_⟩
            intro w hw w' hw'
            rcases List.mem_cons.mp hw' with rfl | hw'
            · exact holder w hw
            · exact hbetween w hw w' hw'
          · intro o' ho' w hw
            cases ho'
            rcases List.mem_append.mp hw with hw | hw
            · exact h.younger o hown w (hsplit ▸ List.mem_append_left _ hw)
            · rcases List.mem_cons.mp hw with rfl | hw
              · exact hlt
              · exact h.younger o hown w (hsplit ▸ List.mem_append_right _ hw)
          · exact fun hnone => nomatch hnone
      · exact .inr ⟨o, rfl, if_neg hlt⟩

/-- The owner leaves the partition to the oldest waiter. -/
theorem PartMan.Sound.unlock_owner (h : m.Sound ts ws) (hown : m.owner = some t) :
    (ws = [] ∧ m.unlock ts t = some ({ m with owner := none }, none)) ∨
    (∃ w rest m', ws = w :: rest ∧ m.unlock ts t = some (m', some w) ∧ m'.owner = some w ∧
      m'.Sound ts rest) := by
  unfold PartMan.unlock
  rw [if_pos hown, h.cnt]
  cases ws with
  | nil => exact .inl ⟨rfl, rfl⟩
  | cons w rest =>
      obtain ⟨hlt, hasc⟩ := List.pairwise_cons.mp h.ascending
      obtain ⟨a', hloop, hholds, -⟩ : ∃ a', shiftLoop (fun w w' => ts w < ts w')
          ((w :: rest).length - 1) 0 m.waiters = some a' ∧ Holds a' rest ∧ ∀ k < 0, a' k =
            m.waiters k :=
        shiftLoop_eq_some rfl h.holds (h.ascending.imp fun h => decide_eq_true h)
      have hfirst : m.waiters 0 = some w := (holdsAt_cons.mp h.holds).1
      refine .inr ⟨w, rest, ⟨some w, a', rest.length⟩, rfl, ?_, rfl, rfl, hholds, hasc, ?_, ?_⟩
      · rw [if_neg (by simp), hfirst, Option.bind_eq_bind, Option.bind_some, hloop]
        rfl
      · intro o ho w' hw'
        cases ho
        exact hlt w' hw'
      · exact fun hnone => nomatch hnone

/-- A waiter leaves the queue. -/
theorem PartMan.Sound.unlock_waiter (h : m.Sound ts ws) (ht : t ∈ ws) :
    ∃ front back m', ws = front ++ t :: back ∧ t ∉ front ++ back ∧
      m.unlock ts t = some (m', some t) ∧ m'.owner = m.owner ∧ m'.Sound ts (front ++ back) := by
  have howner : m.owner ≠ some t := fun hown => h.owner_notMem hown ht
  obtain ⟨front, back, rfl, hfront⟩ := List.eq_append_cons_of_mem ht
  have hback : t ∉ back := by
    have hnodup := (List.nodup_append.mp h.nodup).2.1
    exact (List.nodup_cons.mp hnodup).1
  obtain ⟨a', hloop, hholds, -⟩ : ∃ a', removeLoop t m.waiterCnt m.waiterCnt 0 false m.waiters =
      (true, a') ∧ Holds a' (front ++ back) ∧ ∀ k < 0, a' k = m.waiters k := by
    refine removeLoop_eq ?_ (Nat.zero_add _) h.holds hfront
    rw [h.cnt, List.length_append, List.length_cons]
    omega
  have hsub : (front ++ back).Sublist (front ++ t :: back) :=
    List.Sublist.append (List.Sublist.refl _) (List.sublist_cons_self ..)
  refine ⟨front, back, ⟨m.owner, a', m.waiterCnt - 1⟩, rfl, ?_, ?_, rfl, ?_, hholds,
    h.ascending.sublist hsub, fun o ho w hw => h.younger o ho w (hsub.mem hw), fun hnone => ?_⟩
  · simp [hfront, hback]
  · unfold PartMan.unlock
    rw [if_neg howner, hloop]
    rfl
  · change m.waiterCnt - 1 = _
    rw [h.cnt, List.length_append, List.length_append, List.length_cons]
    omega
  · exact absurd (h.free hnone) (by simp)

/-! ### All partitions -/

/-- The partitions a transaction has asked for and not given back. -/
def Call.engaged : Call P → List P
  | .idle | .aborted => []
  | .locking parts i => parts.take i
  | .undoing parts i j => (parts.take i).drop j
  | .spinning parts | .owns parts => parts
  | .unlocking parts i => parts.drop i

/-- A call on distinct partitions with its counters in range. -/
def Call.Wf : Call P → Prop
  | .idle | .aborted => True
  | .locking parts i => parts.Nodup ∧ i ≤ parts.length
  | .undoing parts i j => parts.Nodup ∧ i ≤ parts.length ∧ j ≤ i
  | .spinning parts | .owns parts => parts.Nodup
  | .unlocking parts i => parts.Nodup ∧ i ≤ parts.length

/-- After `lock` returned RCOK, what is not given back is owned. -/
def Call.Owning : Call P → Prop
  | .owns _ | .unlocking _ _ => True
  | _ => False

/-- The partitions a transaction waits for. -/
def Plock.waitsOn (s : Plock n P) (t : Fin n) : Set P := {p | t ∈ (s.partMans p).waiterList}

structure Plock.Inv (s : Plock n P) : Prop where
  distinct : Function.Injective s.ts
  sound : ∀ p, (s.partMans p).Sound s.ts (s.partMans p).waiterList
  engaged : ∀ t p, ((s.partMans p).owner = some t ∨ t ∈ (s.partMans p).waiterList) ↔
    p ∈ (s.calls t).engaged
  ready : ∀ t, s.readyPart t = (s.waitsOn t).ncard
  wf : ∀ t, (s.calls t).Wf
  owning : ∀ t, (s.calls t).Owning → ∀ p ∈ (s.calls t).engaged, (s.partMans p).owner = some t

omit [DecidableEq P] in
theorem Plock.inv_init (hinj : Function.Injective ts) : (Plock.init ts : Plock n P).Inv where
  distinct := hinj
  sound p := PartMan.sound_init ts
  engaged t p := by simp [Plock.init, PartMan.init, PartMan.waiterList, toList, Call.engaged]
  ready t := by simp [Plock.init, Plock.waitsOn, PartMan.init, PartMan.waiterList, toList]
  wf t := trivial
  owning t h := h.elim

variable {s s' : Plock n P} {p : P}

omit [DecidableEq P] in
theorem Plock.Inv.finite (h : s.Inv) (t : Fin n) : (s.waitsOn t).Finite :=
  (s.calls t).engaged.finite_toSet.subset fun p hp => (h.engaged t p).mp (.inr hp)

/-- One or none. -/
def one (b : Prop) [Decidable b] : Int := if b then 1 else 0

/-- The size of a set that changes at one element. -/
theorem ncard_change {α : Type} {A B : Set α} {x : α} {a b : Prop} [Decidable a] [Decidable b]
    (hA : A.Finite) (ha : x ∈ A ↔ a) (hb : x ∈ B ↔ b) (hsame : ∀ y, y ≠ x → (y ∈ B ↔ y ∈ A)) :
    (B.ncard : Int) = A.ncard + one b - one a := by
  have hcommon : B \ {x} = A \ {x} := by
    ext y
    constructor
    · rintro ⟨hy, hne⟩
      exact ⟨(hsame y hne).mp hy, hne⟩
    · rintro ⟨hy, hne⟩
      exact ⟨(hsame y hne).mpr hy, hne⟩
  have hB : B.Finite := by
    refine (hA.insert x).subset fun y hy => ?_
    by_cases hyx : y = x
    · exact .inl hyx
    · exact .inr ((hsame y hyx).mp hy)
  have hcount : ∀ {C : Set α} {c : Prop} [Decidable c], C.Finite → (x ∈ C ↔ c) →
      (C.ncard : Int) = (C \ {x}).ncard + one c := by
    intro C c _ hC hc
    by_cases hx : x ∈ C
    · have hcard := Set.ncard_sdiff_singleton_add_one hx hC
      rw [one, if_pos (hc.mp hx)]
      omega
    · rw [one, if_neg (fun h => hx (hc.mpr h)), Set.sdiff_singleton_eq_self hx, add_zero]
  rw [hcount hA ha, hcount hB hb, hcommon]
  omega

/-- **One latched call.**  It changes the partition `p` and the call of `t`; the others stay
    engaged and keep what they own, and `ready_part` follows the queue. -/
theorem Plock.Inv.move (h : s.Inv) {m' : PartMan n} {ws' : List (Fin n)} {c : Call P}
    {ready : Fin n → Int} (hsound : m'.Sound s.ts ws')
    (hready : ∀ u, ready u = s.readyPart u + one (u ∈ ws') -
      one (u ∈ (s.partMans p).waiterList))
    (hothers : ∀ u, u ≠ t → ((m'.owner = some u ∨ u ∈ ws') ↔
      ((s.partMans p).owner = some u ∨ u ∈ (s.partMans p).waiterList)))
    (howners : ∀ u, u ≠ t → (s.partMans p).owner = some u → m'.owner = some u)
    (hthis : (m'.owner = some t ∨ t ∈ ws') ↔ p ∈ c.engaged)
    (helse : ∀ q, q ≠ p → (q ∈ c.engaged ↔ q ∈ (s.calls t).engaged)) (hwf : c.Wf)
    (howning : c.Owning → (s.calls t).Owning ∧ p ∉ c.engaged) :
    Plock.Inv { s with
      partMans := Function.update s.partMans p m'
      readyPart := ready
      calls := Function.update s.calls t c } := by
  have hlist := hsound.waiterList_eq
  constructor
  · exact h.distinct
  · intro q
    by_cases hq : q = p
    · subst hq
      simpa only [Function.update_self, hlist] using hsound
    · simpa only [Function.update_of_ne hq] using h.sound q
  · intro u q
    by_cases hq : q = p
    · subst hq
      by_cases hu : u = t
      · subst hu
        simpa only [Function.update_self, hlist] using hthis
      · simpa only [Function.update_self, Function.update_of_ne hu, hlist, hothers u hu] using
          h.engaged u q
    · by_cases hu : u = t
      · subst hu
        simp only [Function.update_self, Function.update_of_ne hq, helse q hq]
        exact h.engaged u q
      · simpa only [Function.update_of_ne hu, Function.update_of_ne hq] using h.engaged u q
  · intro u
    have hat : p ∈ {q | u ∈ (Function.update s.partMans p m' q).waiterList} ↔ u ∈ ws' := by
      simp [hlist]
    have hbefore : p ∈ s.waitsOn u ↔ u ∈ (s.partMans p).waiterList := Iff.rfl
    have hcard := ncard_change (h.finite u) hbefore hat fun q hq => by
      simp [Plock.waitsOn, Function.update_of_ne hq]
    change ready u = (Set.ncard {q | u ∈ (Function.update s.partMans p m' q).waiterList} : Int)
    rw [hcard, hready u, h.ready u]
  · intro u
    by_cases hu : u = t
    · subst hu
      simpa only [Function.update_self] using hwf
    · simpa only [Function.update_of_ne hu] using h.wf u
  · intro u
    by_cases hu : u = t
    · subst hu
      simp only [Function.update_self]
      intro hc q hq
      obtain ⟨hbefore, hnot⟩ := howning hc
      have hqp : q ≠ p := fun heq => hnot (heq ▸ hq)
      rw [Function.update_of_ne hqp]
      exact h.owning u hbefore q ((helse q hqp).mp hq)
    · simp only [Function.update_of_ne hu]
      intro hc q hq
      by_cases hqp : q = p
      · subst hqp
        rw [Function.update_self]
        exact howners u hu (h.owning u hc q hq)
      · rw [Function.update_of_ne hqp]
        exact h.owning u hc q hq

omit [DecidableEq P] in
theorem Plock.Inv.not_engaged (h : s.Inv) (hp : p ∉ (s.calls t).engaged) :
    (s.partMans p).owner ≠ some t ∧ t ∉ (s.partMans p).waiterList := by
  constructor
  · exact fun hown => hp ((h.engaged t p).mp (.inl hown))
  · exact fun hwait => hp ((h.engaged t p).mp (.inr hwait))

/-- Asking for one more partition. -/
theorem Plock.Inv.lockPart (h : s.Inv) (hp : p ∉ (s.calls t).engaged) {ok refused : Call P}
    (hok : ∀ q, q ∈ ok.engaged ↔ q = p ∨ q ∈ (s.calls t).engaged)
    (hrefused : ∀ q, q ∈ refused.engaged ↔ q ∈ (s.calls t).engaged) (hokWf : ok.Wf)
    (hrefusedWf : refused.Wf) (hnot : ¬ ok.Owning ∧ ¬ refused.Owning) :
    ∃ s', s.lockPart t p ok refused = some s' ∧ s'.Inv := by
  obtain ⟨howner, hwait⟩ := h.not_engaged hp
  have hsound := h.sound p
  have helse : ∀ q, q ≠ p → (q ∈ ok.engaged ↔ q ∈ (s.calls t).engaged) := fun q hq => by
    rw [hok q]
    exact or_iff_right hq
  have hin : p ∈ ok.engaged := (hok p).mpr (.inl rfl)
  rcases hsound.lock_cases h.distinct howner hwait with ⟨hfree, hempty, hlock⟩ |
    ⟨o, m', front, back, hown, hsplit, hlock, hown', hsound'⟩ | ⟨o, hown, hlock⟩
  · refine ⟨_, by rw [Plock.lockPart, hlock]; rfl, ?_⟩
    have hsound' : ({ s.partMans p with owner := some t } : PartMan n).Sound s.ts [] := by
      refine ⟨by rw [hsound.cnt, hempty], holdsAt_nil _ _, List.Pairwise.nil, ?_, fun _ => rfl⟩
      intro o _ w hw
      cases hw
    refine h.move hsound' ?_ ?_ ?_ ?_ helse hokWf fun hc => absurd hc hnot.1
    · intro u
      simp [one, hempty]
    · intro u hu
      simp [hfree, hempty, Ne.symm hu]
    · intro u _ hu
      rw [hfree] at hu
      cases hu
    · simp [hin]
  · refine ⟨_, by rw [Plock.lockPart, hlock]; rfl, ?_⟩
    refine h.move hsound' ?_ ?_ ?_ ?_ helse hokWf fun hc => absurd hc hnot.1
    · intro u
      by_cases hu : u = t
      · subst hu
        simp [one, hwait]
      · simp [one, hu, hsplit]
    · intro u hu
      simp [hown, hown', hsplit, hu]
    · intro u _ hu
      rw [hown', ← hown, hu]
    · simp [hin]
  · refine ⟨_, by rw [Plock.lockPart, hlock]; rfl, ?_⟩
    refine h.move hsound ?_ (fun u _ => Iff.rfl) (fun u _ hu => hu) ?_
      (fun q _ => hrefused q) hrefusedWf fun hc => absurd hc hnot.2
    · intro u
      simp
    · exact (h.engaged t p).trans (hrefused p).symm

/-- Giving a partition back. -/
theorem Plock.Inv.unlockPart (h : s.Inv) (hp : p ∈ (s.calls t).engaged) {c : Call P}
    (hgone : p ∉ c.engaged) (helse : ∀ q, q ≠ p → (q ∈ c.engaged ↔ q ∈ (s.calls t).engaged))
    (hwf : c.Wf) (howning : c.Owning → (s.calls t).Owning) :
    ∃ s', s.unlockPart t p c = some s' ∧ s'.Inv := by
  have hsound := h.sound p
  have hkeep : c.Owning → (s.calls t).Owning ∧ p ∉ c.engaged := fun hc => ⟨howning hc, hgone⟩
  rcases (h.engaged t p).mpr hp with hown | hwait
  · have hout := hsound.owner_notMem hown
    rcases hsound.unlock_owner hown with ⟨hempty, hunlock⟩ | ⟨w, rest, m', hsplit, hunlock, hown',
      hsound'⟩
    · refine ⟨_, by rw [Plock.unlockPart, hunlock]; rfl, ?_⟩
      have hsound' : ({ s.partMans p with owner := none } : PartMan n).Sound s.ts [] := by
        refine ⟨by rw [hsound.cnt, hempty], holdsAt_nil _ _, List.Pairwise.nil, ?_, fun _ => rfl⟩
        intro o ho
        cases ho
      refine h.move hsound' ?_ ?_ ?_ ?_ helse hwf hkeep
      · intro u
        simp [one, hempty]
      · intro u hu
        simp [hown, hempty, Ne.symm hu]
      · intro u hu hu'
        rw [hown, Option.some.injEq] at hu'
        exact absurd hu'.symm hu
      · simp [hgone]
    · have hw : w ∉ rest := (List.nodup_cons.mp (hsplit ▸ hsound.nodup)).1
      have htw : t ≠ w := by
        rintro rfl
        exact hout (hsplit ▸ List.mem_cons_self ..)
      have htrest : t ∉ rest := fun ht => hout (hsplit ▸ List.mem_cons_of_mem _ ht)
      refine ⟨_, by rw [Plock.unlockPart, hunlock]; rfl, ?_⟩
      refine h.move hsound' ?_ ?_ ?_ ?_ helse hwf hkeep
      · intro u
        by_cases hu : u = w
        · subst hu
          simp [one, hsplit, hw, Int.sub_eq_add_neg]
        · simp [one, hsplit, hu]
      · intro u hu
        simp [hown, hown', hsplit, Ne.symm hu, eq_comm]
      · intro u hu hu'
        rw [hown, Option.some.injEq] at hu'
        exact absurd hu'.symm hu
      · simp [hgone, hown', htw.symm, htrest]
  · obtain ⟨front, back, m', hsplit, hout, hunlock, hown', hsound'⟩ := hsound.unlock_waiter hwait
    have hnot : (s.partMans p).owner ≠ some t := fun hown => hsound.owner_notMem hown hwait
    refine ⟨_, by rw [Plock.unlockPart, hunlock]; rfl, ?_⟩
    refine h.move hsound' ?_ ?_ ?_ ?_ helse hwf hkeep
    · intro u
      by_cases hu : u = t
      · subst hu
        simp only [one, hwait, hout, if_true, if_false, Function.update_self]
        omega
      · simp [one, hu, hsplit]
    · intro u hu
      simp [hown', hsplit, hu]
    · intro u _ hu
      rw [hown', hu]
    · simp [hgone, hown', hnot, List.mem_append.not.mp hout]

omit [DecidableEq P] in
/-- A step that leaves the partitions alone. -/
theorem Plock.Inv.goto (h : s.Inv) {c : Call P}
    (hengaged : ∀ q, q ∈ c.engaged ↔ q ∈ (s.calls t).engaged) (hwf : c.Wf)
    (howning : c.Owning → ∀ q ∈ c.engaged, (s.partMans q).owner = some t) :
    (s.goto t c).Inv := by
  constructor
  · exact h.distinct
  · exact h.sound
  · intro u q
    by_cases hu : u = t
    · subst hu
      simp only [Plock.goto, Function.update_self, hengaged q]
      exact h.engaged u q
    · simpa only [Plock.goto, Function.update_of_ne hu] using h.engaged u q
  · exact h.ready
  · intro u
    by_cases hu : u = t
    · subst hu
      simpa only [Plock.goto, Function.update_self] using hwf
    · simpa only [Plock.goto, Function.update_of_ne hu] using h.wf u
  · intro u
    by_cases hu : u = t
    · subst hu
      simpa only [Plock.goto, Function.update_self] using howning
    · simpa only [Plock.goto, Function.update_of_ne hu] using h.owning u

omit [DecidableEq P] in
/-- A transaction that waits for nothing owns what it asked for. -/
theorem Plock.Inv.owns_of_ready (h : s.Inv) (hready : s.readyPart t = 0) :
    ∀ q ∈ (s.calls t).engaged, (s.partMans q).owner = some t := by
  intro q hq
  have hempty : s.waitsOn t = ∅ := by
    have hcard := h.ready t
    rw [hready] at hcard
    exact (Set.ncard_eq_zero (h.finite t)).mp (by exact_mod_cast hcard.symm)
  rcases (h.engaged t q).mpr hq with hown | hwait
  · exact hown
  · have hmem : q ∈ s.waitsOn t := hwait
    rw [hempty] at hmem
    exact hmem.elim

omit [DecidableEq P] in
/-- A transaction that asked for nothing waits for nothing. -/
theorem Plock.Inv.ready_of_idle (h : s.Inv) (hidle : (s.calls t).engaged = []) :
    s.readyPart t = 0 := by
  have hempty : s.waitsOn t = ∅ := by
    ext q
    have hnot := (h.not_engaged (t := t) (p := q) (by rw [hidle]; exact List.not_mem_nil)).2
    exact ⟨fun hq => hnot hq, fun hq => hq.elim⟩
  rw [h.ready t, hempty, Set.ncard_empty]
  rfl

omit [DecidableEq P] in
theorem notMem_take {parts : List P} (hnodup : parts.Nodup) {i : Nat} (hi : parts[i]? = some p) :
    p ∉ parts.take i := by
  obtain ⟨hlt, rfl⟩ := List.getElem?_eq_some_iff.mp hi
  intro hmem
  obtain ⟨j, hj, heq⟩ := List.mem_take_iff_getElem.mp hmem
  have hij := (List.Nodup.getElem_inj_iff hnodup).mp heq
  omega

omit [DecidableEq P] in
/-- The first of what is left, and the others. -/
theorem drop_eq_cons {l : List P} {i : Nat} (hi : l[i]? = some p) :
    l.drop i = p :: l.drop (i + 1) := by
  obtain ⟨hlt, rfl⟩ := List.getElem?_eq_some_iff.mp hi
  exact List.drop_eq_getElem_cons hlt

/-- Giving back the first of what is left. -/
theorem Plock.Inv.unlockFirst (h : s.Inv) {c : Call P}
    (hengaged : (s.calls t).engaged = p :: c.engaged) (hnodup : (s.calls t).engaged.Nodup)
    (hwf : c.Wf) (howning : c.Owning → (s.calls t).Owning) :
    ∃ s', s.unlockPart t p c = some s' ∧ s'.Inv := by
  rw [hengaged] at hnodup
  have hgone := (List.nodup_cons.mp hnodup).1
  refine h.unlockPart ?_ hgone (fun q hq => ?_) hwf howning
  · rw [hengaged]
    exact List.mem_cons_self ..
  · rw [hengaged, List.mem_cons]
    exact (or_iff_right hq).symm

/-- In a loop of `lock` or `unlock`. -/
def Call.InLoop : Call P → Prop
  | .locking _ _ | .undoing _ _ _ | .unlocking _ _ => True
  | _ => False

/-- The loops go on, whatever the others do. -/
theorem Plock.Inv.next_loop (h : s.Inv) (hloop : (s.calls t).InLoop) :
    ∃ s', s.next t = some s' ∧ s'.Inv := by
  have hwf := h.wf t
  unfold Plock.next
  cases hcall : s.calls t with
  | idle => exact absurd hloop (by rw [hcall]; exact id)
  | aborted => exact absurd hloop (by rw [hcall]; exact id)
  | spinning parts => exact absurd hloop (by rw [hcall]; exact id)
  | owns parts => exact absurd hloop (by rw [hcall]; exact id)
  | locking parts i =>
      rw [hcall] at hwf
      obtain ⟨hnodup, hi⟩ := hwf
      have hengaged : (s.calls t).engaged = parts.take i := by rw [hcall]; rfl
      dsimp only
      cases hp : parts[i]? with
      | none =>
          have hall : parts.take i = parts :=
            List.take_of_length_le (List.getElem?_eq_none_iff.mp hp)
          refine ⟨_, rfl, h.goto (fun q => ?_) hnodup fun hc => hc.elim⟩
          rw [hengaged, hall]
          rfl
      | some p =>
          refine h.lockPart ?_ (fun q => ?_) (fun q => ?_) ⟨hnodup, ?_⟩ ⟨hnodup, hi, Nat.zero_le _⟩
            ⟨id, id⟩
          · rw [hengaged]
            exact notMem_take hnodup hp
          · rw [hengaged, Call.engaged, List.take_add_one, hp, List.mem_append, or_comm]
            simp
          · rw [hengaged, Call.engaged, List.drop_zero]
          · exact (List.getElem?_eq_some_iff.mp hp).1
  | undoing parts i j =>
      rw [hcall] at hwf
      obtain ⟨hnodup, hi, hj⟩ := hwf
      have hengaged : (s.calls t).engaged = (parts.take i).drop j := by rw [hcall]; rfl
      dsimp only
      split
      · rename_i hlt
        obtain ⟨p, hp⟩ : ∃ p, parts[j]? = some p :=
          ⟨_, List.getElem?_eq_getElem (by omega)⟩
        rw [hp]
        refine h.unlockFirst ?_ ?_ ⟨hnodup, hi, hlt⟩ fun hc => hc.elim
        · rw [hengaged]
          exact drop_eq_cons (by rw [List.getElem?_take_of_lt hlt, hp])
        · rw [hengaged]
          exact hnodup.sublist ((List.drop_sublist _ _).trans (List.take_sublist _ _))
      · rename_i hend
        have hnil : (parts.take i).drop j = [] :=
          List.drop_of_length_le (by rw [List.length_take]; omega)
        rw [if_pos (h.ready_of_idle (hengaged.trans hnil))]
        refine ⟨_, rfl, h.goto (fun q => ?_) trivial fun hc => hc.elim⟩
        rw [hengaged, hnil]
        rfl
  | unlocking parts i =>
      rw [hcall] at hwf
      obtain ⟨hnodup, hi⟩ := hwf
      have hengaged : (s.calls t).engaged = parts.drop i := by rw [hcall]; rfl
      dsimp only
      cases hp : parts[i]? with
      | none =>
          have hnil : parts.drop i = [] :=
            List.drop_of_length_le (List.getElem?_eq_none_iff.mp hp)
          refine ⟨_, rfl, h.goto (fun q => ?_) trivial fun hc => hc.elim⟩
          rw [hengaged, hnil]
          rfl
      | some p =>
          refine h.unlockFirst ?_ ?_ ⟨hnodup, (List.getElem?_eq_some_iff.mp hp).1⟩ fun _ => ?_
          · rw [hengaged]
            exact drop_eq_cons hp
          · rw [hengaged]
            exact hnodup.sublist (List.drop_sublist _ _)
          · rw [hcall]
            trivial

/-- A transaction that waits for nothing leaves the spin loop. -/
theorem Plock.Inv.next_spinning (h : s.Inv) {parts : List P} (hcall : s.calls t = .spinning parts)
    (hready : s.readyPart t = 0) : s.next t = some (s.goto t (.owns parts)) ∧
      (s.goto t (.owns parts)).Inv := by
  have hwf := h.wf t
  have hengaged : (s.calls t).engaged = parts := by rw [hcall]; rfl
  rw [hcall] at hwf
  constructor
  · simp [Plock.next, hcall, hready]
  · refine h.goto (fun q => by rw [hengaged]; rfl) hwf fun _ q hq => ?_
    exact h.owns_of_ready hready q (by rw [hengaged]; exact hq)

omit [DecidableEq P] in
/-- A new transaction of a thread that holds nothing. -/
theorem Plock.Inv.begin (h : s.Inv) {parts : List P} {stamp : Nat}
    (hidle : (s.calls t).engaged = []) (hnodup : parts.Nodup)
    (hstamp : ∀ u, u ≠ t → s.ts u ≠ stamp) :
    Plock.Inv { s.goto t (.locking parts 0) with ts := Function.update s.ts t stamp } := by
  have hgoto : (s.goto t (.locking parts 0)).Inv := by
    refine h.goto (fun q => ?_) ⟨hnodup, Nat.zero_le _⟩ fun hc => hc.elim
    rw [hidle]
    rfl
  have hnot : ∀ q, (s.partMans q).owner ≠ some t ∧ t ∉ (s.partMans q).waiterList :=
    fun q => h.not_engaged (by rw [hidle]; exact List.not_mem_nil)
  constructor
  · intro u u' heq
    by_cases hu : u = t
    · by_cases hu' : u' = t
      · exact hu.trans hu'.symm
      · simp only [hu, Function.update_self, Function.update_of_ne hu'] at heq
        exact absurd heq.symm (hstamp u' hu')
    · by_cases hu' : u' = t
      · simp only [hu', Function.update_self, Function.update_of_ne hu] at heq
        exact absurd heq (hstamp u hu)
      · simp only [Function.update_of_ne hu, Function.update_of_ne hu'] at heq
        exact h.distinct heq
  · intro q
    have hsound := h.sound q
    have hsame : ∀ w ∈ (s.partMans q).waiterList, Function.update s.ts t stamp w = s.ts w := by
      intro w hw
      refine Function.update_of_ne ?_ _ _
      rintro rfl
      exact (hnot q).2 hw
    refine ⟨hsound.cnt, hsound.holds, ?_, fun o ho w hw => ?_, hsound.free⟩
    · refine hsound.ascending.imp_of_mem fun hw hw' hlt => ?_
      dsimp only
      rw [hsame _ hw, hsame _ hw']
      exact hlt
    · have ho' : o ≠ t := by
        rintro rfl
        exact (hnot q).1 ho
      dsimp only
      rw [hsame w hw, Function.update_of_ne ho']
      exact hsound.younger o ho w hw
  · exact hgoto.engaged
  · exact hgoto.ready
  · exact hgoto.wf
  · exact hgoto.owning

theorem Plock.Inv.step (h : s.Inv) {a : Action n P} (hstep : s.step a = some s') : s'.Inv := by
  cases a with
  | lock t stamp parts =>
      rw [Plock.step] at hstep
      split at hstep
      · rename_i hcan
        obtain ⟨hidle, hnodup, hstamp⟩ := hcan
        cases hstep
        refine h.begin ?_ hnodup hstamp
        rcases hidle with hidle | hidle
        · rw [hidle]
          rfl
        · rw [hidle]
          rfl
      · cases hstep
  | unlock t =>
      rw [Plock.step] at hstep
      split at hstep
      · rename_i parts hcall
        cases hstep
        have hwf := h.wf t
        have howning := h.owning t
        rw [hcall] at hwf howning
        refine h.goto (fun q => ?_) ⟨hwf, Nat.zero_le _⟩ fun _ q hq => ?_
        · rw [hcall]
          rfl
        · exact howning trivial q hq
      · cases hstep
  | next t =>
      rw [Plock.step] at hstep
      cases hcall : s.calls t with
      | idle => simp [Plock.next, hcall] at hstep
      | aborted => simp [Plock.next, hcall] at hstep
      | owns parts => simp [Plock.next, hcall] at hstep
      | spinning parts =>
          by_cases hready : s.readyPart t = 0
          · obtain ⟨hnext, hinv⟩ := h.next_spinning hcall hready
            rw [hnext] at hstep
            cases hstep
            exact hinv
          · simp [Plock.next, hcall, hready] at hstep
      | locking parts i =>
          obtain ⟨s₁, hnext, hinv⟩ := h.next_loop (t := t) (by rw [hcall]; trivial)
          rw [hnext] at hstep
          cases hstep
          exact hinv
      | undoing parts i j =>
          obtain ⟨s₁, hnext, hinv⟩ := h.next_loop (t := t) (by rw [hcall]; trivial)
          rw [hnext] at hstep
          cases hstep
          exact hinv
      | unlocking parts i =>
          obtain ⟨s₁, hnext, hinv⟩ := h.next_loop (t := t) (by rw [hcall]; trivial)
          rw [hnext] at hstep
          cases hstep
          exact hinv

/-- `t` waits for a partition until `u`, its owner or a waiter ahead, has left it. -/
def Plock.WaitsFor (s : Plock n P) (t u : Fin n) : Prop :=
  ∃ p, t ∈ (s.partMans p).waiterList ∧ ((s.partMans p).owner = some u ∨
    [u, t].Sublist (s.partMans p).waiterList)

omit [DecidableEq P] in
/-- Waits go to older transactions. -/
theorem Plock.Inv.waitsFor_lt (h : s.Inv) {t u : Fin n} (hwaits : s.WaitsFor t u) :
    s.ts u < s.ts t := by
  obtain ⟨p, ht, hown | hahead⟩ := hwaits
  · exact (h.sound p).younger u hown t ht
  · exact List.pairwise_iff_forall_sublist.mp (h.sound p).ascending hahead

omit [DecidableEq P] in
theorem Plock.Inv.acyclic (h : s.Inv) (t : Fin n) : ¬ Relation.TransGen s.WaitsFor t t := by
  intro hcycle
  have hlt : ∀ u, Relation.TransGen s.WaitsFor t u → s.ts u < s.ts t := by
    intro u hwaits
    induction hwaits with
    | single hone => exact h.waitsFor_lt hone
    | tail _ hone ih => exact (h.waitsFor_lt hone).trans ih
  exact Nat.lt_irrefl _ (hlt t hcycle)

/-- **Partition locks.**  In every state that the latched calls reach: the waiters of a
    partition ascend and are younger than its owner, `ready_part` counts the partitions waited
    for, an aborted `lock` has left nothing behind, one that returned RCOK owns its partitions, no
    waits close a cycle, and no loop of `lock` or `unlock` gets stuck. -/
theorem partition_locks {ts : Fin n → Nat} (hinj : Function.Injective ts)
    {actions : List (Action n P)} {s : Plock n P}
    (hrun : Transition.runs Plock.step (Plock.init ts) actions = some s) :
    (∀ p, (s.partMans p).waiterList.Pairwise (fun w w' => s.ts w < s.ts w') ∧
      (∀ w ∈ (s.partMans p).waiterList, ∃ o, (s.partMans p).owner = some o ∧ s.ts o < s.ts w)) ∧
    (∀ t, (s.waitsOn t).Finite ∧ s.readyPart t = (s.waitsOn t).ncard) ∧
    (∀ t, s.calls t = .aborted → s.readyPart t = 0 ∧
      ∀ p, (s.partMans p).owner ≠ some t ∧ t ∉ (s.partMans p).waiterList) ∧
    (∀ t parts, s.calls t = .owns parts → ∀ p ∈ parts, (s.partMans p).owner = some t) ∧
    (∀ t, ¬ Relation.TransGen s.WaitsFor t t) ∧
    (∀ t, (s.calls t).InLoop → (s.next t).isSome) := by
  have h : s.Inv := by
    refine Transition.runs_invariant (C := fun _ _ => True) (fun s a s' hs _ hstep => ?_)
      (Plock.inv_init hinj) (Transition.allSteps_of_forall (fun _ _ _ => trivial) _) hrun
    exact hs.step hstep
  refine ⟨fun p => ⟨(h.sound p).ascending, fun w hw => ?_⟩, fun t => ⟨h.finite t, h.ready t⟩,
    fun t hcall => ?_, fun t parts hcall p hp => ?_, h.acyclic, fun t hloop => ?_⟩
  · cases hown : (s.partMans p).owner with
    | none =>
        rw [(h.sound p).free hown] at hw
        cases hw
    | some o => exact ⟨o, rfl, (h.sound p).younger o hown w hw⟩
  · have hidle : (s.calls t).engaged = [] := by rw [hcall]; rfl
    refine ⟨h.ready_of_idle hidle, fun p => h.not_engaged ?_⟩
    rw [hidle]
    exact List.not_mem_nil
  · refine h.owning t ?_ p ?_
    · rw [hcall]
      trivial
    · rw [hcall]
      exact hp
  · obtain ⟨s', hnext, -⟩ := h.next_loop hloop
    rw [hnext]
    rfl

/-- Three transactions on two partitions: the middle one owns both, the youngest waits for
    both, the oldest is refused and gives up. -/
def threeOnTwo : List (Action 3 Bool) :=
  [.lock 1 20 [false, true], .next 1, .next 1, .next 1, .next 1, .lock 2 30 [true, false], .next 2,
    .next 2, .next 2, .lock 0 10 [true], .next 0, .next 0]

theorem partition_locks_three_on_two :
    (Transition.runs Plock.step (Plock.init fun t => t.val) threeOnTwo).map
        (fun s => (s.calls, s.readyPart 2, (s.partMans false).waiterList)) =
      some (fun t => if t = 0 then .aborted else if t = 1 then .owns [false, true]
        else .spinning [true, false], 2, [2]) ∧
    ∀ s, Transition.runs Plock.step (Plock.init fun t => t.val) threeOnTwo = some s →
      ∀ t, ¬ Relation.TransGen s.WaitsFor t t := by
  refine ⟨by decide, fun s hrun => ?_⟩
  exact (partition_locks (fun t t' h => Fin.ext h) hrun).2.2.2.2.1

end VeriTxn.Hstore
