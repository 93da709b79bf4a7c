import Mathlib.Data.List.Basic
import Mathlib.Logic.Relation
import VeriTxn.Transition
import VeriTxn.WaitDieTables

/-!
# WAIT_DIE never deadlocks

Transactions ask for rows and give them back in any order; one whose request waits is in the
loop of `get_row` until its `lock_ready` is set.  Every owner of a row holds it in the same,
compatible mode, the waiters stand in descending order of time stamps and are all older than the
owners, and the first waiter is one that has to wait.  A transaction thus waits for younger ones
only, whatever the row, so that no waits close a cycle.
-/

namespace VeriTxn.WaitDie

open LinkedLists NoWait

variable {T R : Type}

namespace RowLock

/-- The entries reached from `owners`. -/
def ownerList (m : RowLock T) : List (Nat × Request T) := walk m.entries m.nextEntry m.owners

/-- The entries reached from `waiters_head`. -/
def waiterList (m : RowLock T) : List (Nat × Request T) :=
  walk m.entries m.nextEntry m.waitersHead

theorem Table.ownerList_eq {m : RowLock T} {os ws : List (Nat × Request T)} (h : Table m os ws) :
    m.ownerList = os :=
  h.owners.walk h.owners_length_le

theorem Table.waiterList_eq {m : RowLock T} {os ws : List (Nat × Request T)} (h : Table m os ws) :
    m.waiterList = ws :=
  h.waiters.stack.walk h.waiters_length_le

/-! ### The order of the owners and the waiters -/

/-- Owners and waiters of a lock held as `lockType`. -/
structure Ordered (ts : T → Nat) (lockType : LockT) (os ws : List (Nat × Request T)) : Prop where
  ownerType : ∀ n ∈ os, n.2.type = lockType
  compatible : os.Pairwise fun n n' => conflictLock n.2.type n'.2.type = false
  free : lockType = .none ↔ os = []
  waiterType : ∀ n ∈ ws, n.2.type ≠ .none
  descending : ws.Pairwise fun n n' => ts n'.2.txn < ts n.2.txn
  older : ∀ n ∈ ws, ∀ n' ∈ os, ts n.2.txn < ts n'.2.txn

/-- A lock table between two calls: its first waiter has to wait. -/
structure Sound (ts : T → Nat) (m : RowLock T) (os ws : List (Nat × Request T)) : Prop
    extends Table m os ws, Ordered ts m.lockType os ws where
  blocked : ∀ n ∈ ws.head?, conflictLock m.lockType n.2.type = true

theorem conflictLock_eq_false {l₁ l₂ : LockT} :
    conflictLock l₁ l₂ = false ↔ l₁ = .none ∨ l₂ = .none ∨ l₁ = .sh ∧ l₂ = .sh := by
  cases l₁ <;> cases l₂ <;> decide

variable {ts : T → Nat} {lockType : LockT} {m : RowLock T} {os ws : List (Nat × Request T)}

theorem sound_init (ts : T → Nat) : Sound ts (RowLock.init : RowLock T) [] [] :=
  ⟨table_init, ⟨by simp, List.Pairwise.nil, by simp [RowLock.init], by simp, List.Pairwise.nil,
    by simp⟩, by simp⟩

/-- An owner that is younger than the waiters and compatible with the other owners. -/
theorem Ordered.push (h : Ordered ts lockType os ws) {n : Nat × Request T}
    (hfree : conflictLock lockType n.2.type = false) (htype : n.2.type ≠ .none)
    (hts : ∀ n' ∈ ws, ts n'.2.txn < ts n.2.txn) : Ordered ts n.2.type (n :: os) ws := by
  have hsame : ∀ n' ∈ os, n'.2.type = n.2.type ∧ n.2.type = .sh := by
    intro n' hn'
    rw [h.ownerType n' hn']
    rcases conflictLock_eq_false.mp hfree with hnone | hnone | ⟨hlock, hnew⟩
    · rw [h.free.mp hnone] at hn'
      cases hn'
    · exact absurd hnone htype
    · exact ⟨hlock.trans hnew.symm, hnew⟩
  refine ⟨?_, List.pairwise_cons.mpr ⟨?_, h.compatible⟩, ?_, h.waiterType, h.descending, ?_⟩
  · intro n' hn'
    rcases List.mem_cons.mp hn' with rfl | hn'
    · rfl
    · exact (hsame n' hn').1
  · intro n' hn'
    obtain ⟨heq, hsh⟩ := hsame n' hn'
    rw [heq, hsh]
    rfl
  · exact ⟨fun hnone => absurd hnone htype, fun hnil => absurd hnil (List.cons_ne_nil _ _)⟩
  · intro n₁ hn₁ n₂ hn₂
    rcases List.mem_cons.mp hn₂ with rfl | hn₂
    · exact hts n₁ hn₁
    · exact h.older n₁ hn₁ n₂ hn₂

/-- Fewer owners, and the lock given up with the last. -/
theorem Ordered.drop {l r : List (Nat × Request T)} {n : Nat × Request T}
    (h : Ordered ts lockType (l ++ n :: r) ws) :
    Ordered ts (if l ++ r = [] then .none else lockType) (l ++ r) ws := by
  have hsub : (l ++ r).Sublist (l ++ n :: r) :=
    (List.Sublist.refl l).append (List.sublist_cons_self n r)
  refine ⟨fun n' hn' => ?_, h.compatible.sublist hsub, ?_, h.waiterType, h.descending, ?_⟩
  · rw [if_neg (List.ne_nil_of_mem hn')]
    exact h.ownerType n' (hsub.subset hn')
  · by_cases hnil : l ++ r = []
    · simp [hnil]
    · have hlock : lockType ≠ .none := fun hnone => by simpa using h.free.mp hnone
      simp [hnil, hlock]
  · exact fun n₁ hn₁ n₂ hn₂ => h.older n₁ hn₁ n₂ (hsub.subset hn₂)

/-- A waiter goes behind the younger ones. -/
theorem Ordered.insert {l r : List (Nat × Request T)} (h : Ordered ts lockType os (l ++ r))
    {n : Nat × Request T} (htype : n.2.type ≠ .none) (hos : ∀ n' ∈ os, ts n.2.txn < ts n'.2.txn)
    (hl : ∀ n' ∈ l, ts n.2.txn < ts n'.2.txn) (hr : ∀ n' ∈ r, ts n'.2.txn < ts n.2.txn) :
    Ordered ts lockType os (l ++ n :: r) := by
  have hmem : ∀ n' ∈ l ++ n :: r, n' = n ∨ n' ∈ l ++ r := by
    intro n' hn'
    exact List.mem_cons.mp (List.perm_middle.mem_iff.mp hn')
  obtain ⟨hdl, hdr, hlr⟩ := List.pairwise_append.mp h.descending
  refine ⟨h.ownerType, h.compatible, h.free, fun n' hn' => ?_, ?_, fun n' hn' => ?_⟩
  · rcases hmem n' hn' with rfl | hn'
    · exact htype
    · exact h.waiterType n' hn'
  · refine List.pairwise_append.mpr ⟨hdl, List.pairwise_cons.mpr ⟨hr, hdr⟩, fun n₁ hn₁ n₂ hn₂ => ?_⟩
    rcases List.mem_cons.mp hn₂ with rfl | hn₂
    · exact hl n₁ hn₁
    · exact hlr n₁ hn₁ n₂ hn₂
  · rcases hmem n' hn' with rfl | hn'
    · exact hos
    · exact h.older n' hn'

/-- In a descending list whatever stands behind the younger ones is not younger. -/
theorem Ordered.not_younger (h : Ordered ts lockType os ws) (t : T) {n : Nat × Request T}
    (hn : n ∈ ws.dropWhile fun n => decide (ts t < ts n.2.txn)) : ts n.2.txn ≤ ts t := by
  have hdesc := h.descending
  clear h
  induction ws with
  | nil => cases hn
  | cons n' ws ih =>
      obtain ⟨hfirst, hrest⟩ := List.pairwise_cons.mp hdesc
      rw [List.dropWhile_cons] at hn
      split at hn
      · exact ih hn hrest
      · rename_i hge
        have hge : ts n'.2.txn ≤ ts t := by simpa using hge
        rcases List.mem_cons.mp hn with rfl | hn
        · exact hge
        · exact (Nat.le_of_lt (hfirst n hn)).trans hge

/-! ### The calls -/

/-- What `lock_get` does to the owners and the waiters of a table. -/
inductive Got (m : RowLock T) (type : LockT) (t : T) (os ws : List (Nat × Request T)) :
    RC → List (Nat × Request T) → List (Nat × Request T) → Prop
  | rcok : Got m type t os ws .rcok ((m.nextEntry, ⟨type, t⟩) :: os) ws
  | wait {l r : List (Nat × Request T)} (hws : ws = l ++ r) :
      Got m type t os ws .wait os (l ++ (m.nextEntry, ⟨type, t⟩) :: r)
  | abort : Got m type t os ws .abort os ws

/-- The waiters are those from before, and the caller if it is told to wait. -/
theorem Got.mem {m : RowLock T} {type : LockT} {t : T} {os ws os' ws' : List (Nat × Request T)}
    {rc : RC} (h : Got m type t os ws rc os' ws') {n : Nat × Request T} (hn : n ∈ ws') :
    n ∈ ws ∨ rc = .wait ∧ n.2.txn = t := by
  cases h with
  | rcok => exact .inl hn
  | abort => exact .inl hn
  | wait hws =>
      rcases List.mem_cons.mp (List.perm_middle.mem_iff.mp hn) with rfl | hn
      · exact .inr ⟨rfl, rfl⟩
      · exact .inl (hws ▸ hn)

theorem Sound.addOwner (h : Sound ts m os ws) {type : LockT} {t : T} (htype : type ≠ .none)
    (hfree : conflictLock m.lockType type = false) (hts : ∀ n ∈ ws.head?, ts n.2.txn < ts t) :
    ∃ m', m.addOwner type t = some m' ∧ Sound ts m' ((m.nextEntry, ⟨type, t⟩) :: os) ws := by
  obtain ⟨m', hadd, htable, hlock⟩ := addOwner_spec h.toTable type t
  have hall : ∀ n ∈ ws, ts n.2.txn < ts t := by
    intro n hn
    cases ws with
    | nil => cases hn
    | cons n' ws =>
        have hhead := hts n' rfl
        rcases List.mem_cons.mp hn with rfl | hn
        · exact hhead
        · exact (List.rel_of_pairwise_cons h.descending hn).trans hhead
  refine ⟨m', hadd, htable, ?_, fun n hn => ?_⟩
  · rw [hlock]
    exact h.toOrdered.push (n := (m.nextEntry, ⟨type, t⟩)) hfree htype hall
  rw [hlock]
  -- the lock was shared before, so that its mode stays
  have hblocked := h.blocked n hn
  rcases conflictLock_eq_false.mp hfree with hnone | hnone | ⟨hold, hnew⟩
  · rw [hnone] at hblocked
    cases hblocked
  · exact absurd hnone htype
  · rwa [hnew, ← hold]

theorem Sound.addWaiter (hinj : Function.Injective ts) (h : Sound ts m os ws) {type : LockT} {t : T}
    (htype : type ≠ .none) (hws : ∀ n ∈ ws, n.2.txn ≠ t) (hos : ∀ n ∈ os, ts t < ts n.2.txn)
    (hwait : conflictLock m.lockType type = true ∨ ∃ n ∈ ws.head?, ts t < ts n.2.txn) :
    ∃ m' l r, m.addWaiter ts type t = some m' ∧ ws = l ++ r ∧
      Sound ts m' os (l ++ (m.nextEntry, ⟨type, t⟩) :: r) := by
  obtain ⟨m', hadd, htable, hlock⟩ := addWaiter_spec ts h.toTable type t
  have hsplit := List.takeWhile_append_dropWhile (p := fun n => decide (ts t < ts n.2.txn)) (l := ws)
  refine ⟨m', _, _, hadd, hsplit.symm, htable, ?_, ?_⟩
  · rw [hlock]
    refine Ordered.insert (hsplit.symm ▸ h.toOrdered) htype hos (fun n hn => ?_) fun n hn => ?_
    · have hlt := List.mem_takeWhile_imp hn
      exact of_decide_eq_true hlt
    · have hne : ts n.2.txn ≠ ts t := fun heq =>
        hws n (hsplit ▸ List.mem_append_right _ hn) (hinj heq)
      exact Nat.lt_of_le_of_ne (h.toOrdered.not_younger t hn) hne
  · rw [hlock]
    intro n hn
    cases ws with
    | nil =>
        cases hn
        rcases hwait with hconflict | ⟨n, hn, -⟩
        · exact hconflict
        · cases hn
    | cons n' ws =>
        rw [List.takeWhile_cons] at hn
        split at hn
        · cases hn
          exact h.blocked _ rfl
        · rename_i hge
          cases hn
          rcases hwait with hconflict | ⟨n, hn, hlt⟩
          · exact hconflict
          · cases hn
            simp [hlt] at hge

/-- `lock_get` within its assertions. -/
theorem Table.lockGet_eq (h : Table m os ws) (ts : T → Nat) (type : LockT) (t : T)
    {threadCnt : Nat} (hcnt : m.ownerCnt ≤ threadCnt ∧ m.waiterCnt < threadCnt) :
    m.lockGet ts threadCnt type t =
      if conflictLock m.lockType type || ws.head?.any fun n => decide (ts t < ts n.2.txn) then
        if os.all fun n => decide (ts t ≤ ts n.2.txn) then
          (m.addWaiter ts type t).map fun m' => (m', .wait)
        else some (m, .abort)
      else (m.addOwner type t).map fun m' => (m', .rcok) := by
  have hcan := canWait_eq ts t h.owners h.owners_length_le
  rw [RowLock.lockGet, if_pos hcnt, h.waiters.head_eq]
  cases ws with
  | nil =>
      simp only [first_nil, hcan, Option.bind_eq_bind, Option.bind_some, List.head?_nil,
        Option.any_none, Bool.or_false, Option.map_eq_bind, Option.pure_def]
      rfl
  | cons n ws =>
      obtain ⟨hcell, -⟩ := h.waiters.segment
      simp only [first_cons, hcell, hcan, Option.bind_eq_bind, Option.bind_some, List.head?_cons,
        Option.any_some, Option.map_eq_bind, Option.pure_def]
      rfl

theorem Sound.lockGet (hinj : Function.Injective ts) (h : Sound ts m os ws) {type : LockT} {t : T}
    {threadCnt : Nat} (htype : type ≠ .none) (hos : ∀ n ∈ os, n.2.txn ≠ t)
    (hws : ∀ n ∈ ws, n.2.txn ≠ t) (hcnt : m.ownerCnt ≤ threadCnt ∧ m.waiterCnt < threadCnt) :
    ∃ m' rc os' ws', m.lockGet ts threadCnt type t = some (m', rc) ∧ Sound ts m' os' ws' ∧
      Got m type t os ws rc os' ws' := by
  rw [h.toTable.lockGet_eq ts type t hcnt]
  split
  · rename_i hwait
    split
    · rename_i hcan
      have hlt : ∀ n ∈ os, ts t < ts n.2.txn := by
        intro n hn
        have hle := of_decide_eq_true (List.all_eq_true.mp hcan n hn)
        exact Nat.lt_of_le_of_ne hle fun heq => hos n hn (hinj heq.symm)
      obtain ⟨m', l, r, hadd, hsplit, hsound⟩ := h.addWaiter hinj htype hws hlt (by
        simpa [Option.any_eq_true] using hwait)
      exact ⟨m', .wait, os, _, by rw [hadd]; rfl, hsound, .wait hsplit⟩
    · exact ⟨m, .abort, os, ws, rfl, h, .abort⟩
  · rename_i hfree
    rw [Bool.or_eq_true, not_or, Bool.not_eq_true] at hfree
    obtain ⟨m', hadd, hsound⟩ := h.addOwner htype hfree.1 (by
      intro n hn
      have hge : ts n.2.txn ≤ ts t := by
        have := hfree.2
        rw [Option.mem_def.mp hn] at this
        simpa using this
      exact Nat.lt_of_le_of_ne hge fun heq => hws n (List.mem_of_mem_head? hn) (hinj heq))
    exact ⟨m', .rcok, _, ws, by rw [hadd]; rfl, hsound, .rcok⟩

section Release

variable [DecidableEq T]

/-- The loop at the end of `lock_release` ends at a waiter that has to wait. -/
theorem promote_spec {fuel : Nat} {lockReady : T → Bool} (h : Table m os ws)
    (hordered : Ordered ts m.lockType os ws) (hready : ∀ n ∈ ws, lockReady n.2.txn = false)
    (hfuel : ws.length < fuel) :
    ∃ m' pre ws', promote fuel m lockReady =
        some (m', fun t => lockReady t || pre.any fun n => decide (n.2.txn = t)) ∧
      ws = pre ++ ws' ∧ Sound ts m' (pre.reverse ++ os) ws' := by
  induction fuel generalizing m os ws lockReady with
  | zero => exact absurd hfuel (Nat.not_lt_zero _)
  | succ fuel ih =>
      cases ws with
      | nil =>
          refine ⟨m, [], [], ?_, rfl, h, hordered, fun n hn => nomatch hn⟩
          have hhead : m.waitersHead = none := h.waiters.head_eq
          rw [promote, hhead]
          simp
      | cons n ws =>
          cases hconflict : conflictLock m.lockType n.2.type with
          | true =>
              refine ⟨m, [], n :: ws, ?_, rfl, h, hordered, fun n' hn' => ?_⟩
              · obtain ⟨hcell, -⟩ := h.waiters.segment
                have hhead : m.waitersHead = some n.1 := h.waiters.head_eq
                rw [promote, hhead]
                simp [hcell, hconflict]
              · cases hn'
                exact hconflict
          | false =>
              obtain ⟨hyounger, hdesc⟩ := List.pairwise_cons.mp hordered.descending
              obtain ⟨m₁, hstep, htable, hlock⟩ :=
                promote_step h fuel hconflict (hready n (List.mem_cons_self ..))
              have hrest : Ordered ts m.lockType os ws :=
                ⟨hordered.ownerType, hordered.compatible, hordered.free,
                  fun n' hn' => hordered.waiterType n' (List.mem_cons_of_mem _ hn'), hdesc,
                  fun n' hn' => hordered.older n' (List.mem_cons_of_mem _ hn')⟩
              have hordered₁ : Ordered ts m₁.lockType (n :: os) ws := by
                rw [hlock]
                exact hrest.push hconflict (hordered.waiterType n (List.mem_cons_self ..)) hyounger
              have hready₁ : ∀ n' ∈ ws, Function.update lockReady n.2.txn true n'.2.txn = false := by
                intro n' hn'
                have hne : n'.2.txn ≠ n.2.txn := by
                  intro heq
                  exact Nat.ne_of_lt (hyounger n' hn') (congrArg ts heq)
                rw [Function.update_of_ne hne]
                exact hready n' (List.mem_cons_of_mem _ hn')
              obtain ⟨m', pre, ws', hpromote, rfl, hsound⟩ :=
                ih htable hordered₁ hready₁ (Nat.lt_of_succ_lt_succ hfuel)
              refine ⟨m', n :: pre, ws', ?_, rfl, ?_⟩
              · rw [hstep, hpromote]
                congr 2
                funext t
                by_cases ht : n.2.txn = t
                · subst ht
                  simp
                · simp [Function.update_of_ne (Ne.symm ht), ht]
              · simpa using hsound

/-- What `lock_release` of an owner does to the owners and the waiters of a table. -/
theorem Sound.lockRelease {t : T} {lockReady : T → Bool} (h : Sound ts m os ws)
    (hown : ∃ n ∈ os, n.2.txn = t) (hready : ∀ n ∈ ws, lockReady n.2.txn = false) :
    ∃ m' l n r pre ws', m.lockRelease t lockReady =
        some (m', fun t => lockReady t || pre.any fun n => decide (n.2.txn = t)) ∧
      os = l ++ n :: r ∧ n.2.txn = t ∧ ws = pre ++ ws' ∧
      Sound ts m' (pre.reverse ++ (l ++ r)) ws' := by
  obtain ⟨n₀, hn₀, htxn₀⟩ := hown
  obtain ⟨n, l, r, hl, htxn, rfl, -⟩ :=
    List.exists_of_eraseP (p := fun n => decide (n.2.txn = t)) hn₀ (decide_eq_true htxn₀)
  have htxn : n.2.txn = t := of_decide_eq_true htxn
  subst htxn
  have hfind : findEntry m.entries n.2.txn m.nextEntry none m.owners =
      some (some ((last l).or none, n.1)) :=
    findEntry_eq h.owners (fun n' hn' => by simpa using hl n' hn') h.owners_length_le
  rw [Option.or_none] at hfind
  obtain ⟨m₁, hdrop, htable, hlock⟩ := dropOwner_spec h.toTable
  have hordered : Ordered ts m₁.lockType (l ++ r) ws := by
    rw [hlock]
    exact h.toOrdered.drop
  have hfuel : ws.length < m₁.nextEntry + 1 := Nat.lt_succ_of_le htable.waiters_length_le
  obtain ⟨m', pre, ws', hpromote, hws, hsound⟩ := promote_spec htable hordered hready hfuel
  refine ⟨m', l, n, r, pre, ws', ?_, rfl, rfl, hws, hsound⟩
  have hnone : ¬ (m₁.ownerCnt = 0 ∧ m₁.lockType ≠ .none) := by
    rintro ⟨hzero, hlocked⟩
    rw [htable.ownerCnt, List.length_eq_zero_iff] at hzero
    exact hlocked (hordered.free.mpr hzero)
  have hempty := hsound.toTable.owners_isNone
  rw [RowLock.lockRelease]
  simp only [hfind, hdrop, hnone, hpromote, hempty, Option.bind_eq_bind, Option.bind_some, if_true,
    if_false]

end Release

end RowLock

/-! ### All rows and transactions -/

/-- The lock tables of all rows, and of every transaction its `lock_ready` and whether its last
    `lock_get` returned WAIT, so that it is in the loop of `row_t::get_row`. -/
structure Sys (T R : Type) where
  rows : R → RowLock T
  lockReady : T → Bool
  looping : T → Bool

def Sys.init : Sys T R := ⟨fun _ => RowLock.init, fun _ => false, fun _ => false⟩

inductive Call (T R : Type)
  | getRow (t : T) (r : R) (type : AccessT)
  | lockRelease (t : T) (r : R)
deriving DecidableEq

variable [DecidableEq T] [DecidableEq R]

/-- A call of `lock_get` by `get_row`, which the loop `while (!lock_ready)` of an earlier one
    does not hold up, or of `lock_release`. -/
def step (ts : T → Nat) (threadCnt : Nat) (s : Sys T R) : Call T R → Option (Sys T R)
  | .getRow t r type =>
      if s.looping t && !s.lockReady t then none
      else do
        let (m, rc) ← (s.rows r).lockGet ts threadCnt (lockFor type) t
        pure {
          rows := Function.update s.rows r m
          lockReady := if rc = .wait then Function.update s.lockReady t false else s.lockReady
          looping := Function.update s.looping t (decide (rc = .wait)) }
  | .lockRelease t r => do
      let (m, lockReady) ← (s.rows r).lockRelease t s.lockReady
      pure { s with rows := Function.update s.rows r m, lockReady := lockReady }

/-- `t` owns the row. -/
def RowLock.Owner (m : RowLock T) (t : T) : Prop := ∃ n ∈ m.ownerList, n.2.txn = t

instance (m : RowLock T) (t : T) : Decidable (m.Owner t) :=
  inferInstanceAs (Decidable (∃ n ∈ m.ownerList, n.2.txn = t))

/-- Nobody asks for a row that it owns, and only owners release one. -/
def Allowed (s : Sys T R) : Call T R → Prop
  | .getRow t r _ => ¬ (s.rows r).Owner t
  | .lockRelease t r => (s.rows r).Owner t

instance (s : Sys T R) : ∀ c, Decidable (Allowed s c)
  | .getRow t r _ => inferInstanceAs (Decidable (¬ (s.rows r).Owner t))
  | .lockRelease t r => inferInstanceAs (Decidable ((s.rows r).Owner t))

/-- `t` waits at some row for its owner `u`, or with `u` ahead of it. -/
def WaitsFor (s : Sys T R) (t u : T) : Prop :=
  ∃ r, ∃ n ∈ (s.rows r).waiterList, n.2.txn = t ∧
    ((s.rows r).Owner u ∨ ∃ n', [n', n].Sublist (s.rows r).waiterList ∧ n'.2.txn = u)

/-- Every table is sound, and whoever waits does so at one row, in the loop of `get_row`. -/
structure Inv (ts : T → Nat) (s : Sys T R) : Prop where
  sound : ∀ r, (s.rows r).Sound ts (s.rows r).ownerList (s.rows r).waiterList
  looping : ∀ r, ∀ n ∈ (s.rows r).waiterList,
    s.looping n.2.txn = true ∧ s.lockReady n.2.txn = false
  unique : ∀ r r', ∀ n ∈ (s.rows r).waiterList, ∀ n' ∈ (s.rows r').waiterList,
    n.2.txn = n'.2.txn → r = r'

section Steps

variable {ts : T → Nat} {s s' : Sys T R}

omit [DecidableEq T] [DecidableEq R] in
theorem inv_init (ts : T → Nat) : Inv ts (Sys.init : Sys T R) :=
  ⟨fun _ => RowLock.sound_init ts, fun _ _ hn => (nomatch hn), fun _ _ _ hn => (nomatch hn)⟩

omit [DecidableEq T] in
/-- A call changes one table. -/
theorem Inv.update (h : Inv ts s) {r : R} {m : RowLock T} {os ws : List (Nat × Request T)}
    {lockReady looping : T → Bool} (hsound : m.Sound ts os ws)
    (hrow : ∀ n ∈ ws, looping n.2.txn = true ∧ lockReady n.2.txn = false)
    (hothers : ∀ r', r' ≠ r → ∀ n ∈ (s.rows r').waiterList,
      (looping n.2.txn = true ∧ lockReady n.2.txn = false) ∧ ∀ n' ∈ ws, n.2.txn ≠ n'.2.txn) :
    Inv ts ⟨Function.update s.rows r m, lockReady, looping⟩ := by
  have hself : ∀ n, n ∈ (Function.update s.rows r m r).waiterList → n ∈ ws := by
    intro n hn
    rwa [Function.update_self, hsound.waiterList_eq] at hn
  have hother : ∀ r', r' ≠ r → ∀ n, n ∈ (Function.update s.rows r m r').waiterList →
      n ∈ (s.rows r').waiterList := by
    intro r' hr n hn
    rwa [Function.update_of_ne hr] at hn
  refine ⟨fun r' => ?_, fun r' n hn => ?_, fun r₁ r₂ n₁ hn₁ n₂ hn₂ htxn => ?_⟩
  · by_cases hr : r' = r
    · subst hr
      simp only [Function.update_self, hsound.ownerList_eq, hsound.waiterList_eq]
      exact hsound
    · simp only [Function.update_of_ne hr]
      exact h.sound r'
  · by_cases hr : r' = r
    · subst hr
      exact hrow n (hself n hn)
    · exact (hothers r' hr n (hother r' hr n hn)).1
  · by_contra hne
    by_cases hr₁ : r₁ = r
    · subst hr₁
      have hn₂ := hother r₂ (Ne.symm hne) n₂ hn₂
      exact (hothers r₂ (Ne.symm hne) n₂ hn₂).2 n₁ (hself n₁ hn₁) htxn.symm
    · replace hn₁ := hother r₁ hr₁ n₁ hn₁
      by_cases hr₂ : r₂ = r
      · subst hr₂
        exact (hothers r₁ hr₁ n₁ hn₁).2 n₂ (hself n₂ hn₂) htxn
      · exact hne (h.unique r₁ r₂ n₁ hn₁ n₂ (hother r₂ hr₂ n₂ hn₂) htxn)

/-- The call returns: its caller is not in the loop of `get_row` and the assertions at the start
    of `lock_get` hold. -/
def Enabled (threadCnt : Nat) (s : Sys T R) : Call T R → Prop
  | .getRow t r _ => (s.looping t = true → s.lockReady t = true) ∧
      (s.rows r).ownerCnt ≤ threadCnt ∧ (s.rows r).waiterCnt < threadCnt
  | .lockRelease _ _ => True

theorem enabled_of_step {threadCnt : Nat} {c : Call T R} (h : step ts threadCnt s c = some s') :
    Enabled threadCnt s c := by
  cases c with
  | lockRelease t r => trivial
  | getRow t r type =>
      rw [step] at h
      split at h
      · cases h
      · rename_i hguard
        obtain ⟨⟨m, rc⟩, hget, -⟩ := Option.bind_eq_some_iff.mp h
        rw [RowLock.lockGet] at hget
        split at hget
        · rename_i hcnt
          refine ⟨fun hloop => ?_, hcnt⟩
          simpa [hloop] using hguard
        · cases hget

omit [DecidableEq R] in
theorem lockFor_ne_none (type : AccessT) : lockFor type ≠ .none := by
  cases type <;> decide

/-- Calls that are allowed return and keep the invariant. -/
theorem Inv.step {threadCnt : Nat} {c : Call T R} (hinj : Function.Injective ts) (h : Inv ts s)
    (hallowed : Allowed s c) (henabled : Enabled threadCnt s c) :
    ∃ s', step ts threadCnt s c = some s' ∧ Inv ts s' := by
  cases c with
  | getRow t r type =>
      obtain ⟨hloop, hcnt⟩ := henabled
      -- a transaction that can call waits at no row
      have hfree : ∀ r', ∀ n ∈ (s.rows r').waiterList, n.2.txn ≠ t := by
        rintro r' n hn rfl
        obtain ⟨hl, hr⟩ := h.looping r' n hn
        rw [hloop hl] at hr
        cases hr
      have hkeep : ∀ rc : RC, ∀ r', ∀ n ∈ (s.rows r').waiterList,
          Function.update s.looping t (decide (rc = .wait)) n.2.txn = true ∧
          (if rc = .wait then Function.update s.lockReady t false else s.lockReady) n.2.txn =
            false := by
        intro rc r' n hn
        obtain ⟨hl, hr⟩ := h.looping r' n hn
        refine ⟨by rw [Function.update_of_ne (hfree r' n hn), hl], ?_⟩
        split
        · rw [Function.update_of_ne (hfree r' n hn), hr]
        · exact hr
      obtain ⟨m, rc, os, ws, hget, hsound, hgot⟩ := (h.sound r).lockGet hinj (lockFor_ne_none type)
        (fun n hn htxn => hallowed ⟨n, hn, htxn⟩) (hfree r) hcnt
      have hguard : ¬ (s.looping t && !s.lockReady t) = true := by
        simpa using hloop
      refine ⟨_, by rw [WaitDie.step, if_neg hguard, hget]; rfl, h.update hsound ?_ ?_⟩
      · intro n hn
        rcases hgot.mem hn with hn | ⟨rfl, rfl⟩
        · exact hkeep rc r n hn
        · simp
      · intro r' hr n hn
        refine ⟨hkeep rc r' n hn, fun n' hn' htxn => ?_⟩
        rcases hgot.mem hn' with hn' | ⟨-, heq⟩
        · exact hr (h.unique r' r n hn n' hn' htxn)
        · exact hfree r' n hn (htxn.trans heq)
  | lockRelease t r =>
      obtain ⟨m, l, n, r', pre, ws, hrelease, hos, htxn, hws, hsound⟩ :=
        (h.sound r).lockRelease hallowed fun n hn => (h.looping r n hn).2
      have hmem : ∀ n ∈ pre ++ ws, n ∈ (s.rows r).waiterList := fun n hn => hws ▸ hn
      have hkeep : ∀ u, s.lockReady u = false → (∀ n ∈ pre, n.2.txn ≠ u) →
          (s.lockReady u || pre.any fun n => decide (n.2.txn = u)) = false := by
        intro u hu hpre
        simpa [hu] using hpre
      refine ⟨_, by rw [WaitDie.step, hrelease]; rfl, h.update hsound ?_ ?_⟩
      · intro n hn
        obtain ⟨hl, hr⟩ := h.looping r n (hmem n (List.mem_append_right _ hn))
        refine ⟨hl, hkeep n.2.txn hr fun n' hn' htxn => ?_⟩
        have hdesc := (h.sound r).descending
        rw [hws] at hdesc
        have hlt := (List.pairwise_append.mp hdesc).2.2 n' hn' n hn
        exact Nat.ne_of_lt hlt (congrArg ts htxn.symm)
      · intro r' hr n hn
        obtain ⟨hl, hready⟩ := h.looping r' n hn
        refine ⟨⟨hl, hkeep n.2.txn hready fun n' hn' htxn => ?_⟩, fun n' hn' htxn => ?_⟩
        · have hn' := hmem n' (List.mem_append_left _ hn')
          exact hr (h.unique r' r n hn n' hn' htxn.symm)
        · have hn' := hmem n' (List.mem_append_right _ hn')
          exact hr (h.unique r' r n hn n' hn' htxn)

omit [DecidableEq T] [DecidableEq R] in
/-- Whoever is waited for is younger. -/
theorem Inv.waitsFor_lt (h : Inv ts s) {t u : T} (hwaits : WaitsFor s t u) : ts t < ts u := by
  obtain ⟨r, n, hn, rfl, howner | ⟨n', hahead, rfl⟩⟩ := hwaits
  · obtain ⟨n', hn', rfl⟩ := howner
    exact (h.sound r).older n hn n' hn'
  · exact List.pairwise_iff_forall_sublist.mp (h.sound r).descending hahead

end Steps

/-- In every run of calls the lock tables stay sound, no waits close a cycle and every call that
    is allowed returns. -/
theorem waits_acyclic {ts : T → Nat} (hinj : Function.Injective ts) (threadCnt : Nat)
    {calls : List (Call T R)} {s : Sys T R}
    (hallowed : Transition.AllSteps (step ts threadCnt) Allowed Sys.init calls)
    (hrun : Transition.runs (step ts threadCnt) Sys.init calls = some s) :
    (∀ r, (s.rows r).Sound ts (s.rows r).ownerList (s.rows r).waiterList) ∧
      (∀ t, ¬ Relation.TransGen (WaitsFor s) t t) ∧
      ∀ c, Allowed s c → Enabled threadCnt s c → (step ts threadCnt s c).isSome := by
  have hinv : Inv ts s := by
    refine Transition.runs_invariant (fun s c s' h hc hstep => ?_) (inv_init ts) hallowed hrun
    obtain ⟨s'', hstep', h'⟩ := h.step hinj hc (enabled_of_step hstep)
    rw [hstep] at hstep'
    cases hstep'
    exact h'
  refine ⟨hinv.sound, fun t hcycle => ?_, fun c hc henabled => ?_⟩
  · have hlt : ∀ u, Relation.TransGen (WaitsFor s) t u → ts t < ts u := by
      intro u hwaits
      induction hwaits with
      | single hone => exact hinv.waitsFor_lt hone
      | tail _ hone ih => exact ih.trans (hinv.waitsFor_lt hone)
    exact Nat.lt_irrefl _ (hlt t hcycle)
  · obtain ⟨s', hstep, -⟩ := hinv.step hinj hc henabled
    rw [hstep]
    rfl

/-- Two readers of a row hold up a writer; a younger reader gets in meanwhile, an older one queues
    up behind the writer, and the last release lets the writer in. -/
def readersAndWriter : List (Call Nat Nat) :=
  [.getRow 5 0 .rd, .getRow 4 0 .rd, .getRow 3 0 .wr, .getRow 6 0 .rd, .getRow 2 0 .rd,
    .lockRelease 4 0, .lockRelease 5 0, .getRow 1 0 .wr, .lockRelease 6 0]

theorem waits_acyclic_readers_and_writer :
    (Transition.runs (step id 8) Sys.init readersAndWriter).map
        (fun s => ((s.rows 0).ownerList.map fun n => n.2.txn,
          (s.rows 0).waiterList.map fun n => n.2.txn)) = some ([3], [2, 1]) ∧
      ∀ s, Transition.runs (step id 8) Sys.init readersAndWriter = some s →
        ∀ t, ¬ Relation.TransGen (WaitsFor s) t t := by
  refine ⟨by decide, fun s hrun => ?_⟩
  exact (waits_acyclic Function.injective_id 8 (by decide) hrun).2.1

end VeriTxn.WaitDie
