import VeriTxn.InPlace
import VeriTxn.RowLock
import VeriTxn.Transition

/-!
# NO_WAIT is strict two-phase locking

Transactions under NO_WAIT with their steps in any order: a row is obtained, read or changed, or
given back, one `return_row` of `cleanup` after the other.  A row that is changed is locked until
its writer has ended, so that the contents of all rows are those of the committed transactions one
after another, but for rows whose writer is active: these are restored from the copy in its access.
-/

namespace VeriTxn.NoWait

open InPlace

variable {T R D : Type}

/-- A transaction that is not idle. -/
inductive Txn (R D : Type)
  | running (prog : Program R D AccessT) (history : List (Event R D AccessT))
      (accesses : List (Access R D))
  /-- in the loop of `cleanup`, with the accesses that are still to be returned -/
  | returning (rest : List (Access R D))

/-- The accesses whose locks a transaction has. -/
def Txn.held : Option (Txn R D) → List (Access R D)
  | none => []
  | some (.running _ _ accesses) => accesses
  | some (.returning rest) => rest

structure Sys (T R D : Type) where
  rows : R → Row T D
  active : T → Option (Txn R D)
  /-- the programs that committed with what they did, in the order of their `finish` -/
  committed : List (Program R D AccessT × List (Event R D AccessT))

def Sys.init (store : R → D) : Sys T R D := ⟨fun r => ⟨store r, [], .none⟩, fun _ => none, []⟩

def Sys.store (s : Sys T R D) : R → D := fun r => (s.rows r).data

/-- The accesses in the order and with the type in which `cleanup(rc)` returns them. -/
def toReturn (rc : RC) (accesses : List (Access R D)) : List (Access R D) :=
  (accesses.map fun a => if a.type = .wr ∧ rc = .abort then { a with type := .xp } else a).reverse

inductive Action (T R D : Type)
  | begin (t : T) (p : Program R D AccessT)
  | exec (t : T)
  | returnRow (t : T)

variable [DecidableEq T] [DecidableEq R]

def Sys.setActive (s : Sys T R D) (t : T) (x : Option (Txn R D)) : Sys T R D :=
  { s with active := Function.update s.active t x }

/-- The next instruction of a transaction.  Rows are obtained for reading, writing or scanning, and
    only those that were obtained are read or, if for writing, changed. -/
def exec (s : Sys T R D) (t : T) (p : Program R D AccessT) (history : List (Event R D AccessT))
    (accesses : List (Access R D)) : Option (Sys T R D) :=
  match p history with
  | .get r type =>
      if type = .xp then none
      else match getRow s.rows t r type with
        | some (rows, a) =>
            some ({ s with rows := rows }.setActive t
              (some (.running p (history ++ [Event.got r type]) (accesses ++ [a]))))
        | none => some (s.setActive t (some (.returning (toReturn .abort accesses))))
  | .read r =>
      if ∃ a ∈ accesses, a.origRow = r then
        some (s.setActive t (some (.running p (history ++ [Event.saw r (s.rows r).data]) accesses)))
      else none
  | .write r d =>
      if ∃ a ∈ accesses, a.origRow = r ∧ a.type = .wr then
        some ({ s with rows := Function.update s.rows r { s.rows r with data := d } }.setActive t
          (some (.running p (history ++ [Event.wrote r d]) accesses)))
      else none
  | .finish true =>
      some ({ s with committed := s.committed ++ [(p, history)] }.setActive t
        (some (.returning (toReturn .rcok accesses))))
  | .finish false => some (s.setActive t (some (.returning (toReturn .abort accesses))))

def step (s : Sys T R D) : Action T R D → Option (Sys T R D)
  | .begin t p =>
      match s.active t with
      | none => some (s.setActive t (some (.running p [] [])))
      | some _ => none
  | .exec t =>
      match s.active t with
      | some (.running p history accesses) => exec s t p history accesses
      | _ => none
  | .returnRow t =>
      match s.active t with
      | some (.returning (a :: rest)) =>
          (returnRow s.rows t a).map fun rows =>
            { s with rows := rows }.setActive t (some (.returning rest))
      | some (.returning []) => some (s.setActive t none)
      | _ => none

/-! ### Locks -/

/-- The lock tables hold one entry for every access that is held, and no two accesses in modes that
    conflict. -/
structure Locked (rows : R → Row T D) (held : T → List (Access R D)) : Prop where
  count : ∀ r t, ((rows r).owners.countP fun e => decide (e.txn = t)) =
    (held t).countP fun a => decide (a.origRow = r)
  free : ∀ r, (rows r).lockType = .none ↔ (rows r).owners = []
  exclusive : ∀ r, (rows r).lockType = .ex → (rows r).owners.length ≤ 1
  heldType : ∀ t, ∀ a ∈ held t, (rows a.origRow).lockType = lockFor a.type

section Locks

variable {rows rows' : R → Row T D} {held : T → List (Access R D)}

theorem Locked.owner (h : Locked rows held) {t : T} {a : Access R D} (ha : a ∈ held t) :
    ∃ e ∈ (rows a.origRow).owners, e.txn = t := by
  have hpos : 0 < (held t).countP fun b => decide (b.origRow = a.origRow) :=
    List.countP_pos_iff.mpr ⟨a, ha, decide_eq_true rfl⟩
  rw [← h.count] at hpos
  obtain ⟨e, he, htxn⟩ := List.countP_pos_iff.mp hpos
  exact ⟨e, he, of_decide_eq_true htxn⟩

/-- Accesses of one row are in the same mode. -/
theorem Locked.same (h : Locked rows held) {t u : T} {a b : Access R D} (ha : a ∈ held t)
    (hb : b ∈ held u) (hrow : a.origRow = b.origRow) : lockFor a.type = lockFor b.type := by
  rw [← h.heldType t a ha, ← h.heldType u b hb, hrow]

/-- A row that is locked exclusively is held by one transaction. -/
theorem Locked.alone (h : Locked rows held) {t u : T} {a b : Access R D} (ha : a ∈ held t)
    (hb : b ∈ held u) (hrow : a.origRow = b.origRow) (hex : lockFor a.type = .ex) : t = u := by
  obtain ⟨e, he, rfl⟩ := h.owner ha
  obtain ⟨e', he', rfl⟩ := h.owner hb
  have hlen := h.exclusive a.origRow ((h.heldType _ a ha).trans hex)
  rw [← hrow] at he'
  match howners : (rows a.origRow).owners with
  | [] =>
      rw [howners] at he
      cases he
  | [e''] =>
      rw [howners, List.mem_singleton] at he he'
      rw [he, he']
  | _ :: _ :: _ =>
      rw [howners] at hlen
      simp at hlen

omit [DecidableEq T] [DecidableEq R] in
theorem lockFor_ne_none (type : AccessT) : lockFor type ≠ .none := by
  cases type <;> decide

omit [DecidableEq T] in
/-- What `get_row` does to the table of the row. -/
theorem getRow_eq {t : T} {r : R} {type : AccessT} {a : Access R D}
    (h : NoWait.getRow rows t r type = some (rows', a)) :
    rows' = Function.update rows r { rows r with
        owners := ⟨lockFor type, t⟩ :: (rows r).owners, lockType := lockFor type } ∧
      a = ⟨type, r, (rows r).data⟩ ∧
      ((rows r).lockType = .none ∨ (rows r).lockType = .sh ∧ lockFor type = .sh) := by
  obtain ⟨row, hlock, heq⟩ := Option.map_eq_some_iff.mp h
  obtain ⟨rfl, rfl⟩ := Prod.mk.inj heq
  rw [Row.lockGet] at hlock
  split at hlock
  · cases hlock
  · rename_i hfree
    cases hlock
    refine ⟨rfl, rfl, ?_⟩
    revert hfree
    have hne := lockFor_ne_none type
    cases (rows r).lockType <;> cases hty : lockFor type <;> simp_all [conflictLock]

/-- A transaction takes a lock. -/
theorem Locked.getRow (h : Locked rows held) {t : T} {r : R} {type : AccessT} {a : Access R D}
    (hget : NoWait.getRow rows t r type = some (rows', a)) :
    Locked rows' (Function.update held t (held t ++ [a])) := by
  obtain ⟨rfl, rfl, hfree⟩ := getRow_eq hget
  refine ⟨fun r' u => ?_, fun r' => ?_, fun r' hex => ?_, fun u b hb => ?_⟩
  · have hold := h.count r' u
    by_cases hu : u = t
    · subst hu
      rw [Function.update_self, List.countP_append, ← hold]
      by_cases hr : r' = r
      · subst hr
        simp
      · simp [Function.update_of_ne hr, Ne.symm hr]
    · rw [Function.update_of_ne hu, ← hold]
      by_cases hr : r' = r
      · subst hr
        simp [Ne.symm hu]
      · rw [Function.update_of_ne hr]
  · by_cases hr : r' = r
    · subst hr
      simp [lockFor_ne_none]
    · rw [Function.update_of_ne hr]
      exact h.free r'
  · by_cases hr : r' = r
    · subst hr
      rw [Function.update_self] at hex ⊢
      have hnone : (rows r').lockType = .none := by
        rcases hfree with hnone | ⟨-, hsh⟩
        · exact hnone
        · rw [hsh] at hex
          cases hex
      rw [(h.free r').mp hnone]
      exact Nat.le_refl 1
    · rw [Function.update_of_ne hr] at hex ⊢
      exact h.exclusive r' hex
  · have hold : b ∈ held u → (Function.update rows r { rows r with
        owners := ⟨lockFor type, t⟩ :: (rows r).owners
        lockType := lockFor type } b.origRow).lockType = lockFor b.type := by
      intro hb
      have hb := h.heldType u b hb
      by_cases hr : b.origRow = r
      · rw [hr] at hb ⊢
        rw [Function.update_self]
        rcases hfree with hnone | ⟨hsh, hsh'⟩
        · exact absurd (hb.symm.trans hnone) (lockFor_ne_none _)
        · exact hsh'.trans (hsh.symm.trans hb)
      · rw [Function.update_of_ne hr]
        exact hb
    by_cases hu : u = t
    · subst hu
      rw [Function.update_self, List.mem_append, List.mem_singleton] at hb
      rcases hb with hb | rfl
      · exact hold hb
      · rw [Function.update_self]
    · rw [Function.update_of_ne hu] at hb
      exact hold hb

/-- The walk to the entry of an owner finds it. -/
theorem dropOwner_eq {t : T} {owners owners' : List (LockEntry T)}
    (h : dropOwner t owners = some owners') :
    owners'.Sublist owners ∧ owners.length = owners'.length + 1 ∧
      ∀ u, (owners.countP fun e => decide (e.txn = u)) =
        (owners'.countP fun e => decide (e.txn = u)) + if t = u then 1 else 0 := by
  induction owners generalizing owners' with
  | nil => cases h
  | cons e owners ih =>
      rw [dropOwner] at h
      split at h
      · rename_i htxn
        cases h
        refine ⟨List.sublist_cons_self .., rfl, fun u => ?_⟩
        rw [List.countP_cons, htxn]
        simp
      · obtain ⟨rest, hrest, rfl⟩ := Option.map_eq_some_iff.mp h
        obtain ⟨hsub, hlen, hcount⟩ := ih hrest
        refine ⟨hsub.cons_cons e, by simp [hlen], fun u => ?_⟩
        rw [List.countP_cons, List.countP_cons, hcount u]
        omega

theorem dropOwner_isSome {t : T} {owners : List (LockEntry T)} (h : ∃ e ∈ owners, e.txn = t) :
    (dropOwner t owners).isSome := by
  induction owners with
  | nil =>
      obtain ⟨e, he, -⟩ := h
      cases he
  | cons e owners ih =>
      rw [dropOwner]
      split
      · rfl
      · rename_i hne
        obtain ⟨e', he', htxn⟩ := h
        rcases List.mem_cons.mp he' with rfl | he'
        · exact absurd htxn hne
        · rw [Option.isSome_map]
          exact ih ⟨e', he', htxn⟩

/-- What `return_row` does to the row. -/
theorem returnRow_eq {t : T} {a : Access R D} (h : NoWait.returnRow rows t a = some rows') :
    ∃ owners data, dropOwner t (rows a.origRow).owners = some owners ∧
      rows' = Function.update rows a.origRow ⟨data, owners,
        if owners = [] then .none else (rows a.origRow).lockType⟩ ∧
      data = if a.type = .xp then a.origData else (rows a.origRow).data := by
  obtain ⟨row, hrelease, rfl⟩ := Option.map_eq_some_iff.mp h
  obtain ⟨owners, hdrop, rfl⟩ := Option.map_eq_some_iff.mp hrelease
  by_cases hxp : a.type = .xp
  · simp only [hxp, if_true] at hdrop ⊢
    exact ⟨owners, _, hdrop, rfl, rfl⟩
  · simp only [hxp, if_false] at hdrop ⊢
    exact ⟨owners, _, hdrop, rfl, rfl⟩

/-- A transaction gives its next lock back. -/
theorem Locked.returnRow (h : Locked rows held) {t : T} {a : Access R D} {rest : List (Access R D)}
    (hheld : held t = a :: rest) (hreturn : NoWait.returnRow rows t a = some rows') :
    Locked rows' (Function.update held t rest) := by
  obtain ⟨owners, data, hdrop, rfl, -⟩ := returnRow_eq hreturn
  obtain ⟨hsub, hlen, hcount⟩ := dropOwner_eq hdrop
  have hcount' : ∀ r u, ((Function.update rows a.origRow ⟨data, owners,
      if owners = [] then .none else (rows a.origRow).lockType⟩ r).owners.countP
        fun e => decide (e.txn = u)) =
      (Function.update held t rest u).countP fun b => decide (b.origRow = r) := by
    intro r u
    have hold := h.count r u
    by_cases hu : u = t
    · subst hu
      rw [hheld, List.countP_cons] at hold
      rw [Function.update_self]
      by_cases hr : r = a.origRow
      · subst hr
        rw [Function.update_self]
        rw [hcount u] at hold
        simpa using hold
      · rw [Function.update_of_ne hr]
        simpa [Ne.symm hr] using hold
    · rw [Function.update_of_ne hu, ← hold]
      by_cases hr : r = a.origRow
      · subst hr
        rw [Function.update_self, hcount u, if_neg (Ne.symm hu)]
        rfl
      · rw [Function.update_of_ne hr]
  refine ⟨hcount', fun r => ?_, fun r hex => ?_, fun u b hb => ?_⟩
  · by_cases hr : r = a.origRow
    · subst hr
      rw [Function.update_self]
      have hne : (rows a.origRow).lockType ≠ .none := by
        intro hnone
        rw [(h.free _).mp hnone] at hdrop
        cases hdrop
      by_cases hnil : owners = []
      · simp [hnil]
      · simp [hnil, hne]
    · rw [Function.update_of_ne hr]
      exact h.free r
  · by_cases hr : r = a.origRow
    · subst hr
      rw [Function.update_self] at hex ⊢
      split at hex
      · cases hex
      · have := h.exclusive _ hex
        exact Nat.le_trans hsub.length_le this
    · rw [Function.update_of_ne hr] at hex ⊢
      exact h.exclusive r hex
  · have hold : b ∈ held u := by
      by_cases hu : u = t
      · subst hu
        rw [Function.update_self] at hb
        rw [hheld]
        exact List.mem_cons_of_mem _ hb
      · rwa [Function.update_of_ne hu] at hb
    by_cases hr : b.origRow = a.origRow
    · -- the row is still held, so that its table is not empty
      have hpos : 0 < (Function.update held t rest u).countP
          fun b => decide (b.origRow = a.origRow) :=
        List.countP_pos_iff.mpr ⟨b, hb, decide_eq_true hr⟩
      rw [← hcount' a.origRow u, Function.update_self] at hpos
      have hne : owners ≠ [] := by
        rintro rfl
        cases hpos
      rw [hr, Function.update_self, ← h.heldType u b hold, hr]
      exact if_neg hne
    · rw [Function.update_of_ne hr]
      exact h.heldType u b hold

omit [DecidableEq R] in
theorem mem_toReturn {rc : RC} {accesses : List (Access R D)} {b : Access R D}
    (hb : b ∈ toReturn rc accesses) :
    ∃ a ∈ accesses, b.origRow = a.origRow ∧ b.origData = a.origData ∧
      lockFor b.type = lockFor a.type ∧
      b.type = if a.type = .wr ∧ rc = .abort then .xp else a.type := by
  obtain ⟨a, ha, rfl⟩ := List.mem_map.mp (List.mem_reverse.mp hb)
  refine ⟨a, ha, ?_⟩
  split
  · rename_i hwr
    exact ⟨rfl, rfl, by rw [hwr.1]; rfl, rfl⟩
  · exact ⟨rfl, rfl, rfl, rfl⟩

omit [DecidableEq R] in
theorem toReturn_of_mem (rc : RC) {accesses : List (Access R D)} {a : Access R D}
    (ha : a ∈ accesses) :
    ∃ b ∈ toReturn rc accesses, b.origRow = a.origRow ∧ lockFor b.type = lockFor a.type := by
  refine ⟨_, List.mem_reverse.mpr (List.mem_map_of_mem ha), ?_⟩
  split
  · rename_i hwr
    exact ⟨rfl, by rw [hwr.1]; rfl⟩
  · exact ⟨rfl, rfl⟩

omit [DecidableEq T] in
theorem countP_toReturn (rc : RC) (accesses : List (Access R D)) (r : R) :
    ((toReturn rc accesses).countP fun a => decide (a.origRow = r)) =
      accesses.countP fun a => decide (a.origRow = r) := by
  rw [toReturn, List.countP_reverse, List.countP_map]
  refine List.countP_congr fun a _ => ?_
  simp only [Function.comp]
  split <;> rfl

/-- `cleanup` keeps the locks until it returns the rows. -/
theorem Locked.toReturn (h : Locked rows held) {t : T} (rc : RC) {accesses : List (Access R D)}
    (hheld : held t = accesses) :
    Locked rows (Function.update held t (NoWait.toReturn rc accesses)) := by
  refine ⟨fun r u => ?_, h.free, h.exclusive, fun u b hb => ?_⟩
  · rw [h.count r u]
    by_cases hu : u = t
    · subst hu
      rw [Function.update_self, countP_toReturn, hheld]
    · rw [Function.update_of_ne hu]
  · by_cases hu : u = t
    · subst hu
      rw [Function.update_self] at hb
      obtain ⟨a, ha, hrow, -, hlock, -⟩ := mem_toReturn hb
      rw [hrow, hlock]
      exact h.heldType u a (hheld ▸ ha)
    · rw [Function.update_of_ne hu] at hb
      exact h.heldType u b hb

/-- Locks do not depend on what is in the rows. -/
theorem Locked.congr (h : Locked rows held)
    (hrows : ∀ r, (rows' r).owners = (rows r).owners ∧ (rows' r).lockType = (rows r).lockType) :
    Locked rows' held := by
  refine ⟨fun r t => ?_, fun r => ?_, fun r hex => ?_, fun t a ha => ?_⟩
  · rw [(hrows r).1]
    exact h.count r t
  · rw [(hrows r).1, (hrows r).2]
    exact h.free r
  · rw [(hrows r).1]
    exact h.exclusive r ((hrows r).2 ▸ hex)
  · rw [(hrows a.origRow).2]
    exact h.heldType t a ha

end Locks

/-! ### Contents -/

/-- What a running transaction did, as on the committed contents `store`, and what it holds. -/
structure Running (store data : R → D) (p : Program R D AccessT)
    (history : List (Event R D AccessT)) (accesses : List (Access R D)) : Prop where
  follows : Follows p history.reverse
  replays : ∃ view, Replays store history view ∧ ∀ a ∈ accesses, data a.origRow = view a.origRow
  copies : ∀ a ∈ accesses, a.type = .wr → a.origData = store a.origRow
  types : ∀ a ∈ accesses, a.type ≠ .xp
  touches : ∀ r, (∃ e ∈ history, e.Touches r) → ∃ a ∈ accesses, a.origRow = r
  writes : ∀ r, (∃ e ∈ history, e.Writes r) → ∃ a ∈ accesses, a.origRow = r ∧ a.type = .wr

/-- The rows a transaction that has ended is still to return: those to be restored from the copy,
    and those with their final contents. -/
def Returning (store data : R → D) (rest : List (Access R D)) : Prop :=
  ∀ a ∈ rest, (a.type = .xp → a.origData = store a.origRow) ∧
    (a.type ≠ .xp → data a.origRow = store a.origRow)

def Txn.Good (store data : R → D) : Option (Txn R D) → Prop
  | none => True
  | some (.running p history accesses) => Running store data p history accesses
  | some (.returning rest) => Returning store data rest

/-- The committed transactions one after another leave `store`, which is in every row that is not
    locked for writing. -/
structure Inv (init : R → D) (s : Sys T R D) (store : R → D) : Prop where
  locked : Locked s.rows fun t => Txn.held (s.active t)
  serial : SerialHistory s.committed init store
  good : ∀ t, Txn.Good store s.store (s.active t)
  clean : ∀ r, (∀ t, ∀ a ∈ Txn.held (s.active t), a.origRow = r → lockFor a.type = .sh) →
    s.store r = store r

section Contents

variable {init store store' data data' : R → D} {s s' : Sys T R D} {t : T}
  {p : Program R D AccessT} {history : List (Event R D AccessT)} {accesses : List (Access R D)}

omit [DecidableEq T] in
/-- A transaction depends on the rows that it holds. -/
theorem Txn.Good.frame {x : Option (Txn R D)} (h : Txn.Good store data x)
    (hsame : ∀ a ∈ Txn.held x, store' a.origRow = store a.origRow ∧
      data' a.origRow = data a.origRow) : Txn.Good store' data' x := by
  match x with
  | none => trivial
  | some (.returning rest) =>
      intro a ha
      rw [(hsame a ha).1, (hsame a ha).2]
      exact h a ha
  | some (.running p history accesses) =>
      obtain ⟨view, hreplays, hview⟩ := h.replays
      have htouched : ∀ r, (∃ e ∈ history, e.Touches r) → store' r = store r := by
        intro r hr
        obtain ⟨a, ha, rfl⟩ := h.touches r hr
        exact (hsame a ha).1
      obtain ⟨view', hreplays', hview'⟩ := hreplays.frame htouched
      refine ⟨h.follows, ⟨view', hreplays', fun a ha => ?_⟩, fun a ha hwr => ?_, h.types, h.touches,
        h.writes⟩
      · rw [(hsame a ha).2, hview a ha, hview' _ (hsame a ha).1]
      · rw [(hsame a ha).1]
        exact h.copies a ha hwr

omit [DecidableEq R] in
theorem held_update (active : T → Option (Txn R D)) (t : T) (x : Option (Txn R D)) :
    (fun u => Txn.held (Function.update active t x u)) =
      Function.update (fun u => Txn.held (active u)) t (Txn.held x) := by
  funext u
  by_cases hu : u = t
  · subst hu
    rw [Function.update_self, Function.update_self]
  · rw [Function.update_of_ne hu, Function.update_of_ne hu]

/-- No access of row `r` is in the exclusive mode. -/
def Shared (held : T → List (Access R D)) (r : R) : Prop :=
  ∀ t, ∀ a ∈ held t, a.origRow = r → lockFor a.type = .sh

/-- A step of one transaction, which leaves the rows of the others alone. -/
theorem Inv.setActive (h : Inv init s store) {rows : R → Row T D} {x : Option (Txn R D)}
    {committed : List (Program R D AccessT × List (Event R D AccessT))}
    (hlocked : Locked rows (Function.update (fun u => Txn.held (s.active u)) t (Txn.held x)))
    (hserial : SerialHistory committed init store')
    (hgood : Txn.Good store' (fun r => (rows r).data) x)
    (hothers : ∀ u, u ≠ t → ∀ a ∈ Txn.held (s.active u),
      store' a.origRow = store a.origRow ∧ (rows a.origRow).data = s.store a.origRow)
    (hclean : ∀ r, Shared (Function.update (fun u => Txn.held (s.active u)) t (Txn.held x)) r →
      (rows r).data = store' r) :
    Inv init ⟨rows, Function.update s.active t x, committed⟩ store' := by
  rw [← held_update] at hlocked hclean
  refine ⟨hlocked, hserial, fun u => ?_, hclean⟩
  by_cases hu : u = t
  · subst hu
    simp only [Function.update_self]
    exact hgood
  · simp only [Function.update_of_ne hu]
    exact (h.good u).frame (hothers u hu)

omit [DecidableEq R] in
/-- A transaction that keeps its rows in the modes they are in. -/
theorem Shared.of_update {held : T → List (Access R D)} {rest : List (Access R D)} {r : R}
    (h : Shared (Function.update held t rest) r)
    (hkeep : ∀ a ∈ held t, ∃ b ∈ rest, b.origRow = a.origRow ∧ lockFor b.type = lockFor a.type) :
    Shared held r := by
  intro u a ha hrow
  by_cases hu : u = t
  · subst hu
    obtain ⟨b, hb, hrow', hlock⟩ := hkeep a ha
    rw [← hlock]
    exact h u b (by rwa [Function.update_self]) (hrow'.trans hrow)
  · exact h u a (by rwa [Function.update_of_ne hu]) hrow

theorem Inv.begin (h : Inv init s store) (hidle : s.active t = none) (p : Program R D AccessT) :
    Inv init (s.setActive t (some (.running p [] []))) store := by
  have hheld : Function.update (fun u => Txn.held (s.active u)) t [] =
      fun u => Txn.held (s.active u) := by
    rw [Function.update_eq_self_iff]
    simp only [hidle]
    rfl
  refine h.setActive ?_ h.serial ?_ (fun u _ a _ => ⟨rfl, rfl⟩) fun r hr => ?_
  · rw [show Txn.held (some (Txn.running p [] [])) = ([] : List (Access R D)) from rfl, hheld]
    exact h.locked
  · exact ⟨trivial, ⟨store, rfl, by simp⟩, by simp, by simp, by simp, by simp⟩
  · rw [show Txn.held (some (Txn.running p [] [])) = ([] : List (Access R D)) from rfl, hheld] at hr
    exact h.clean r hr

omit [DecidableEq R] in
/-- The rows that the events so far and the next one touch are held. -/
theorem forall_snoc {Q : R → Event R D AccessT → Prop} {H : R → Prop} {e : Event R D AccessT}
    (h : ∀ r, (∃ e' ∈ history, Q r e') → H r) (hlast : ∀ r, Q r e → H r) :
    ∀ r, (∃ e' ∈ history ++ [e], Q r e') → H r := by
  rintro r ⟨e', he', hq⟩
  rcases List.mem_append.mp he' with he' | he'
  · exact h r ⟨e', he', hq⟩
  · rw [List.mem_singleton.mp he'] at hq
    exact hlast r hq

theorem Inv.running (h : Inv init s store)
    (hactive : s.active t = some (.running p history accesses)) :
    Running store s.store p history accesses := by
  have := h.good t
  rwa [hactive] at this

theorem Inv.read (h : Inv init s store) (hactive : s.active t = some (.running p history accesses))
    {r : R} (hnext : p history = .read r) (hr : ∃ a ∈ accesses, a.origRow = r) :
    Inv init (s.setActive t
      (some (.running p (history ++ [.saw r (s.rows r).data]) accesses))) store := by
  have hrunning := h.running hactive
  obtain ⟨view, hreplays, hview⟩ := hrunning.replays
  have hheld : Txn.held (s.active t) = accesses := by rw [hactive]; rfl
  refine h.setActive ?_ h.serial ?_ (fun u _ a _ => ⟨rfl, rfl⟩) fun r hr => ?_
  · rw [show Function.update _ t _ = _ from Function.update_eq_self_iff.mpr hheld.symm]
    exact h.locked
  · refine ⟨hrunning.follows.snoc hnext, ⟨view, ?_, hview⟩, hrunning.copies, hrunning.types,
      forall_snoc hrunning.touches ?_, forall_snoc hrunning.writes ?_⟩
    · refine replays_append.mpr ⟨view, hreplays, ?_, rfl⟩
      obtain ⟨a, ha, rfl⟩ := hr
      exact hview a ha
    · rintro r' rfl
      exact hr
    · rintro r' hfalse
      cases hfalse
  · refine h.clean r (hr.of_update fun a ha => ⟨a, ?_, rfl, rfl⟩)
    rwa [hheld] at ha

/-- A row that is obtained for writing is nobody else's. -/
theorem Inv.alone (h : Inv init s store) (hactive : s.active t = some (.running p history accesses))
    {a : Access R D} (ha : a ∈ accesses) (hwr : a.type = .wr) {u : T} (hu : u ≠ t)
    {b : Access R D} (hb : b ∈ Txn.held (s.active u)) : b.origRow ≠ a.origRow := by
  intro hrow
  have ha : a ∈ Txn.held (s.active t) := by rwa [hactive]
  refine hu (h.locked.alone ha hb hrow.symm ?_).symm
  rw [hwr]
  rfl

theorem Inv.write (h : Inv init s store) (hactive : s.active t = some (.running p history accesses))
    {r : R} {d : D} {rows : R → Row T D} (hnext : p history = .write r d)
    (hr : ∃ a ∈ accesses, a.origRow = r ∧ a.type = .wr)
    (hrows : rows = Function.update s.rows r { s.rows r with data := d }) :
    Inv init (Sys.setActive { s with rows := rows } t
      (some (.running p (history ++ [.wrote r d]) accesses))) store := by
  have hrunning := h.running hactive
  obtain ⟨view, hreplays, hview⟩ := hrunning.replays
  have hheld : Txn.held (s.active t) = accesses := by rw [hactive]; rfl
  obtain ⟨a, ha, rfl, hwr⟩ := hr
  have hself : rows a.origRow = { s.rows a.origRow with data := d } := by
    rw [hrows, Function.update_self]
  have hother : ∀ r', r' ≠ a.origRow → rows r' = s.rows r' := by
    intro r' hr'
    rw [hrows, Function.update_of_ne hr']
  refine h.setActive ?_ h.serial ?_ (fun u hu b hb => ⟨rfl, ?_⟩) fun r hr => ?_
  · rw [show Function.update _ t _ = _ from Function.update_eq_self_iff.mpr hheld.symm]
    refine h.locked.congr fun r => ?_
    by_cases hr : r = a.origRow
    · rw [hr]
      exact ⟨(congrArg Row.owners hself).trans rfl, (congrArg Row.lockType hself).trans rfl⟩
    · exact ⟨congrArg Row.owners (hother r hr), congrArg Row.lockType (hother r hr)⟩
  · refine ⟨hrunning.follows.snoc hnext, ⟨Function.update view a.origRow d, ?_, fun b hb => ?_⟩,
      hrunning.copies, hrunning.types, forall_snoc hrunning.touches ?_,
      forall_snoc hrunning.writes ?_⟩
    · exact replays_append.mpr ⟨view, hreplays, rfl⟩
    · by_cases hrow : b.origRow = a.origRow
      · rw [hrow, Function.update_self]
        exact congrArg Row.data hself
      · rw [Function.update_of_ne hrow]
        exact (congrArg Row.data (hother _ hrow)).trans (hview b hb)
    · rintro r' rfl
      exact ⟨a, ha, rfl⟩
    · rintro r' rfl
      exact ⟨a, ha, rfl, hwr⟩
  · exact congrArg Row.data (hother _ (h.alone hactive ha hwr hu hb))
  · have hne : r ≠ a.origRow := by
      rintro rfl
      have hsh := hr t a (by rw [Function.update_self]; exact ha) rfl
      rw [hwr] at hsh
      cases hsh
    refine (congrArg Row.data (hother r hne)).trans ?_
    refine h.clean r (hr.of_update fun b hb => ⟨b, ?_, rfl, rfl⟩)
    rwa [hheld] at hb

/-- The contents of a row are the committed ones when its lock is taken. -/
theorem Inv.getRow (h : Inv init s store) (hactive : s.active t = some (.running p history accesses))
    {r : R} {type : AccessT} {rows : R → Row T D} {a : Access R D} (htype : type ≠ .xp)
    (hnext : p history = .get r type) (hget : NoWait.getRow s.rows t r type = some (rows, a)) :
    Inv init (Sys.setActive { s with rows := rows } t
      (some (.running p (history ++ [.got r type]) (accesses ++ [a])))) store := by
  have hrunning := h.running hactive
  obtain ⟨view, hreplays, hview⟩ := hrunning.replays
  have hheld : Txn.held (s.active t) = accesses := by rw [hactive]; rfl
  have hlocked := h.locked.getRow hget
  obtain ⟨hrows, rfl, hfree⟩ := getRow_eq hget
  have hdata : (fun r' => (rows r').data) = s.store := by
    funext r'
    rw [hrows]
    by_cases hr' : r' = r
    · rw [hr', Function.update_self]
      rfl
    · rw [Function.update_of_ne hr']
      rfl
  have hshared : Shared (fun u => Txn.held (s.active u)) r := by
    rintro u b hb rfl
    have hlock := h.locked.heldType u b hb
    rcases hfree with hnone | ⟨hsh, -⟩
    · exact absurd (hlock.symm.trans hnone) (lockFor_ne_none _)
    · exact hlock.symm.trans hsh
  have hclean : s.store r = store r := h.clean r hshared
  have hunwritten : view r = store r := by
    refine hreplays.unwritten fun e he hwrites => ?_
    obtain ⟨b, hb, hrow, hwr⟩ := hrunning.writes r ⟨e, he, hwrites⟩
    have hsh := hshared t b (by rwa [← hheld] at hb) hrow
    rw [hwr] at hsh
    cases hsh
  refine h.setActive ?_ h.serial ?_ (fun u _ b _ => ⟨rfl, congrFun hdata b.origRow⟩) fun r' hr' => ?_
  · rwa [hheld] at hlocked
  · rw [hdata]
    refine ⟨hrunning.follows.snoc hnext, ⟨view, ?_, ?_⟩, ?_, ?_, ?_, ?_⟩
    · exact replays_append.mpr ⟨view, hreplays, rfl⟩
    · intro b hb
      rcases List.mem_append.mp hb with hb | hb
      · exact hview b hb
      · rw [List.mem_singleton.mp hb]
        exact hclean.trans hunwritten.symm
    · intro b hb hwr
      rcases List.mem_append.mp hb with hb | hb
      · exact hrunning.copies b hb hwr
      · rw [List.mem_singleton.mp hb]
        exact hclean
    · intro b hb
      rcases List.mem_append.mp hb with hb | hb
      · exact hrunning.types b hb
      · rw [List.mem_singleton.mp hb]
        exact htype
    · refine forall_snoc (fun r' hr' => ?_) fun r' hfalse => nomatch hfalse
      obtain ⟨b, hb, hrow⟩ := hrunning.touches r' hr'
      exact ⟨b, List.mem_append_left _ hb, hrow⟩
    · refine forall_snoc (fun r' hr' => ?_) fun r' hfalse => nomatch hfalse
      obtain ⟨b, hb, hrow⟩ := hrunning.writes r' hr'
      exact ⟨b, List.mem_append_left _ hb, hrow⟩
  · refine (congrFun hdata r').trans (h.clean r' (hr'.of_update fun b hb => ⟨b, ?_, rfl, rfl⟩))
    rw [hheld] at hb
    exact List.mem_append_left _ hb

/-- An access in the shared mode is one of a row with its committed contents. -/
theorem Inv.shared_data (h : Inv init s store) {a : Access R D} (ha : a ∈ Txn.held (s.active t))
    (hsh : lockFor a.type = .sh) : s.store a.origRow = store a.origRow := by
  refine h.clean a.origRow fun u b hb hrow => ?_
  rw [h.locked.same hb ha hrow]
  exact hsh

/-- `cleanup(Abort)` begins. -/
theorem Inv.abort (h : Inv init s store)
    (hactive : s.active t = some (.running p history accesses)) :
    Inv init (s.setActive t (some (.returning (toReturn .abort accesses)))) store := by
  have hrunning := h.running hactive
  have hheld : Txn.held (s.active t) = accesses := by rw [hactive]; rfl
  refine h.setActive (h.locked.toReturn .abort hheld) h.serial ?_ (fun u _ a _ => ⟨rfl, rfl⟩)
    fun r hr => ?_
  · intro b hb
    obtain ⟨a, ha, hrow, hcopy, hlock, htype⟩ := mem_toReturn hb
    rw [hrow, hcopy]
    by_cases hwr : a.type = .wr
    · rw [if_pos ⟨hwr, rfl⟩] at htype
      exact ⟨fun _ => hrunning.copies a ha hwr, fun hne => absurd htype hne⟩
    · rw [if_neg fun hand => hwr hand.1] at htype
      refine ⟨fun hxp => absurd (htype.symm.trans hxp) (hrunning.types a ha), fun _ => ?_⟩
      refine h.shared_data (hheld ▸ ha) ?_
      have hxp := hrunning.types a ha
      revert hwr hxp
      cases a.type <;> decide
  · exact h.clean r (hr.of_update fun a ha => toReturn_of_mem .abort (hheld ▸ ha))

/-- `finish` with RCOK: the transaction comes last in the serial order. -/
theorem Inv.commit (h : Inv init s store)
    (hactive : s.active t = some (.running p history accesses)) (hnext : p history = .finish true) :
    ∃ store', Inv init (Sys.setActive { s with committed := s.committed ++ [(p, history)] } t
      (some (.returning (toReturn .rcok accesses)))) store' := by
  have hrunning := h.running hactive
  obtain ⟨view, hreplays, hview⟩ := hrunning.replays
  have hheld : Txn.held (s.active t) = accesses := by rw [hactive]; rfl
  have hview' : ∀ r, (∀ a ∈ accesses, a.type = .wr → a.origRow ≠ r) → view r = store r := by
    intro r hr
    refine hreplays.unwritten fun e he hwrites => ?_
    obtain ⟨a, ha, hrow, hwr⟩ := hrunning.writes r ⟨e, he, hwrites⟩
    exact hr a ha hwr hrow
  refine ⟨view, h.setActive (h.locked.toReturn .rcok hheld)
    (h.serial.snoc ⟨hrunning.follows, hnext, hreplays⟩) ?_ (fun u hu b hb => ⟨?_, rfl⟩)
    fun r hr => ?_⟩
  · intro b hb
    obtain ⟨a, ha, hrow, -, -, htype⟩ := mem_toReturn hb
    rw [if_neg fun hand => nomatch hand.2] at htype
    rw [hrow, htype]
    exact ⟨fun hxp => absurd hxp (hrunning.types a ha), fun _ => hview a ha⟩
  · refine hview' b.origRow fun a ha hwr => ?_
    exact (h.alone hactive ha hwr hu hb).symm
  · have hshared : Shared (fun u => Txn.held (s.active u)) r :=
      hr.of_update fun a ha => toReturn_of_mem .rcok (hheld ▸ ha)
    refine (h.clean r hshared).trans (hview' r fun a ha hwr hrow => ?_).symm
    have hsh := hshared t a (by rwa [← hheld] at ha) hrow
    rw [hwr] at hsh
    cases hsh

/-- A row is restored, or has its committed contents, when its lock is given back. -/
theorem Inv.returnRow (h : Inv init s store) {a : Access R D} {rest : List (Access R D)}
    {rows : R → Row T D} (hactive : s.active t = some (.returning (a :: rest)))
    (hreturn : NoWait.returnRow s.rows t a = some rows) :
    Inv init (Sys.setActive { s with rows := rows } t (some (.returning rest))) store := by
  have hheld : Txn.held (s.active t) = a :: rest := by rw [hactive]; rfl
  have hgood : Returning store s.store (a :: rest) := by
    have := h.good t
    rwa [hactive] at this
  have hlocked := h.locked.returnRow hheld hreturn
  obtain ⟨owners, data, -, hrows, hdata⟩ := returnRow_eq hreturn
  have hself : (rows a.origRow).data = store a.origRow := by
    rw [hrows, Function.update_self, hdata]
    obtain ⟨hxp, hdone⟩ := hgood a (List.mem_cons_self ..)
    split
    · rename_i htype
      exact hxp htype
    · rename_i htype
      exact hdone htype
  have hother : ∀ r, r ≠ a.origRow → (rows r).data = s.store r := by
    intro r hr
    rw [hrows, Function.update_of_ne hr]
    rfl
  -- who else holds the row shares it, with the committed contents
  have hsame : ∀ u, u ≠ t → ∀ b ∈ Txn.held (s.active u),
      (rows b.origRow).data = s.store b.origRow := by
    intro u hu b hb
    by_cases hrow : b.origRow = a.origRow
    · have ha : a ∈ Txn.held (s.active t) := by
        rw [hheld]
        exact List.mem_cons_self ..
      have hsh : lockFor b.type = .sh := by
        cases hlock : lockFor b.type with
        | sh => rfl
        | none => exact absurd hlock (lockFor_ne_none _)
        | ex => exact absurd (h.locked.alone hb ha hrow hlock) hu
      rw [h.shared_data hb hsh, hrow]
      exact hself
    · exact hother _ hrow
  refine h.setActive hlocked h.serial ?_ (fun u hu b hb => ⟨rfl, hsame u hu b hb⟩) fun r hr => ?_
  · intro b hb
    obtain ⟨hxp, hdone⟩ := hgood b (List.mem_cons_of_mem _ hb)
    refine ⟨hxp, fun htype => ?_⟩
    by_cases hrow : b.origRow = a.origRow
    · rw [hrow]
      exact hself
    · exact (hother _ hrow).trans (hdone htype)
  · by_cases hrow : r = a.origRow
    · rw [hrow]
      exact hself
    · refine (hother r hrow).trans (h.clean r fun u b hb hrow' => ?_)
      refine hr u b ?_ hrow'
      by_cases hu : u = t
      · subst hu
        rw [hheld] at hb
        rw [Function.update_self]
        rcases List.mem_cons.mp hb with rfl | hb
        · exact absurd hrow'.symm hrow
        · exact hb
      · rwa [Function.update_of_ne hu]

theorem Inv.idle (h : Inv init s store) (hactive : s.active t = some (.returning [])) :
    Inv init (s.setActive t none) store := by
  have hheld : Txn.held (s.active t) = [] := by rw [hactive]; rfl
  have heq : Function.update (fun u => Txn.held (s.active u)) t (Txn.held (none : Option (Txn R D))) =
      fun u => Txn.held (s.active u) := Function.update_eq_self_iff.mpr hheld.symm
  refine h.setActive ?_ h.serial trivial (fun u _ a _ => ⟨rfl, rfl⟩) fun r hr => ?_
  · rw [heq]
    exact h.locked
  · rw [heq] at hr
    exact h.clean r hr

theorem inv_init (store : R → D) : Inv store (Sys.init store : Sys T R D) store where
  locked := ⟨fun _ _ => rfl, fun _ => ⟨fun _ => rfl, fun _ => rfl⟩, fun _ hex => (nomatch hex),
    fun _ _ ha => (nomatch ha)⟩
  serial := rfl
  good _ := trivial
  clean _ _ := rfl

theorem inv_exec (h : Inv init s store) (hactive : s.active t = some (.running p history accesses))
    (hexec : exec s t p history accesses = some s') : ∃ store', Inv init s' store' := by
  rw [exec] at hexec
  split at hexec
  · rename_i r type hnext
    split at hexec
    · cases hexec
    · rename_i htype
      split at hexec
      · rename_i rows a hget
        cases hexec
        exact ⟨store, h.getRow hactive htype hnext hget⟩
      · cases hexec
        exact ⟨store, h.abort hactive⟩
  · rename_i r hnext
    split at hexec
    · rename_i hr
      cases hexec
      exact ⟨store, h.read hactive hnext hr⟩
    · cases hexec
  · rename_i r d hnext
    split at hexec
    · rename_i hr
      cases hexec
      exact ⟨store, h.write hactive hnext hr rfl⟩
    · cases hexec
  · rename_i hnext
    cases hexec
    exact h.commit hactive hnext
  · cases hexec
    exact ⟨store, h.abort hactive⟩

theorem inv_step {action : Action T R D} (h : Inv init s store) (hstep : step s action = some s') :
    ∃ store', Inv init s' store' := by
  cases action with
  | begin t p =>
      rw [step] at hstep
      split at hstep
      · rename_i hidle
        cases hstep
        exact ⟨store, h.begin hidle p⟩
      · cases hstep
  | exec t =>
      rw [step] at hstep
      split at hstep
      · rename_i p history accesses hactive
        exact inv_exec h hactive hstep
      · cases hstep
  | returnRow t =>
      rw [step] at hstep
      split at hstep
      · rename_i a rest hactive
        obtain ⟨rows, hreturn, rfl⟩ := Option.map_eq_some_iff.mp hstep
        exact ⟨store, h.returnRow hactive hreturn⟩
      · rename_i hactive
        cases hstep
        exact ⟨store, h.idle hactive⟩
      · cases hstep

/-- `lock_release` finds the entry of the caller. -/
theorem Inv.returnRow_isSome (h : Inv init s store) {rest : List (Access R D)}
    (hactive : s.active t = some (.returning rest)) : (step s (.returnRow t)).isSome := by
  have hheld : Txn.held (s.active t) = rest := by rw [hactive]; rfl
  rw [step, hactive]
  cases rest with
  | nil => rfl
  | cons a rest =>
      obtain ⟨e, he, htxn⟩ := h.locked.owner (hheld ▸ List.mem_cons_self ..)
      have hdrop := dropOwner_isSome ⟨e, he, htxn⟩
      simp only [Option.isSome_map, NoWait.returnRow, Row.lockRelease]
      split
      · exact hdrop
      · exact hdrop

/-- Nobody is left in a lock table when no transaction is active. -/
theorem Inv.unlocked (h : Inv init s store) (hidle : ∀ t, s.active t = none) (r : R) :
    (s.rows r).owners = [] ∧ (s.rows r).lockType = .none := by
  have hnil : (s.rows r).owners = [] := by
    refine List.eq_nil_iff_forall_not_mem.mpr fun e he => ?_
    have hcount := h.locked.count r e.txn
    simp only [hidle e.txn] at hcount
    have hpos : 0 < (s.rows r).owners.countP fun e' => decide (e'.txn = e.txn) :=
      List.countP_pos_iff.mpr ⟨e, he, decide_eq_true rfl⟩
    rw [hcount] at hpos
    cases hpos
  exact ⟨hnil, (h.locked.free r).mpr hnil⟩

end Contents

/-- Whatever the order of the steps, the committed transactions did and saw what they do and see
    one after another, in the order of their commits.  A row has the contents that they leave unless
    its writer is active; when nobody is, all rows have and no row is locked. -/
theorem no_wait_serializable {store : R → D} {actions : List (Action T R D)} {s : Sys T R D}
    (hrun : Transition.runs step (Sys.init store) actions = some s) :
    ∃ final, SerialHistory s.committed store final ∧
      (∀ r, Shared (fun t => Txn.held (s.active t)) r → s.store r = final r) ∧
      ((∀ t, s.active t = none) →
        s.store = final ∧ ∀ r, (s.rows r).owners = [] ∧ (s.rows r).lockType = .none) ∧
      ∀ t rest, s.active t = some (.returning rest) → (step s (.returnRow t)).isSome := by
  obtain ⟨final, h⟩ : ∃ final, Inv store s final := by
    refine Transition.runs_invariant (C := fun _ _ => True) (P := fun s => ∃ final, Inv store s final)
      (fun s a s' h _ hstep => ?_)
      ⟨store, inv_init store⟩ (Transition.allSteps_of_forall (fun _ _ _ => trivial) _) hrun
    obtain ⟨store', h⟩ := h
    exact inv_step h hstep
  refine ⟨final, h.serial, h.clean, fun hidle => ⟨?_, h.unlocked hidle⟩, fun t rest hactive => ?_⟩
  · funext r
    refine h.clean r fun t a ha => ?_
    simp only [hidle t] at ha
    cases ha
  · exact h.returnRow_isSome hactive

/-- Adds one to a row. -/
def increment : Program Unit Nat AccessT
  | [] => .get () .wr
  | [_] => .read ()
  | [_, .saw _ d] => .write () (d + 1)
  | _ => .finish true

/-- Changes a row and gives up. -/
def givesUp : Program Unit Nat AccessT
  | [] => .get () .wr
  | [_] => .write () 100
  | _ => .finish false

/-- One increment is refused the lock of the other; then a change is undone. -/
def twoIncrements : List (Action Nat Unit Nat) :=
  [.begin 1 increment, .exec 1, .begin 2 increment, .exec 2, .exec 1, .exec 1, .returnRow 2,
    .exec 1, .returnRow 1, .returnRow 1, .begin 3 givesUp, .exec 3, .exec 3, .exec 3,
    .returnRow 3, .returnRow 3]

theorem no_wait_serializable_two_increments :
    (Transition.runs step (Sys.init fun _ => 7) twoIncrements).map
        (fun s => (s.store (), s.committed.length)) = some (8, 1) ∧
      ∀ s, Transition.runs step (Sys.init fun _ => 7) twoIncrements = some s →
        ∃ final, SerialHistory s.committed (fun _ => 7) final ∧
          ((∀ t, s.active t = none) → s.store = final) := by
  refine ⟨by decide, fun s hrun => ?_⟩
  obtain ⟨final, hserial, -, hidle, -⟩ := no_wait_serializable hrun
  exact ⟨final, hserial, fun hall => (hidle hall).1⟩

end VeriTxn.NoWait
