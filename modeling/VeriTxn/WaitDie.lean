import VeriTxn.LinkedLists
import VeriTxn.RowLock

/-!
# WAIT_DIE: lock tables

`Row_lock` under WAIT_DIE.  The entries of a table are cells of a heap, linked by the macros of
`helper.h`; a new entry gets an address that no entry had before.  `none` is a failed assertion,
a null pointer followed or the end of the fuel of a walk along a list.
-/

namespace VeriTxn.WaitDie

open LinkedLists NoWait

variable {T R : Type}

/-- `type` and `txn` of a `LockEntry`. -/
structure Request (T : Type) where
  type : LockT
  txn : T
deriving DecidableEq

/-- `Row_lock`. -/
structure RowLock (T : Type) where
  /-- the `LockEntry`s by address -/
  entries : Heap (Request T)
  /-- the address that `get_entry` returns next -/
  nextEntry : Nat
  owners : Option Nat
  waitersHead : Option Nat
  waitersTail : Option Nat
  ownerCnt : Nat
  waiterCnt : Nat
  lockType : LockT

/-- `init`. -/
def RowLock.init : RowLock T := ⟨fun _ => none, 0, none, none, none, 0, 0, .none⟩

/-! ### The list macros -/

section Macros

variable {P : Type}

/-- `STACK_PUSH`: the new top is `entry`. -/
def stackPush (heap : Heap P) (stack : Option Nat) (entry : Nat) : Option (Heap P) :=
  heap.setNext entry stack

/-- `LIST_PUT_TAIL`. -/
def listPutTail (heap : Heap P) (lhead ltail : Option Nat) (en : Nat) :
    Option (Heap P × Option Nat × Option Nat) := do
  let heap ← heap.setNext en none
  let heap ← heap.setPrev en none
  match ltail with
  | some tail =>
      let heap ← heap.setPrev en (some tail)
      let heap ← heap.setNext tail (some en)
      pure (heap, lhead, some en)
  | none => pure (heap, some en, some en)

/-- `LIST_INSERT_BEFORE`. -/
def listInsertBefore (heap : Heap P) (entry newentry : Nat) : Option (Heap P) := do
  let heap ← heap.setNext newentry (some entry)
  let e ← heap entry
  let heap ← heap.setPrev newentry e.prev
  let heap ← match e.prev with
    | some prev => heap.setNext prev (some newentry)
    | none => pure heap
  heap.setPrev entry (some newentry)

/-- `LIST_GET_HEAD`: the head is taken off. -/
def listGetHead (heap : Heap P) (lhead ltail : Option Nat) :
    Option (Heap P × Option Nat × Option Nat × Nat) := do
  let en ← lhead
  let e ← heap en
  let (heap, ltail) ← match e.next with
    | some head => (heap.setPrev head none).map fun heap => (heap, ltail)
    | none => pure (heap, none)
  let heap ← heap.setNext en none
  pure (heap, e.next, ltail, en)

/-- `LIST_REMOVE`. -/
def listRemove (heap : Heap P) (entry : Nat) : Option (Heap P) := do
  let e ← heap entry
  let heap ← match e.next with
    | some next => heap.setPrev next e.prev
    | none => pure heap
  match e.prev with
  | some prev => heap.setNext prev e.next
  | none => pure heap

end Macros

namespace RowLock

/-- `get_entry`, with the type and the transaction that are assigned to it. -/
def getEntry (m : RowLock T) (type : LockT) (txn : T) : RowLock T × Nat :=
  ({ m with
    entries := Function.update m.entries m.nextEntry (some ⟨⟨type, txn⟩, none, none⟩)
    nextEntry := m.nextEntry + 1 }, m.nextEntry)

/-- `return_entry`. -/
def returnEntry (m : RowLock T) (en : Nat) : RowLock T :=
  { m with entries := Function.update m.entries en none }

/-- The walk along `owners` that ends `canwait` at an owner with an earlier time stamp. -/
def canWait (ts : T → Nat) (entries : Heap (Request T)) (txn : T) :
    Nat → Option Nat → Option Bool
  | _, none => some true
  | 0, some _ => none
  | fuel + 1, some en => do
      let e ← entries en
      if ts e.data.txn < ts txn then some false else canWait ts entries txn fuel e.next

/-- The walk along the waiters to the first one whose time stamp is not later. -/
def waiterBehind (ts : T → Nat) (entries : Heap (Request T)) (txn : T) :
    Nat → Option Nat → Option (Option Nat)
  | _, none => some none
  | 0, some _ => none
  | fuel + 1, some en => do
      let e ← entries en
      if ts txn < ts e.data.txn then waiterBehind ts entries txn fuel e.next else some (some en)

/-- The branch of `lock_get` that waits. -/
def addWaiter (ts : T → Nat) (m : RowLock T) (type : LockT) (txn : T) : Option (RowLock T) := do
  let (m, entry) := m.getEntry type txn
  let en ← waiterBehind ts m.entries txn m.nextEntry m.waitersHead
  match en with
  | some en =>
      let entries ← listInsertBefore m.entries en entry
      pure { m with
        entries := entries
        waitersHead := if some en = m.waitersHead then some entry else m.waitersHead
        waiterCnt := m.waiterCnt + 1 }
  | none =>
      let (entries, head, tail) ← listPutTail m.entries m.waitersHead m.waitersTail entry
      pure { m with
        entries := entries
        waitersHead := head
        waitersTail := tail
        waiterCnt := m.waiterCnt + 1 }

/-- The branch of `lock_get` that takes the lock. -/
def addOwner (m : RowLock T) (type : LockT) (txn : T) : Option (RowLock T) := do
  let (m, entry) := m.getEntry type txn
  let entries ← stackPush m.entries m.owners entry
  pure { m with
    entries := entries
    owners := some entry
    ownerCnt := m.ownerCnt + 1
    lockType := type }

/-- `lock_get`. -/
def lockGet (ts : T → Nat) (threadCnt : Nat) (m : RowLock T) (type : LockT) (txn : T) :
    Option (RowLock T × RC) := do
  if m.ownerCnt ≤ threadCnt ∧ m.waiterCnt < threadCnt then
    let behind ← match m.waitersHead with
      | none => pure false
      | some head => do
          let e ← m.entries head
          pure (decide (ts txn < ts e.data.txn))
    if conflictLock m.lockType type || behind then
      if ← canWait ts m.entries txn m.nextEntry m.owners then
        let m ← m.addWaiter ts type txn
        pure (m, .wait)
      else pure (m, .abort)
    else
      let m ← m.addOwner type txn
      pure (m, .rcok)
  else none

section Release

variable [DecidableEq T]

/-- The walk along a list to the entry of `txn`, with the entry before it. -/
def findEntry (entries : Heap (Request T)) (txn : T) :
    Nat → Option Nat → Option Nat → Option (Option (Option Nat × Nat))
  | _, _, none => some none
  | 0, _, some _ => none
  | fuel + 1, prev, some en => do
      let e ← entries en
      if e.data.txn = txn then some (some (prev, en)) else findEntry entries txn fuel (some en) e.next

/-- The loop at the end of `lock_release`, with the `lock_ready` of every transaction. -/
def promote : Nat → RowLock T → (T → Bool) → Option (RowLock T × (T → Bool))
  | 0, _, _ => none
  | fuel + 1, m, lockReady =>
      match m.waitersHead with
      | none => some (m, lockReady)
      | some head => do
          let e ← m.entries head
          if conflictLock m.lockType e.data.type then some (m, lockReady)
          else
            let (entries, lhead, ltail, entry) ← listGetHead m.entries m.waitersHead m.waitersTail
            let entries ← stackPush entries m.owners entry
            if lockReady e.data.txn then none
            else
              promote fuel { m with
                entries := entries
                waitersHead := lhead
                waitersTail := ltail
                owners := some entry
                ownerCnt := m.ownerCnt + 1
                waiterCnt := m.waiterCnt - 1
                lockType := e.data.type } (Function.update lockReady e.data.txn true)

/-- The part of `lock_release` that takes the entry of an owner out. -/
def dropOwner (m : RowLock T) (prev : Option Nat) (en : Nat) : Option (RowLock T) := do
  let e ← m.entries en
  let m ← match prev with
    | some prev => (m.entries.setNext prev e.next).map fun entries => { m with entries := entries }
    | none => pure { m with owners := e.next }
  let m := m.returnEntry en
  pure { m with
    ownerCnt := m.ownerCnt - 1
    lockType := if m.ownerCnt - 1 = 0 then .none else m.lockType }

/-- The part of `lock_release` that takes the entry of a waiter out. -/
def dropWaiter (m : RowLock T) (en : Nat) : Option (RowLock T) := do
  let e ← m.entries en
  let entries ← listRemove m.entries en
  let m := { m with
    entries := entries
    waitersHead := if some en = m.waitersHead then e.next else m.waitersHead
    waitersTail := if some en = m.waitersTail then e.prev else m.waitersTail }
  pure { m.returnEntry en with waiterCnt := m.waiterCnt - 1 }

/-- `lock_release`, with its assertions. -/
def lockRelease (m : RowLock T) (txn : T) (lockReady : T → Bool) :
    Option (RowLock T × (T → Bool)) := do
  let m ← match ← findEntry m.entries txn m.nextEntry none m.owners with
    | some (prev, en) => m.dropOwner prev en
    | none => do
        let (_, en) ← ← findEntry m.entries txn m.nextEntry none m.waitersHead
        m.dropWaiter en
  if m.ownerCnt = 0 ∧ m.lockType ≠ .none then none
  else
    let (m, lockReady) ← promote (m.nextEntry + 1) m lockReady
    if m.owners.isNone = decide (m.ownerCnt = 0) then some (m, lockReady) else none

end Release

end RowLock

end VeriTxn.WaitDie
