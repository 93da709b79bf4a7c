import VeriTxn.Types

/-!
# Node latches

The latch of a B+-tree node is taken shared or exclusive, upgraded when it is
held shared once, and never waited for.  `index_btree` and `IndexBTEnc` have the
same `latch_node` and `upgrade_latch`; they differ in releasing a latch that is
not held.  An assertion that fails is `none`.
-/

namespace VeriTxn

/-- `latch_type` and `share_cnt` of a node. -/
structure Latch where
  latchType : LatchT
  shareCnt : Nat
deriving DecidableEq, Repr

namespace Latch

def free : Latch := ⟨.none, 0⟩

def shared : Latch := ⟨.sh, 1⟩

def exclusive : Latch := ⟨.ex, 0⟩

/-- The latch with one more shared holder. -/
def share (l : Latch) : Latch := ⟨.sh, l.shareCnt + 1⟩

/-- A latch as some holders leave it: it counts them as long as they share it. -/
def Valid (l : Latch) : Prop :=
  match l.latchType with
  | .sh => 0 < l.shareCnt
  | _ => l.shareCnt = 0

/-- `latch_node`: whether it succeeds, and the latch after it. -/
def latchNode (l : Latch) (type : LatchT) : Option (Bool × Latch) :=
  if l.latchType = .none ∨ (l.latchType = .sh ∧ type = .sh) then
    if l.latchType = .none ∧ l.shareCnt ≠ 0 then none
    else some (true, ⟨type, if type = .sh then l.shareCnt + 1 else l.shareCnt⟩)
  else some (false, l)

/-- `upgrade_latch`, of a latch that is held shared. -/
def upgradeLatch (l : Latch) : Option (RC × Latch) :=
  if l.latchType = .sh then
    if l.shareCnt > 1 then some (.abort, l) else some (.rcok, ⟨.ex, 0⟩)
  else none

/-- The body that both `release_latch` share. -/
def drop (l : Latch) : Latch :=
  match l.latchType with
  | .ex => ⟨.none, l.shareCnt⟩
  | .sh => ⟨if l.shareCnt - 1 = 0 then .none else .sh, l.shareCnt - 1⟩
  | .none => l

@[simp] theorem latchNode_free : free.latchNode .sh = some (true, shared) := rfl

@[simp] theorem upgradeLatch_shared : shared.upgradeLatch = some (.rcok, exclusive) := rfl

@[simp] theorem drop_shared : shared.drop = free := rfl

@[simp] theorem drop_exclusive : exclusive.drop = free := rfl

theorem valid_free : free.Valid := rfl

theorem eq_free {l : Latch} (h : l.Valid) (hnone : l.latchType = .none) : l = free := by
  obtain ⟨type, cnt⟩ := l
  subst hnone
  cases (h : cnt = 0)
  rfl

/-- `latch_node` fails on an exclusive latch and shares any other one. -/
theorem latchNode_sh {l : Latch} (h : l.Valid) :
    l.latchNode .sh = some (if l.latchType = .ex then (false, l) else (true, l.share)) := by
  obtain ⟨type, cnt⟩ := l
  cases type with
  | ex => rfl
  | sh => rfl
  | none =>
      cases (h : cnt = 0)
      rfl

/-- `upgrade_latch` succeeds if there is no other holder. -/
theorem upgradeLatch_share {l : Latch} (h : l.Valid) (hex : l.latchType ≠ .ex) :
    l.share.upgradeLatch = some (if l = free then (.rcok, exclusive) else (.abort, l.share)) := by
  by_cases hfree : l = free
  · subst hfree
    rfl
  · have hpos : 0 < l.shareCnt := by
      obtain ⟨type, cnt⟩ := l
      cases type with
      | ex => exact absurd rfl hex
      | sh => exact h
      | none => exact absurd (eq_free h rfl) hfree
    have hmore : l.share.shareCnt > 1 := Nat.succ_lt_succ hpos
    rw [if_neg hfree, upgradeLatch, if_pos (show l.share.latchType = .sh from rfl), if_pos hmore]

theorem drop_share {l : Latch} (h : l.Valid) (hex : l.latchType ≠ .ex) : l.share.drop = l := by
  obtain ⟨type, cnt⟩ := l
  cases type with
  | ex => exact absurd rfl hex
  | sh =>
      have hcnt : cnt ≠ 0 := Nat.pos_iff_ne_zero.mp h
      simp [share, drop, hcnt]
  | none =>
      cases (h : cnt = 0)
      rfl

end Latch

end VeriTxn
