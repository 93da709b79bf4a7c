import Mathlib.Data.Nat.Bitwise
import Mathlib.Logic.Function.Basic
import Mathlib.Order.Nat
import VeriTxn.Transition

/-!
# The timestamp word of a TicToc row

`Row_tictoc` packs a lock bit, 15 bits of lease and 48 bits of write timestamp into `_ts_word`
(`ATOMIC_WORD` on, `TICTOC_MV` and `WRITE_PERMISSION_LOCK` off).  `try_renew` extends the lease with
a compare-and-swap; when that finds another word with the same write timestamp, it tries again with
the value it had computed before.  Every load, store and compare-and-swap of the word is a step.
-/

namespace VeriTxn.Tictoc

open Transition

/-! ### The fields of the word -/

def lockBit : Nat := 1 <<< 63

def rtsLen : Nat := 15

def wtsLen : Nat := 63 - rtsLen

def wtsMask : Nat := (1 <<< wtsLen) - 1

def rtsMask : Nat := ((1 <<< rtsLen) - 1) <<< wtsLen

/-- `~m` for a `uint64_t`. -/
def compl64 (m : Nat) : Nat := 2 ^ 64 - 1 - m

def wtsOf (v : Nat) : Nat := v &&& wtsMask

def deltaOf (v : Nat) : Nat := (v &&& rtsMask) >>> wtsLen

def isLocked (v : Nat) : Bool := decide (v &&& lockBit ≠ 0)

/-- `get_rts` of a word. -/
def getRts (v : Nat) : Nat := deltaOf v + wtsOf v

/-- `v2 |= wts; v2 |= (delta_rts << WTS_LEN)`, from zero. -/
def pack (wts delta : Nat) : Nat := wts ||| delta <<< wtsLen

/-- The word that `write_data` stores. -/
def written (v wts : Nat) : Nat := v &&& compl64 (rtsMask ||| wtsMask) ||| wts

theorem wtsOf_eq (v : Nat) : wtsOf v = v % 2 ^ 48 := Nat.and_two_pow_sub_one_eq_mod v 48

theorem deltaOf_eq (v : Nat) : deltaOf v = v / 2 ^ 48 % 2 ^ 15 := by
  have hmask : rtsMask >>> wtsLen = 2 ^ 15 - 1 := by decide
  rw [deltaOf, Nat.shiftRight_and_distrib, hmask, Nat.and_two_pow_sub_one_eq_mod,
    Nat.shiftRight_eq_div_pow]
  rfl

theorem getRts_eq (v : Nat) : getRts v = v / 2 ^ 48 % 2 ^ 15 + v % 2 ^ 48 := by
  rw [getRts, deltaOf_eq, wtsOf_eq]

theorem and_lockBit {v : Nat} (h : v < 2 ^ 64) :
    v &&& lockBit = if 2 ^ 63 ≤ v then 2 ^ 63 else 0 := by
  rw [show lockBit = 2 ^ 63 from rfl, Nat.and_two_pow, Nat.testBit_eq_decide_div_mod_eq]
  split
  · rename_i hle
    rw [show v / 2 ^ 63 % 2 = 1 by omega]
    rfl
  · rename_i hlt
    rw [show v / 2 ^ 63 % 2 = 0 by omega]
    rfl

theorem isLocked_iff {v : Nat} (h : v < 2 ^ 64) : isLocked v = true ↔ 2 ^ 63 ≤ v := by
  rw [isLocked, decide_eq_true_iff, and_lockBit h]
  split
  · rename_i hle
    exact ⟨fun _ => hle, fun _ => by decide⟩
  · rename_i hlt
    exact ⟨fun hne => absurd rfl hne, fun hle => absurd hle hlt⟩

theorem set_lockBit {v : Nat} (h : v < 2 ^ 63) : v ||| lockBit = v + 2 ^ 63 := by
  have := Nat.two_pow_add_eq_or_of_lt h 1
  rw [Nat.mul_one] at this
  rw [Nat.or_comm, Nat.add_comm]
  exact this.symm

theorem clear_lockBit (v : Nat) : v &&& compl64 lockBit = v % 2 ^ 63 :=
  Nat.and_two_pow_sub_one_eq_mod v 63

theorem pack_eq {wts delta : Nat} (hwts : wts < 2 ^ 48) :
    pack wts delta = wts + delta * 2 ^ 48 := by
  have := Nat.shiftLeft_add_eq_or_of_lt hwts delta
  rw [pack, Nat.or_comm, show wtsLen = 48 from rfl, ← this, Nat.shiftLeft_eq, Nat.add_comm]

theorem written_eq {v wts : Nat} (hv : v < 2 ^ 64) (hlocked : isLocked v = true)
    (hwts : wts < 2 ^ 48) : written v wts = 2 ^ 63 + wts := by
  have hmask : compl64 (rtsMask ||| wtsMask) = lockBit := by decide
  have hlow : wts < 2 ^ 63 := by omega
  have hor := Nat.two_pow_add_eq_or_of_lt hlow 1
  rw [Nat.mul_one] at hor
  rw [written, hmask, and_lockBit hv, if_pos ((isLocked_iff hv).mp hlocked), hor]

/-- `delta_rts & ~((1 << RTS_LEN) - 1)`. -/
theorem and_high {d : Nat} (h : d < 2 ^ 64) :
    d &&& compl64 ((1 <<< rtsLen) - 1) = d - d % 2 ^ 15 := by
  have hdiv : (d &&& compl64 ((1 <<< rtsLen) - 1)) / 2 ^ 15 = d / 2 ^ 15 := by
    rw [Nat.and_div_two_pow, show compl64 ((1 <<< rtsLen) - 1) / 2 ^ 15 = 2 ^ 49 - 1 by decide,
      Nat.and_two_pow_sub_one_eq_mod]
    omega
  have hmod : (d &&& compl64 ((1 <<< rtsLen) - 1)) % 2 ^ 15 = 0 := by
    rw [Nat.and_mod_two_pow, show compl64 ((1 <<< rtsLen) - 1) % 2 ^ 15 = 0 by decide, Nat.and_zero]
  omega

/-! ### The threads of one row -/

/-- Where a thread is. -/
inductive Thread where
  | idle
  /-- in `try_renew(wts, rts)`, about to load the word -/
  | renewLoad (wts rts : Nat)
  /-- at its compare-and-swap of `v` with `v2`; `wts` may have been rebased -/
  | renewCas (wts rts : Nat) (rebase : Bool) (v v2 : Nat)
  /-- in `lock` -/
  | lockLoad
  | lockCas (v : Nat)
  /-- in `try_lock` -/
  | tryLockLoad
  | tryLockCas (v : Nat)
  /-- holds the lock -/
  | held
  /-- holds the lock and has called `get_rts` -/
  | heldRts (rts : Nat)
  /-- in `write_data(data, wts)` -/
  | writeLoad (wts : Nat)
  | writeStore (wts v : Nat)
  /-- in `release` -/
  | releaseLoad
  | releaseStore (v : Nat)
deriving DecidableEq

variable {T : Type} [DecidableEq T]

/-- The word, the threads, and the `rts` of every renewal that returned true. -/
structure Row (T : Type) where
  word : Nat
  threads : T → Thread
  leases : List Nat

def Row.init : Row T := ⟨0, fun _ => .idle, []⟩

def Row.goto (s : Row T) (t : T) (th : Thread) : Row T :=
  { s with threads := Function.update s.threads t th }

/-- `try_renew` returns. -/
def Row.renewed (s : Row T) (t : T) (rts : Nat) (ok : Bool) : Row T :=
  { s.goto t .idle with leases := if ok then rts :: s.leases else s.leases }

/-- `try_renew` up to its loop, with the word loaded: what it returns, or where it goes on. -/
def renewStart (wts rts v : Nat) : Bool ⊕ Thread :=
  if wtsOf v = wts ∧ rts - wts ≤ deltaOf v then .inl true
  else if isLocked v then .inl false
  else if wts ≠ wtsOf v then .inl false
  else
    let deltaRts := rts - wts
    if deltaRts < deltaOf v then .inl true
    else if 1 <<< rtsLen ≤ deltaRts then
      let delta := deltaRts &&& compl64 ((1 <<< rtsLen) - 1)
      .inr (.renewCas (wts + delta) rts true v
        (pack (wts + delta) (deltaRts &&& ((1 <<< rtsLen) - 1))))
    else .inr (.renewCas wts rts false v (pack wts deltaRts))

/-- The next access of the word by a thread. -/
def Row.work (s : Row T) (t : T) : Option (Row T) :=
  match s.threads t with
  | .idle | .held | .heldRts _ => none
  | .renewLoad wts rts =>
      match renewStart wts rts s.word with
      | .inl ok => some (s.renewed t rts ok)
      | .inr th => some (s.goto t th)
  | .renewCas wts rts rebase v v2 =>
      if s.word = v then some { s.renewed t rts true with word := v2 }
      else if rebase ∨ isLocked s.word ∨ wts ≠ wtsOf s.word then some (s.renewed t rts false)
      else if rts < deltaOf s.word then some (s.renewed t rts true)
      else some (s.goto t (.renewCas wts rts rebase s.word v2))
  | .lockLoad => some (s.goto t (if isLocked s.word then .lockLoad else .lockCas s.word))
  | .lockCas v =>
      if s.word = v then some { s.goto t .held with word := v ||| lockBit }
      else some (s.goto t .lockLoad)
  | .tryLockLoad => some (s.goto t (if isLocked s.word then .idle else .tryLockCas s.word))
  | .tryLockCas v =>
      if s.word = v then some { s.goto t .held with word := v ||| lockBit }
      else some (s.goto t .idle)
  | .writeLoad wts => some (s.goto t (.writeStore wts s.word))
  | .writeStore wts v => some { s.goto t .held with word := written v wts }
  | .releaseLoad => some (s.goto t (.releaseStore s.word))
  | .releaseStore v => some { s.goto t .idle with word := v &&& compl64 lockBit }

/-- Calls, and steps of calls. -/
inductive Action (T : Type) where
  | tryRenew (t : T) (wts rts : Nat)
  | lock (t : T)
  | tryLock (t : T)
  | getRts (t : T)
  | writeData (t : T) (wts : Nat)
  | release (t : T)
  | work (t : T)

/-- One step.  A thread that holds the lock may write with a timestamp above the `get_rts` it has
    read, and release. -/
def Row.step (s : Row T) : Action T → Option (Row T)
  | .tryRenew t wts rts =>
      if s.threads t = .idle ∧ wts ≤ rts ∧ rts < 2 ^ 48 then some (s.goto t (.renewLoad wts rts))
      else none
  | .lock t => if s.threads t = .idle then some (s.goto t .lockLoad) else none
  | .tryLock t => if s.threads t = .idle then some (s.goto t .tryLockLoad) else none
  | .getRts t => if s.threads t = .held then some (s.goto t (.heldRts (getRts s.word))) else none
  | .writeData t wts =>
      match s.threads t with
      | .heldRts rts => if rts < wts ∧ wts < 2 ^ 48 then some (s.goto t (.writeLoad wts)) else none
      | _ => none
  | .release t =>
      match s.threads t with
      | .held | .heldRts _ => some (s.goto t .releaseLoad)
      | _ => none
  | .work t => s.work t

@[simp] theorem Row.goto_self (s : Row T) (t : T) (th : Thread) : (s.goto t th).threads t = th :=
  Function.update_self ..

theorem Row.goto_of_ne {s : Row T} {t u : T} {th : Thread} (h : u ≠ t) :
    (s.goto t th).threads u = s.threads u := Function.update_of_ne h _ _

/-! ### Who holds the lock, and what the threads know of the word -/

variable {s s' : Row T} {t : T}

def Thread.Holds : Thread → Prop
  | .held | .heldRts _ | .writeLoad _ | .writeStore _ _ | .releaseLoad | .releaseStore _ => True
  | _ => False

/-- A renewal swaps in a word with its own `rts`; what a thread has read under the lock is still
    there. -/
def Thread.Ok (word : Nat) : Thread → Prop
  | .idle | .lockLoad | .tryLockLoad | .held | .releaseLoad => True
  | .renewLoad wts rts => wts ≤ rts ∧ rts < 2 ^ 48
  | .renewCas wts rts _ v v2 =>
      wts ≤ rts ∧ v < 2 ^ 63 ∧ wtsOf v ≤ rts ∧ v2 < 2 ^ 63 ∧ getRts v2 = rts
  | .lockCas v | .tryLockCas v => v < 2 ^ 63
  | .heldRts rts => getRts word = rts
  | .writeLoad wts => getRts word < wts ∧ wts < 2 ^ 48
  | .writeStore wts v => v = word ∧ getRts word < wts ∧ wts < 2 ^ 48
  | .releaseStore v => v = word

structure Wf (s : Row T) : Prop where
  word_lt : s.word < 2 ^ 64
  locked : isLocked s.word = true ↔ ∃ t, (s.threads t).Holds
  alone : ∀ t u, (s.threads t).Holds → (s.threads u).Holds → t = u
  ok : ∀ t, (s.threads t).Ok s.word
  fresh : 0 < deltaOf s.word → getRts s.word ∈ s.leases

/-- What a thread without the lock knows does not depend on the word. -/
theorem Thread.Ok.of_not_holds {word word' : Nat} {th : Thread} (h : th.Ok word)
    (hth : ¬ th.Holds) : th.Ok word' := by
  cases th with
  | held | heldRts rts | writeLoad wts | writeStore wts v | releaseLoad | releaseStore v =>
      exact absurd trivial hth
  | idle | renewLoad wts rts | renewCas wts rts rebase v v2 | lockLoad | lockCas v | tryLockLoad
  | tryLockCas v => exact h

omit [DecidableEq T] in
theorem Wf.init : Wf (Row.init : Row T) where
  word_lt := (by decide : 0 < 2 ^ 64)
  locked := ⟨fun h => absurd h (by decide : ¬ isLocked 0 = true), fun ⟨_, h⟩ => h.elim⟩
  alone := fun _ _ h => h.elim
  ok := fun _ => trivial
  fresh := fun h => absurd h (by decide : ¬ 0 < deltaOf 0)

/-- A step of a thread that leaves the word and keeps or lacks the lock. -/
theorem Wf.goto (h : Wf s) {th : Thread} (hholds : th.Holds ↔ (s.threads t).Holds)
    (hok : th.Ok s.word) {leases : List Nat} (hleases : ∀ l ∈ s.leases, l ∈ leases) :
    Wf { s.goto t th with leases := leases } := by
  have hsame : ∀ u, ((s.goto t th).threads u).Holds ↔ (s.threads u).Holds := by
    intro u
    by_cases hut : u = t
    · rw [hut, Row.goto_self]
      exact hholds
    · rw [Row.goto_of_ne hut]
  refine ⟨h.word_lt, h.locked.trans (exists_congr fun u => (hsame u).symm), fun u u' hu hu' => ?_,
    fun u => ?_, fun hdelta => hleases _ (h.fresh hdelta)⟩
  · exact h.alone u u' ((hsame u).mp hu) ((hsame u').mp hu')
  · by_cases hut : u = t
    · dsimp only
      rw [hut, Row.goto_self]
      exact hok
    · dsimp only
      rw [Row.goto_of_ne hut]
      exact h.ok u

/-- A step of a thread that writes the word, while no other one holds the lock. -/
theorem Wf.store (h : Wf s) (th : Thread) {word : Nat} {leases : List Nat}
    (hothers : ∀ u, u ≠ t → ¬ (s.threads u).Holds) (hword : word < 2 ^ 64)
    (hlocked : isLocked word = true ↔ th.Holds) (hok : th.Ok word)
    (hfresh : 0 < deltaOf word → getRts word ∈ leases) :
    Wf { s.goto t th with word := word, leases := leases } := by
  have honly : ∀ u, ((s.goto t th).threads u).Holds → u = t := by
    intro u hu
    by_contra hut
    rw [Row.goto_of_ne hut] at hu
    exact hothers u hut hu
  refine ⟨hword, hlocked.trans ⟨fun hth => ⟨t, ?_⟩, fun ⟨u, hu⟩ => ?_⟩, fun u u' hu hu' => ?_,
    fun u => ?_, hfresh⟩
  · dsimp only
    rwa [Row.goto_self]
  · have hut := honly u hu
    subst hut
    dsimp only at hu
    rwa [Row.goto_self] at hu
  · rw [honly u hu, honly u' hu']
  · dsimp only
    by_cases hut : u = t
    · rw [hut, Row.goto_self]
      exact hok
    · rw [Row.goto_of_ne hut]
      exact (h.ok u).of_not_holds (hothers u hut)

/-! ### What a step does -/

/-- A renewal that goes on to its compare-and-swap has the word ready. -/
theorem renewStart_spec {wts rts v : Nat} (hle : wts ≤ rts) (hrts : rts < 2 ^ 48)
    (hv : v < 2 ^ 64) :
    (∃ ok, renewStart wts rts v = .inl ok ∧ (ok = true → rts ≤ getRts v)) ∨
    ∃ wts' rebase v2, renewStart wts rts v = .inr (.renewCas wts' rts rebase v v2) ∧
      wts' ≤ rts ∧ v < 2 ^ 63 ∧ wtsOf v ≤ rts ∧ v2 < 2 ^ 63 ∧ getRts v2 = rts := by
  have hlow : ∀ d, d &&& ((1 <<< rtsLen) - 1) = d % 2 ^ 15 :=
    fun d => Nat.and_two_pow_sub_one_eq_mod d 15
  unfold renewStart
  split
  · rename_i hlease
    refine .inl ⟨true, rfl, fun _ => ?_⟩
    rw [getRts]
    omega
  · split
    · exact .inl ⟨false, rfl, nofun⟩
    · rename_i hunlocked
      have hv63 : v < 2 ^ 63 := by
        by_contra hge
        exact hunlocked ((isLocked_iff hv).mpr (Nat.le_of_not_lt hge))
      split
      · exact .inl ⟨false, rfl, nofun⟩
      · rename_i hsame
        have hwts : wts = wtsOf v := Decidable.not_not.mp hsame
        dsimp only
        split
        · rename_i hlease
          refine .inl ⟨true, rfl, fun _ => ?_⟩
          rw [getRts]
          omega
        · split
          · rename_i hrebase
            right
            rw [and_high (by omega), hlow]
            have hbase : wts + ((rts - wts) - (rts - wts) % 2 ^ 15) < 2 ^ 48 := by omega
            refine ⟨_, _, _, rfl, by omega, hv63, by omega, ?_, ?_⟩
            · rw [pack_eq hbase]
              omega
            · rw [pack_eq hbase, getRts_eq]
              omega
          · rename_i hsmall
            right
            have hdelta : rts - wts < 2 ^ 15 := Nat.lt_of_not_le hsmall
            have hbase : wts < 2 ^ 48 := by omega
            refine ⟨_, _, _, rfl, hle, hv63, by omega, ?_, ?_⟩
            · rw [pack_eq hbase]
              omega
            · rw [pack_eq hbase, getRts_eq]
              omega

/-- A compare-and-swap of `try_renew` that is about to succeed finds a lease that does not reach
    beyond its own. -/
def Thread.Extends (word : Nat) : Thread → Prop
  | .renewCas _ rts _ v _ => word = v → getRts word ≤ rts
  | _ => True

def Extends (s : Row T) : Action T → Prop
  | .work t => (s.threads t).Extends s.word
  | _ => True

instance (word : Nat) (th : Thread) : Decidable (th.Extends word) :=
  match th with
  | .renewCas _ rts _ v _ => inferInstanceAs (Decidable (word = v → getRts word ≤ rts))
  | .idle | .renewLoad _ _ | .lockLoad | .lockCas _ | .tryLockLoad | .tryLockCas _ | .held
  | .heldRts _ | .writeLoad _ | .writeStore _ _ | .releaseLoad | .releaseStore _ => .isTrue trivial

instance (s : Row T) (a : Action T) : Decidable (Extends s a) :=
  match a with
  | .work t => inferInstanceAs (Decidable ((s.threads t).Extends s.word))
  | .tryRenew _ _ _ | .lock _ | .tryLock _ | .getRts _ | .writeData _ _ | .release _ =>
      .isTrue trivial

/-- The effects of a step: a swap by a renewal, and those for which nothing has to be asked. -/
inductive Effect (s : Row T) : Action T → Row T → Prop where
  | quiet {a : Action T} (hext : Extends s a) (t : T) (th : Thread) (leases : List Nat)
      (hholds : th.Holds ↔ (s.threads t).Holds) (hok : th.Ok s.word)
      (hleases : leases = s.leases ∨ ∃ rts, leases = rts :: s.leases ∧ rts ≤ getRts s.word) :
      Effect s a { s.goto t th with leases := leases }
  | swap (t : T) (wts rts : Nat) (rebase : Bool) (v2 : Nat)
      (hcall : s.threads t = .renewCas wts rts rebase s.word v2) :
      Effect s (.work t) { s.goto t .idle with word := v2, leases := rts :: s.leases }
  | lock {a : Action T} (hext : Extends s a) (t : T) (hword : s.word < 2 ^ 63) :
      Effect s a { s.goto t .held with word := s.word ||| lockBit }
  | write {a : Action T} (hext : Extends s a) (t : T) (wts : Nat)
      (hcall : s.threads t = .writeStore wts s.word) :
      Effect s a { s.goto t .held with word := written s.word wts }
  | release {a : Action T} (hext : Extends s a) (t : T)
      (hcall : s.threads t = .releaseStore s.word) :
      Effect s a { s.goto t .idle with word := s.word &&& compl64 lockBit }

omit [DecidableEq T] in
theorem extends_of_call {th : Thread} (hcall : s.threads t = th) (h : th.Extends s.word) :
    Extends s (.work t) := by
  rw [← hcall] at h
  exact h

/-- A step that only moves a thread. -/
theorem Effect.move {a : Action T} {th : Thread} (hext : Extends s a)
    (hholds : th.Holds ↔ (s.threads t).Holds) (hok : th.Ok s.word) : Effect s a (s.goto t th) :=
  .quiet hext t th s.leases hholds hok (.inl rfl)

theorem Effect.renewed {a : Action T} {rts : Nat} {ok : Bool} (hext : Extends s a)
    (hholds : ¬ (s.threads t).Holds) (hok : ok = true → rts ≤ getRts s.word) :
    Effect s a (s.renewed t rts ok) := by
  refine .quiet hext t .idle _ ⟨fun h => h.elim, fun h => (hholds h).elim⟩ trivial ?_
  cases ok with
  | false => exact .inl rfl
  | true => exact .inr ⟨rts, rfl, hok rfl⟩

omit [DecidableEq T] in
theorem Wf.unlocked (h : Wf s) (hword : ¬ isLocked s.word = true) : s.word < 2 ^ 63 := by
  by_contra hge
  exact hword ((isLocked_iff h.word_lt).mpr (Nat.le_of_not_lt hge))

theorem Wf.work_effect (h : Wf s) (hstep : s.work t = some s') : Effect s (.work t) s' := by
  have hok := h.ok t
  cases hcall : s.threads t with
  | idle | held | heldRts rts =>
      simp only [Row.work, hcall] at hstep
      cases hstep
  | renewLoad wts rts =>
      rw [hcall] at hok
      have hext : Extends s (.work t) := extends_of_call hcall trivial
      have hout : ¬ (s.threads t).Holds := by
        rw [hcall]
        exact id
      simp only [Row.work, hcall] at hstep
      rcases renewStart_spec hok.1 hok.2 h.word_lt with ⟨ok, heq, hlease⟩ |
        ⟨wts', rebase, v2, heq, hcas⟩
      · rw [heq] at hstep
        cases hstep
        exact .renewed hext hout hlease
      · rw [heq] at hstep
        cases hstep
        exact .move hext ⟨fun h => h.elim, fun h => (hout h).elim⟩ hcas
  | renewCas wts rts rebase v v2 =>
      rw [hcall] at hok
      obtain ⟨hle, -, hbase, hv2, hrts⟩ := hok
      have hout : ¬ (s.threads t).Holds := by
        rw [hcall]
        exact id
      simp only [Row.work, hcall] at hstep
      split at hstep
      · rename_i heq
        cases hstep
        exact .swap t wts rts rebase v2 (heq ▸ hcall)
      · rename_i hne
        have hext : Extends s (.work t) := extends_of_call hcall fun heq => absurd heq hne
        split at hstep
        · cases hstep
          exact .renewed hext hout nofun
        · rename_i hsame
          simp only [not_or, Decidable.not_not] at hsame
          split at hstep
          · rename_i hlease
            cases hstep
            refine .renewed hext hout fun _ => ?_
            rw [getRts]
            omega
          · cases hstep
            refine .move hext ⟨fun h => h.elim, fun h => (hout h).elim⟩ ?_
            exact ⟨hle, h.unlocked hsame.2.1, hsame.2.2 ▸ hle, hv2, hrts⟩
  | lockLoad =>
      have hext : Extends s (.work t) := extends_of_call hcall trivial
      simp only [Row.work, hcall] at hstep
      cases hstep
      split
      · exact .move hext (by rw [hcall]) trivial
      · rename_i hunlocked
        exact .move hext (by rw [hcall]; exact Iff.rfl) (h.unlocked hunlocked)
  | tryLockLoad =>
      have hext : Extends s (.work t) := extends_of_call hcall trivial
      simp only [Row.work, hcall] at hstep
      cases hstep
      split
      · exact .move hext (by rw [hcall]; exact Iff.rfl) trivial
      · rename_i hunlocked
        exact .move hext (by rw [hcall]; exact Iff.rfl) (h.unlocked hunlocked)
  | lockCas v =>
      rw [hcall] at hok
      have hext : Extends s (.work t) := extends_of_call hcall trivial
      simp only [Row.work, hcall] at hstep
      split at hstep
      · rename_i heq
        cases hstep
        subst heq
        exact .lock hext t hok
      · cases hstep
        exact .move hext (by rw [hcall]; exact Iff.rfl) trivial
  | tryLockCas v =>
      rw [hcall] at hok
      have hext : Extends s (.work t) := extends_of_call hcall trivial
      simp only [Row.work, hcall] at hstep
      split at hstep
      · rename_i heq
        cases hstep
        subst heq
        exact .lock hext t hok
      · cases hstep
        exact .move hext (by rw [hcall]; exact Iff.rfl) trivial
  | writeLoad wts =>
      rw [hcall] at hok
      simp only [Row.work, hcall] at hstep
      cases hstep
      exact .move (extends_of_call hcall trivial) (by rw [hcall]; exact Iff.rfl) ⟨rfl, hok⟩
  | writeStore wts v =>
      rw [hcall] at hok
      obtain ⟨rfl, -⟩ := hok
      simp only [Row.work, hcall] at hstep
      cases hstep
      exact .write (extends_of_call hcall trivial) t wts hcall
  | releaseLoad =>
      simp only [Row.work, hcall] at hstep
      cases hstep
      exact .move (extends_of_call hcall trivial) (by rw [hcall]; exact Iff.rfl) rfl
  | releaseStore v =>
      rw [hcall] at hok
      obtain rfl : v = s.word := hok
      simp only [Row.work, hcall] at hstep
      cases hstep
      exact .release (extends_of_call hcall trivial) t hcall

theorem Wf.effect {a : Action T} (h : Wf s) (hstep : s.step a = some s') : Effect s a s' := by
  cases a with
  | tryRenew t wts rts =>
      simp only [Row.step] at hstep
      split at hstep
      · rename_i hcall
        cases hstep
        exact .move trivial (by rw [hcall.1]; exact Iff.rfl) hcall.2
      · cases hstep
  | lock t =>
      simp only [Row.step] at hstep
      split at hstep
      · rename_i hcall
        cases hstep
        exact .move trivial (by rw [hcall]; exact Iff.rfl) trivial
      · cases hstep
  | tryLock t =>
      simp only [Row.step] at hstep
      split at hstep
      · rename_i hcall
        cases hstep
        exact .move trivial (by rw [hcall]; exact Iff.rfl) trivial
      · cases hstep
  | getRts t =>
      simp only [Row.step] at hstep
      split at hstep
      · rename_i hcall
        cases hstep
        exact .move trivial (by rw [hcall]; exact Iff.rfl) rfl
      · cases hstep
  | writeData t wts =>
      simp only [Row.step] at hstep
      split at hstep
      · rename_i rts hcall
        split at hstep
        · rename_i hwts
          cases hstep
          have hok := h.ok t
          rw [hcall] at hok
          have hread : getRts s.word = rts := hok
          exact .move trivial (by rw [hcall]; exact Iff.rfl) ⟨hread ▸ hwts.1, hwts.2⟩
        · cases hstep
      · cases hstep
  | release t =>
      simp only [Row.step] at hstep
      split at hstep
      · rename_i hcall
        cases hstep
        exact .move trivial (by rw [hcall]; exact Iff.rfl) trivial
      · rename_i rts hcall
        cases hstep
        exact .move trivial (by rw [hcall]; exact Iff.rfl) trivial
      · cases hstep
  | work t => exact h.work_effect hstep

theorem getRts_set {v : Nat} (h : v < 2 ^ 63) :
    getRts (v ||| lockBit) = getRts v ∧ deltaOf (v ||| lockBit) = deltaOf v := by
  rw [set_lockBit h, getRts_eq, getRts_eq, deltaOf_eq, deltaOf_eq]
  omega

theorem getRts_clear (v : Nat) :
    getRts (v &&& compl64 lockBit) = getRts v ∧ deltaOf (v &&& compl64 lockBit) = deltaOf v := by
  rw [clear_lockBit, getRts_eq, getRts_eq, deltaOf_eq, deltaOf_eq]
  omega

omit [DecidableEq T] in
/-- While the lock is free, nobody is behind it. -/
theorem Wf.no_holder (h : Wf s) (hword : s.word < 2 ^ 63) (u : T) : ¬ (s.threads u).Holds := by
  intro hu
  have := (isLocked_iff h.word_lt).mp (h.locked.mpr ⟨u, hu⟩)
  omega

omit [DecidableEq T] in
theorem Wf.write_eq (h : Wf s) {wts : Nat} (hcall : s.threads t = .writeStore wts s.word) :
    written s.word wts = 2 ^ 63 + wts ∧ getRts s.word < wts ∧ wts < 2 ^ 48 := by
  have hok := h.ok t
  rw [hcall] at hok
  have hlocked : isLocked s.word = true := h.locked.mpr ⟨t, by rw [hcall]; trivial⟩
  exact ⟨written_eq h.word_lt hlocked hok.2.2, hok.2⟩

theorem Effect.wf {a : Action T} (heffect : Effect s a s') (h : Wf s) : Wf s' := by
  have hother : ∀ t, (s.threads t).Holds → ∀ u, u ≠ t → ¬ (s.threads u).Holds :=
    fun t ht u hut hu => hut (h.alone u t hu ht)
  cases heffect with
  | quiet hext t th leases hholds hok hleases =>
      refine h.goto hholds hok fun l hl => ?_
      rcases hleases with rfl | ⟨rts, rfl, -⟩
      · exact hl
      · exact List.mem_cons_of_mem _ hl
  | swap t wts rts rebase v2 hcall =>
      have hok := h.ok t
      rw [hcall] at hok
      obtain ⟨-, hv, -, hv2, hrts⟩ := hok
      have hlt : v2 < 2 ^ 64 := by omega
      refine h.store .idle (fun u _ => h.no_holder hv u) hlt ⟨fun hlocked => ?_, fun hno => hno.elim⟩
        trivial fun _ => ?_
      · have := (isLocked_iff hlt).mp hlocked
        omega
      · rw [hrts]
        exact List.mem_cons_self ..
  | lock hext t hword =>
      have hset := set_lockBit hword
      obtain ⟨hrts, hdelta⟩ := getRts_set hword
      have hlt : s.word ||| lockBit < 2 ^ 64 := by omega
      refine h.store .held (fun u _ => h.no_holder hword u) hlt
        ⟨fun _ => trivial, fun _ => (isLocked_iff hlt).mpr (by omega)⟩ trivial ?_
      rw [hdelta, hrts]
      exact h.fresh
  | write hext t wts hcall =>
      obtain ⟨hword, -, hwts⟩ := h.write_eq hcall
      have hlt : written s.word wts < 2 ^ 64 := by omega
      refine h.store .held (hother t (by rw [hcall]; trivial)) hlt
        ⟨fun _ => trivial, fun _ => (isLocked_iff hlt).mpr (by omega)⟩ trivial fun hdelta => ?_
      rw [hword, deltaOf_eq] at hdelta
      omega
  | release hext t hcall =>
      obtain ⟨hrts, hdelta⟩ := getRts_clear s.word
      have hclear := clear_lockBit s.word
      have hlt : s.word &&& compl64 lockBit < 2 ^ 64 := by omega
      refine h.store .idle (hother t (by rw [hcall]; trivial)) hlt
        ⟨fun hlocked => ?_, fun hno => hno.elim⟩ trivial ?_
      · have := (isLocked_iff hlt).mp hlocked
        omega
      · rw [hdelta, hrts]
        exact h.fresh

/-! ### Leases -/

/-- The timestamp a thread is about to write. -/
def Thread.writing : Thread → Option Nat
  | .writeLoad wts | .writeStore wts _ => some wts
  | _ => none

/-- Every renewal that returned true is covered by `get_rts`, and every write under way is behind
    all of them. -/
def Leased (s : Row T) : Prop :=
  (∀ l ∈ s.leases, l ≤ getRts s.word) ∧
    ∀ t, ∀ wts ∈ (s.threads t).writing, ∀ l ∈ s.leases, l < wts

omit [DecidableEq T] in
/-- A writer has read `get_rts` under the lock. -/
theorem Wf.leased_iff (h : Wf s) : Leased s ↔ ∀ l ∈ s.leases, l ≤ getRts s.word := by
  refine ⟨And.left, fun hleases => ⟨hleases, fun t wts hwriting l hl => ?_⟩⟩
  have hok := h.ok t
  have hlt : getRts s.word < wts := by
    cases hcall : s.threads t with
    | writeLoad wts' =>
        rw [hcall] at hok hwriting
        cases hwriting
        exact hok.1
    | writeStore wts' v =>
        rw [hcall] at hok hwriting
        cases hwriting
        exact hok.2.1
    | idle | renewLoad wts' rts | renewCas wts' rts rebase v v2 | lockLoad | lockCas v
    | tryLockLoad | tryLockCas v | held | heldRts rts | releaseLoad | releaseStore v =>
        rw [hcall] at hwriting
        cases hwriting
  exact (hleases l hl).trans_lt hlt

/-- A step keeps the leases exactly if a swap by a renewal does not shorten the one it finds. -/
theorem Effect.leased_iff {a : Action T} (heffect : Effect s a s') (h : Wf s)
    (hleased : Leased s) : Leased s' ↔ Extends s a := by
  have hold := h.leased_iff.mp hleased
  rw [(heffect.wf h).leased_iff]
  cases heffect with
  | quiet hext t th leases hholds hok hleases =>
      refine ⟨fun _ => hext, fun _ l hl => ?_⟩
      rcases hleases with rfl | ⟨rts, rfl, hrts⟩
      · exact hold l hl
      · rcases List.mem_cons.mp hl with rfl | hl
        · exact hrts
        · exact hold l hl
  | swap t wts rts rebase v2 hcall =>
      have hok := h.ok t
      rw [hcall] at hok
      obtain ⟨-, -, hbase, -, hrts⟩ := hok
      dsimp only [Extends]
      rw [hcall, hrts]
      constructor
      · -- a lease behind the write timestamp was granted
        intro hall _
        by_contra hlonger
        have hdelta : 0 < deltaOf s.word := by
          rw [getRts] at hlonger
          omega
        exact hlonger (hall _ (List.mem_cons_of_mem _ (h.fresh hdelta)))
      · intro hext l hl
        rcases List.mem_cons.mp hl with rfl | hl
        · exact Nat.le_refl _
        · exact (hold l hl).trans (hext rfl)
  | lock hext t hword =>
      refine ⟨fun _ => hext, fun _ l hl => ?_⟩
      dsimp only
      rw [(getRts_set hword).1]
      exact hold l hl
  | write hext t wts hcall =>
      obtain ⟨hword, hlt, hwts⟩ := h.write_eq hcall
      refine ⟨fun _ => hext, fun _ l hl => ?_⟩
      have hle := hold l hl
      have hnew : getRts (2 ^ 63 + wts) = wts := by
        rw [getRts_eq]
        omega
      dsimp only
      rw [hword, hnew]
      omega
  | release hext t hcall =>
      refine ⟨fun _ => hext, fun _ l hl => ?_⟩
      dsimp only
      rw [(getRts_clear s.word).1]
      exact hold l hl

/-- Leases never shrink in a run exactly if no renewal swaps a word with a longer lease. -/
theorem leases_kept_iff {as : List (Action T)} (hrun : runs Row.step Row.init as = some s) :
    (∀ n s₁, runs Row.step Row.init (as.take n) = some s₁ → Leased s₁) ↔
      AllSteps Row.step Extends (Row.init : Row T) as := by
  have hiff := runs_prefixes_iff (C := Extends) (J := Wf) (P := Leased (T := T))
    (Q := fun _ => True) (fun s a s' h hstep => (h.effect hstep).wf h)
    (fun s a s' h hleased hstep => (h.effect hstep).leased_iff h hleased)
    (fun _ _ _ _ hno => absurd trivial hno) Wf.init ⟨nofun, nofun⟩ hrun
  refine Iff.trans ⟨fun h n s₁ hs₁ _ => h n s₁ hs₁, fun h n s₁ hs₁ => h n s₁ hs₁ trivial⟩ hiff

/-- A thread writes at timestamp 100; then two threads load the word for renewals, and the second
    one swaps it first. -/
def twoRenewals (rts rts' : Nat) : List (Action Bool) :=
  [.lock false, .work false, .work false, .getRts false, .writeData false 100, .work false,
    .work false, .release false, .work false, .work false, .tryRenew false 100 rts,
    .tryRenew true 100 rts', .work false, .work true, .work true, .work false, .work false]

/-- The shorter renewal comes first, and the longer one tries again. -/
theorem leases_kept_iff_shorter_first :
    ∃ s : Row Bool,
      runs Row.step Row.init (twoRenewals 110 105) = some s ∧ s.leases = [110, 105] ∧
      ∀ n s₁, runs Row.step Row.init ((twoRenewals 110 105).take n) = some s₁ → Leased s₁ := by
  have hsome : ((runs Row.step Row.init (twoRenewals 110 105)).map Row.leases) =
      some [110, 105] := by
    decide
  obtain ⟨s, hrun, hleases⟩ := Option.map_eq_some_iff.mp hsome
  refine ⟨s, hrun, hleases, (leases_kept_iff hrun).mpr ?_⟩
  decide

/-- The longer renewal comes first; the shorter one tries again with the word it had computed. -/
theorem renewal_shrinks_lease :
    ¬ ∀ (as : List (Action Bool)) (s : Row Bool),
      runs Row.step Row.init as = some s → Leased s := by
  intro h
  have hsome : ((runs Row.step Row.init (twoRenewals 105 110)).map fun s =>
      (s.leases, getRts s.word)) = some ([105, 110], 105) := by
    decide
  obtain ⟨s, hrun, hs⟩ := Option.map_eq_some_iff.mp hsome
  obtain ⟨hleases, hword⟩ := Prod.mk.inj hs
  have := (h _ s hrun).1 110 (by rw [hleases]; decide)
  omega

end VeriTxn.Tictoc
