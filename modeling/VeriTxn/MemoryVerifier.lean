import VeriTxn.Types
import VeriTxn.Transition
import Mathlib.Data.Option.Basic
import Mathlib.Logic.Function.Basic

/-!
# Deferred memory verification

`verify_record` and `memory_verifier`, with `VERI_TYPE` `DEFERRED_MEMORY`: for every
page that was read or written since the last verification a record keeps two sums by
exclusive or, which a verification compares.  Every call runs as one step, so the
latches and `verifying` are left out.  Both callers pass leaves.  Whether a page is in
the cache is a parameter of `verify`; that its `try_load` pins the page is left out.

Beside the verifier runs a watch, which knows what the calls reported.
-/

namespace VeriTxn

open Transition

/-- A pointer to a `bt_node`, with its `node_id`. -/
structure Origin where
  node : Nat
  nodeId : Nat
deriving DecidableEq, Repr

/-- What a verification finds outside: the hash of an untrusted node, and whether an
    index has a node in its cache. -/
structure Outside where
  getHash : Nat → UInt64
  cached : (index : Nat) → (nodeId : Nat) → Bool

/-- `verify_record`; `index` is `from`. -/
structure VerifyRecord where
  readSetHash : UInt64
  writeSetHash : UInt64
  timestamp : UInt64
  oldValueHash : UInt64
  originNode : Origin
  index : Nat
deriving DecidableEq, Repr

namespace VerifyRecord

/-- `init`, which asserts that the node has an id. -/
def init (curValue : UInt64) (originNode : Origin) (index : Nat) : Option VerifyRecord :=
  if originNode.nodeId > 0 then
    some {
      readSetHash := 0
      writeSetHash := curValue
      timestamp := 0
      oldValueHash := curValue
      originNode := originNode
      index := index }
  else none

/-- `verify`. -/
def verify (outside : Outside) (r : VerifyRecord) : Bool :=
  if outside.cached r.index r.originNode.nodeId then
    r.readSetHash ^^^ r.oldValueHash = r.writeSetHash
  else
    let curValue := outside.getHash r.originNode.node
    r.readSetHash ^^^ (curValue ^^^ r.timestamp) = r.writeSetHash

/-- `add_read`. -/
def addRead (r : VerifyRecord) (readValue : UInt64) : VerifyRecord :=
  { r with
    readSetHash := r.readSetHash ^^^ (readValue ^^^ r.timestamp)
    writeSetHash := r.writeSetHash ^^^ (readValue ^^^ r.timestamp) }

/-- `add_write`. -/
def addWrite (r : VerifyRecord) (writeValue : UInt64) : VerifyRecord :=
  { r with
    readSetHash := r.readSetHash ^^^ r.oldValueHash
    timestamp := r.timestamp + 1
    writeSetHash := r.writeSetHash ^^^ (writeValue ^^^ (r.timestamp + 1))
    oldValueHash := writeValue ^^^ (r.timestamp + 1) }

/-- The two sums agree, and the record stands for the value `v`. -/
def Stands (r : VerifyRecord) (v : UInt64) : Prop :=
  r.readSetHash ^^^ r.oldValueHash = r.writeSetHash ∧ r.oldValueHash ^^^ r.timestamp = v

theorem init_stands {curValue : UInt64} {originNode : Origin} {index : Nat} {r : VerifyRecord}
    (h : init curValue originNode index = some r) : r.Stands curValue := by
  unfold init at h
  split at h
  · cases h
    simp [Stands]
  · cases h

/-- A read goes into both sums: whatever it reported, they agree as before. -/
theorem Stands.addRead {r : VerifyRecord} {v : UInt64} (h : r.Stands v) (readValue : UInt64) :
    (r.addRead readValue).Stands v := by
  refine ⟨?_, h.2⟩
  calc r.readSetHash ^^^ (readValue ^^^ r.timestamp) ^^^ r.oldValueHash
      = r.readSetHash ^^^ r.oldValueHash ^^^ (readValue ^^^ r.timestamp) := by ac_rfl
    _ = r.writeSetHash ^^^ (readValue ^^^ r.timestamp) := by rw [h.1]

/-- A write takes the old value out and puts the new one in. -/
theorem Stands.addWrite {r : VerifyRecord} {v : UInt64} (h : r.Stands v) (writeValue : UInt64) :
    (r.addWrite writeValue).Stands writeValue := by
  constructor
  · simp only [VerifyRecord.addWrite, h.1]
  · simp only [VerifyRecord.addWrite, UInt64.xor_assoc, UInt64.xor_self, UInt64.xor_zero]

/-- A record is found good exactly if its page is in the cache or outside is the value
    that the record stands for. -/
theorem Stands.verify_iff {r : VerifyRecord} {v : UInt64} (h : r.Stands v) (outside : Outside) :
    r.verify outside = true ↔ outside.cached r.index r.originNode.nodeId = true ∨
      outside.getHash r.originNode.node = v := by
  unfold verify
  split
  · rename_i hcached
    simp [hcached, h.1]
  · rename_i hcached
    have hsum : r.readSetHash ^^^ (outside.getHash r.originNode.node ^^^ r.timestamp) =
        r.writeSetHash ↔ outside.getHash r.originNode.node = v := by
      rw [← h.1, UInt64.xor_right_inj, ← h.2]
      constructor
      · intro heq
        rw [← heq, UInt64.xor_assoc, UInt64.xor_self, UInt64.xor_zero]
      · intro heq
        rw [heq, UInt64.xor_assoc, UInt64.xor_self, UInt64.xor_zero]
    simp [hcached, hsum]

end VerifyRecord

/-- `VERI_BATCH` of `config.h`. -/
def veriBatch : Nat := 1000000000

/-- `memory_verifier`. -/
structure MemoryVerifier where
  updates : Nat → Option VerifyRecord
  limit : Nat
  lastVerification : Nat

namespace MemoryVerifier

/-- `init`. -/
def init (size : Nat) (now : Nat) : MemoryVerifier where
  updates := fun _ => none
  limit := size
  lastVerification := now

/-- The record of a page, made anew if there is none, with the assertions on it. -/
def record (v : MemoryVerifier) (pageKey : Nat) (curValue : UInt64) (origin : Origin)
    (index : Nat) : Option VerifyRecord := do
  let r ← match v.updates pageKey with
    | none => VerifyRecord.init curValue origin index
    | some r => some r
  if pageKey < v.limit ∧ r.index = index then some r else none

/-- `add_read`. -/
def addRead (v : MemoryVerifier) (pageKey : Nat) (readValue : UInt64) (origin : Origin)
    (index : Nat) : Option MemoryVerifier :=
  (v.record pageKey readValue origin index).map fun r =>
    { v with updates := Function.update v.updates pageKey (some (r.addRead readValue)) }

/-- `add_write`. -/
def addWrite (outside : Outside) (v : MemoryVerifier) (pageKey : Nat) (writeValue : UInt64)
    (origin : Origin) (index : Nat) : Option MemoryVerifier :=
  (v.record pageKey (outside.getHash origin.node) origin index).map fun r =>
    { v with updates := Function.update v.updates pageKey (some (r.addWrite writeValue)) }

/-- One round of the loop of `verification`. -/
def checkSlot (outside : Outside) (v : MemoryVerifier) (i : Nat) : Option MemoryVerifier :=
  match v.updates i with
  | none => some v
  | some r =>
      if r.verify outside then some { v with updates := Function.update v.updates i none }
      else none

/-- It is too early for the next batch: `get_enc_time() - last_verification < VERI_BATCH`. -/
def tooEarly (v : MemoryVerifier) (now : Nat) : Bool :=
  wrap64 (now + 2 ^ 64 - v.lastVerification) < veriBatch

/-- `verification`; `now` and `later` are what `get_enc_time` returns at its start and
    at its end. -/
def verification (outside : Outside) (v : MemoryVerifier) (now later : Nat) :
    Option MemoryVerifier :=
  if v.tooEarly now then some v
  else
    ((List.range v.limit).foldlM (checkSlot outside) v).map fun v =>
      { v with lastVerification := later }

/-! ### What a verification does -/

/-- The records at and beyond `n`. -/
def beyond (updates : Nat → Option VerifyRecord) (n : Nat) : Nat → Option VerifyRecord :=
  fun i => if i < n then none else updates i

theorem update_beyond (updates : Nat → Option VerifyRecord) (n : Nat) :
    Function.update (beyond updates n) n none = beyond updates (n + 1) := by
  funext i
  by_cases hi : i = n
  · subst hi
    simp [beyond]
  · have hlt : i < n + 1 ↔ i < n := by omega
    simp [beyond, hi, hlt]

theorem checkSlot_eq (outside : Outside) (v : MemoryVerifier) (i : Nat) :
    checkSlot outside v i =
      if ∀ r, v.updates i = some r → r.verify outside then
        some { v with updates := Function.update v.updates i none }
      else none := by
  unfold checkSlot
  cases hi : v.updates i with
  | none =>
      have hsame : Function.update v.updates i none = v.updates := by
        rw [← hi, Function.update_eq_self]
      simp [hsame]
  | some r => simp

/-- The loop goes through exactly if every record in its range is good, and removes them. -/
theorem foldlM_checkSlot (outside : Outside) (v : MemoryVerifier) (n : Nat) :
    (List.range n).foldlM (checkSlot outside) v =
      if ∀ i < n, ∀ r, v.updates i = some r → r.verify outside then
        some { v with updates := beyond v.updates n }
      else none := by
  induction n with
  | zero =>
      have hzero : beyond v.updates 0 = v.updates := by
        funext i
        simp [beyond]
      simp [hzero]
  | succ n ih =>
      have hsplit : (∀ i < n + 1, ∀ r, v.updates i = some r → r.verify outside) ↔
          (∀ i < n, ∀ r, v.updates i = some r → r.verify outside) ∧
            ∀ r, v.updates n = some r → r.verify outside := by
        constructor
        · exact fun h => ⟨fun i hi => h i (Nat.lt_succ_of_lt hi), h n (Nat.lt_succ_self n)⟩
        · rintro ⟨hall, hn⟩ i hi
          rcases Nat.lt_succ_iff_lt_or_eq.mp hi with hi | rfl
          · exact hall i hi
          · exact hn
      rw [List.range_succ, List.foldlM_append, ih]
      by_cases hall : ∀ i < n, ∀ r, v.updates i = some r → r.verify outside
      case neg =>
        rw [if_neg hall, if_neg fun h => hall (hsplit.mp h).1]
        rfl
      have hn : beyond v.updates n n = v.updates n := by simp [beyond]
      rw [if_pos hall, Option.bind_eq_bind, Option.bind_some, List.foldlM_cons, checkSlot_eq]
      simp only [hn, update_beyond]
      by_cases hgood : ∀ r, v.updates n = some r → r.verify outside
      · rw [if_pos hgood, if_pos (hsplit.mpr ⟨hall, hgood⟩)]
        rfl
      · rw [if_neg hgood, if_neg fun h => hgood (hsplit.mp h).2]
        rfl

/-- A verification that is not too early finds every record good, or its assertion
    fails. -/
theorem verification_eq_some_iff {outside : Outside} {v v' : MemoryVerifier} {now later : Nat}
    (hlimit : ∀ i, v.limit ≤ i → v.updates i = none) (htime : v.tooEarly now = false) :
    v.verification outside now later = some v' ↔
      (∀ i r, v.updates i = some r → r.verify outside) ∧
        v' = { v with updates := fun _ => none, lastVerification := later } := by
  have hrange : (∀ i < v.limit, ∀ r, v.updates i = some r → r.verify outside) ↔
      ∀ i r, v.updates i = some r → r.verify outside := by
    refine ⟨fun h i r hr => ?_, fun h i _ => h i⟩
    by_cases hi : i < v.limit
    · exact h i hi r hr
    · rw [hlimit i (Nat.not_lt.mp hi)] at hr
      cases hr
  have hcleared : beyond v.updates v.limit = fun _ => none := by
    funext i
    unfold beyond
    split
    · rfl
    · rename_i hi
      exact hlimit i (Nat.not_lt.mp hi)
  rw [verification, htime, foldlM_checkSlot, hcleared, ← hrange]
  simp only [Bool.false_eq_true, if_false]
  split
  · rename_i hall
    rw [Option.map_some, Option.some.injEq]
    exact ⟨fun h => ⟨hall, h.symm⟩, fun h => h.2.symm⟩
  · rename_i hall
    rw [Option.map_none]
    exact ⟨fun h => (nomatch h), fun h => absurd h.1 hall⟩

theorem record_some {v : MemoryVerifier} {pageKey : Nat} {curValue : UInt64} {origin : Origin}
    {index : Nat} {r : VerifyRecord} (h : v.record pageKey curValue origin index = some r) :
    pageKey < v.limit ∧ (v.updates pageKey = some r ∨
      v.updates pageKey = none ∧ VerifyRecord.init curValue origin index = some r) := by
  unfold record at h
  cases hold : v.updates pageKey with
  | none =>
      simp only [hold, Option.bind_eq_bind, Option.bind_eq_some_iff] at h
      obtain ⟨r', hinit, hr⟩ := h
      split at hr
      · cases hr
        rename_i hassert
        exact ⟨hassert.1, Or.inr ⟨rfl, hinit⟩⟩
      · cases hr
  | some r' =>
      simp only [hold, Option.bind_eq_bind, Option.bind_some] at h
      split at h
      · cases h
        rename_i hassert
        exact ⟨hassert.1, Or.inl rfl⟩
      · cases h

/-! ### What the calls reported -/

/-- What a watcher of the calls knows of every page: the value last reported by
    `add_write`, or by the first `add_read` if there was none; the same since the last
    verification; and whether a read since then reported another value than it should. -/
structure Watch where
  last : Nat → Option UInt64
  since : Nat → Option UInt64
  deviated : Nat → Bool

namespace Watch

def init : Watch := ⟨fun _ => none, fun _ => none, fun _ => false⟩

/-- The value that counts after a read: an older one stays. -/
def firstRead (value : Option UInt64) (readValue : UInt64) : UInt64 := value.getD readValue

def addRead (w : Watch) (pageKey : Nat) (readValue : UInt64) : Watch where
  last := Function.update w.last pageKey (some (firstRead (w.last pageKey) readValue))
  since := Function.update w.since pageKey (some (firstRead (w.since pageKey) readValue))
  deviated := Function.update w.deviated pageKey
    (w.deviated pageKey || firstRead (w.last pageKey) readValue != readValue)

def addWrite (w : Watch) (pageKey : Nat) (writeValue : UInt64) : Watch where
  last := Function.update w.last pageKey (some writeValue)
  since := Function.update w.since pageKey (some writeValue)
  deviated := w.deviated

def verified (w : Watch) : Watch :=
  { w with since := fun _ => none, deviated := fun _ => false }

end Watch

/-- A verifier with its watcher. -/
structure Watched where
  verifier : MemoryVerifier
  watch : Watch

/-- A call, with what is outside at that time. -/
inductive Action where
  | addRead (pageKey : Nat) (readValue : UInt64) (origin : Origin) (index : Nat)
  | addWrite (outside : Outside) (pageKey : Nat) (writeValue : UInt64) (origin : Origin)
      (index : Nat)
  | verification (outside : Outside) (now later : Nat)

namespace Watched

def init (size now : Nat) : Watched := ⟨MemoryVerifier.init size now, Watch.init⟩

/-- A call; `none` is a failed assertion. -/
def step (s : Watched) : Action → Option Watched
  | .addRead pageKey readValue origin index =>
      (s.verifier.addRead pageKey readValue origin index).map fun v =>
        ⟨v, s.watch.addRead pageKey readValue⟩
  | .addWrite outside pageKey writeValue origin index =>
      (s.verifier.addWrite outside pageKey writeValue origin index).map fun v =>
        ⟨v, s.watch.addWrite pageKey writeValue⟩
  | .verification outside now later =>
      (s.verifier.verification outside now later).map fun v =>
        ⟨v, if s.verifier.tooEarly now then s.watch else s.watch.verified⟩

/-- What a verification ought to do: fail if some read reported a wrong value, and go
    through if none did and every page outside still has its value. -/
def Sound (s : Watched) : Action → Prop
  | .verification outside now later => s.verifier.tooEarly now = false →
      ((∃ i, s.watch.deviated i = true) → s.verifier.verification outside now later = none) ∧
      ((∀ i r, s.verifier.updates i = some r → s.watch.deviated i = false ∧
          s.watch.last i = some (outside.getHash r.originNode.node)) →
        (s.verifier.verification outside now later).isSome)
  | _ => True

/-- If some read reported a wrong value, then some page is not in the cache and outside
    is another value than was last written, or first read, since the last verification. -/
def Shows (s : Watched) : Action → Prop
  | .verification outside now _ => s.verifier.tooEarly now = false →
      (∃ i, s.watch.deviated i = true) → ∃ i r, s.verifier.updates i = some r ∧
        outside.cached r.index r.originNode.nodeId = false ∧
        s.watch.since i ≠ some (outside.getHash r.originNode.node)
  | _ => True

/-- Every record stands for what was last reported of its page since the last
    verification. -/
structure Inv (s : Watched) : Prop where
  limited : ∀ i, s.verifier.limit ≤ i → s.verifier.updates i = none
  unrecorded : ∀ i, s.verifier.updates i = none → s.watch.since i = none ∧
    s.watch.deviated i = false
  stands : ∀ i r, s.verifier.updates i = some r → ∃ v, s.watch.since i = some v ∧ r.Stands v
  agree : ∀ i v, s.watch.deviated i = false → s.watch.since i = some v → s.watch.last i = some v

theorem inv_init (size now : Nat) : (init size now).Inv where
  limited := fun _ _ => rfl
  unrecorded := fun _ _ => ⟨rfl, rfl⟩
  stands := fun _ _ h => (nomatch h)
  agree := fun _ _ _ h => (nomatch h)

variable {s s' : Watched}

/-- The record that a call works on stands for the older value of the page, or for the
    value the record was made with. -/
theorem Inv.record (h : s.Inv) {pageKey : Nat} {curValue : UInt64} {origin : Origin}
    {index : Nat} {r : VerifyRecord}
    (hrecord : s.verifier.record pageKey curValue origin index = some r) :
    r.Stands (Watch.firstRead (s.watch.since pageKey) curValue) := by
  rcases (record_some hrecord).2 with hold | ⟨hnone, hnew⟩
  · obtain ⟨v, hv, hr⟩ := h.stands pageKey r hold
    rwa [hv]
  · rw [(h.unrecorded pageKey hnone).1]
    exact VerifyRecord.init_stands hnew

/-- A call keeps the invariant if its record stands for what the watcher has now. -/
theorem Inv.update (h : s.Inv) {pageKey : Nat} {r : VerifyRecord} {v : UInt64} {w : Watch}
    {value : UInt64} {flag : Bool} (hlimit : pageKey < s.verifier.limit) (hr : r.Stands v)
    (hlast : w.last = Function.update s.watch.last pageKey (some value))
    (hsince : w.since = Function.update s.watch.since pageKey (some v))
    (hdeviated : w.deviated = Function.update s.watch.deviated pageKey flag)
    (hagree : flag = false → value = v) :
    Inv ⟨{ s.verifier with updates := Function.update s.verifier.updates pageKey (some r) }, w⟩ := by
  refine ⟨fun i hi => ?_, fun i hi => ?_, fun i r' hr' => ?_, fun i v' hdev hv' => ?_⟩
  · have hne : i ≠ pageKey := by
      rintro rfl
      exact absurd hlimit (Nat.not_lt.mpr hi)
    exact (Function.update_of_ne hne _ _).trans (h.limited i hi)
  · by_cases hne : i = pageKey
    · subst hne
      simp at hi
    · simp only [hsince, hdeviated, Function.update_of_ne hne] at hi ⊢
      exact h.unrecorded i hi
  · by_cases hne : i = pageKey
    · subst hne
      simp only [Function.update_self, Option.some.injEq] at hr'
      exact ⟨v, by simp [hsince], hr' ▸ hr⟩
    · simp only [hsince, Function.update_of_ne hne] at hr' ⊢
      exact h.stands i r' hr'
  · by_cases hne : i = pageKey
    · subst hne
      simp only [hlast, hsince, hdeviated, Function.update_self, Option.some.injEq] at hdev hv' ⊢
      exact (hagree hdev).trans hv'
    · simp only [hlast, hsince, hdeviated, Function.update_of_ne hne] at hdev hv' ⊢
      exact h.agree i v' hdev hv'

theorem Inv.addRead (h : s.Inv) {pageKey : Nat} {readValue : UInt64} {origin : Origin}
    {index : Nat} (hstep : s.step (.addRead pageKey readValue origin index) = some s') :
    s'.Inv := by
  simp only [step, MemoryVerifier.addRead, Option.map_map, Option.map_eq_some_iff] at hstep
  obtain ⟨r, hrecord, rfl⟩ := hstep
  refine h.update (record_some hrecord).1 ((h.record hrecord).addRead readValue) rfl rfl rfl ?_
  intro hflag
  obtain ⟨hdev, hsame⟩ := Bool.or_eq_false_iff.mp hflag
  have hlast : Watch.firstRead (s.watch.last pageKey) readValue = readValue := by simpa using hsame
  cases hsince : s.watch.since pageKey with
  | none => exact hlast
  | some v =>
      rw [h.agree pageKey v hdev hsince]

theorem Inv.addWrite (h : s.Inv) {outside : Outside} {pageKey : Nat} {writeValue : UInt64}
    {origin : Origin} {index : Nat}
    (hstep : s.step (.addWrite outside pageKey writeValue origin index) = some s') : s'.Inv := by
  simp only [step, MemoryVerifier.addWrite, Option.map_map, Option.map_eq_some_iff] at hstep
  obtain ⟨r, hrecord, rfl⟩ := hstep
  exact h.update (record_some hrecord).1 ((h.record hrecord).addWrite writeValue) rfl rfl
    (Function.update_eq_self pageKey s.watch.deviated).symm fun _ => rfl

theorem Inv.verification (h : s.Inv) {outside : Outside} {now later : Nat}
    (hstep : s.step (.verification outside now later) = some s') : s'.Inv := by
  simp only [step, Option.map_eq_some_iff] at hstep
  obtain ⟨v, hv, rfl⟩ := hstep
  cases htime : s.verifier.tooEarly now with
  | true =>
      rw [MemoryVerifier.verification, if_pos htime] at hv
      cases hv
      exact h
  | false =>
      obtain ⟨-, rfl⟩ := (verification_eq_some_iff h.limited htime).mp hv
      exact ⟨fun _ _ => rfl, fun _ _ => ⟨rfl, rfl⟩, fun _ _ hr => (nomatch hr),
        fun _ _ _ hv => (nomatch hv)⟩

theorem Inv.step {a : Action} (h : s.Inv) (hstep : s.step a = some s') : s'.Inv := by
  cases a with
  | addRead pageKey readValue origin index => exact h.addRead hstep
  | addWrite outside pageKey writeValue origin index => exact h.addWrite hstep
  | verification outside now later => exact h.verification hstep

/-- A verification goes through exactly if every page is in the cache or has outside what
    was last reported of it. -/
theorem Inv.verification_isSome_iff (h : s.Inv) {outside : Outside} {now later : Nat}
    (htime : s.verifier.tooEarly now = false) :
    (s.verifier.verification outside now later).isSome ↔
      ∀ i r, s.verifier.updates i = some r →
        outside.cached r.index r.originNode.nodeId = true ∨
          s.watch.since i = some (outside.getHash r.originNode.node) := by
  rw [Option.isSome_iff_exists]
  simp only [verification_eq_some_iff h.limited htime, exists_and_left, exists_eq, and_true]
  refine forall_congr' fun i => forall_congr' fun r => forall_congr' fun hr => ?_
  obtain ⟨v, hv, hstands⟩ := h.stands i r hr
  rw [hstands.verify_iff, hv, Option.some.injEq]
  exact or_congr Iff.rfl eq_comm

theorem Inv.sound_iff (h : s.Inv) (a : Action) : s.Sound a ↔ s.Shows a := by
  cases a with
  | addRead pageKey readValue origin index => exact Iff.rfl
  | addWrite outside pageKey writeValue origin index => exact Iff.rfl
  | verification outside now later =>
      refine forall_congr' fun htime => ?_
      have hsome : (s.verifier.verification outside now later).isSome ↔ _ :=
        h.verification_isSome_iff htime
      have hnone : s.verifier.verification outside now later = none ↔
          ∃ i r, s.verifier.updates i = some r ∧
            outside.cached r.index r.originNode.nodeId = false ∧
            s.watch.since i ≠ some (outside.getHash r.originNode.node) := by
        rw [← Option.not_isSome_iff_eq_none, hsome]
        push Not
        simp only [Bool.not_eq_true]
      rw [hnone]
      refine ⟨And.left, fun hshows => ⟨hshows, fun hall => hsome.mpr fun i r hr => Or.inr ?_⟩⟩
      obtain ⟨hdeviated, hlast⟩ := hall i r hr
      obtain ⟨v, hv, -⟩ := h.stands i r hr
      rw [hv, ← h.agree i v hdeviated hv, hlast]

/-- In every run the verifications do what they ought to exactly if, whenever some read
    reported a wrong value, the page outside gives it away: a read leaves no trace in the
    record. -/
theorem verifications_sound_iff (size now : Nat) (as : List Action) :
    AllSteps step Sound (init size now) as ↔ AllSteps step Shows (init size now) as :=
  allSteps_congr (fun _ _ _ h _ hstep => Inv.step h hstep) (fun _ a h => h.sound_iff a)
    (inv_init size now) as

/-- Two reads of a page that nobody wrote, with different values. -/
def twoReads : List Action :=
  [.addRead 1 5 ⟨1, 1⟩ 0, .addRead 1 6 ⟨1, 1⟩ 0,
    .verification ⟨fun _ => 5, fun _ _ => false⟩ 2000000000 2000000000]

/-- The verification finds nothing wrong. -/
theorem wrong_read_unnoticed :
    ¬ AllSteps step Sound (init 4 0) twoReads ∧ (runs step (init 4 0) twoReads).isSome := by
  refine ⟨?_, by decide +kernel⟩
  rintro ⟨-, h⟩
  obtain ⟨-, h⟩ := h _ rfl
  obtain ⟨h, -⟩ := h _ rfl
  have hnone := (h (by decide +kernel)).1 ⟨1, by decide +kernel⟩
  revert hnone
  decide +kernel

end Watched

end MemoryVerifier

end VeriTxn
