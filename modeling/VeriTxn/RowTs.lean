import Mathlib.Data.List.Nodup
import Mathlib.Logic.Function.Basic
import Mathlib.Order.Nat
import VeriTxn.Transition
import VeriTxn.Types

/-!
# Timestamp ordering on one row

`Row_ts` keeps three queues: announced writes (`P_REQ`), reads that wait for an announced write
with a smaller timestamp, and writes (`W_REQ`) that came before their turn.  When an announcement is
answered, `update_buffer` drains the queues in rounds.  A round goes on to the writes only if it has
just served a read, it takes every write up to the next waiting read, and of these it applies the
one with the smallest timestamp.

`min_wts` and `preq_len` are never read and are left out, and so is the latch, which is held during
a whole call: a call that reaches `update_buffer` goes through its rounds before the next one
starts.
-/

namespace VeriTxn.Timestamp

open Transition

/-- `UINT64_MAX`. -/
def uint64Max : Nat := 2 ^ 64 - 1

/-- The timestamps of the transactions: distinct, and smaller than the mark of an empty queue. -/
structure Stamps (T : Type) where
  ts : T → Nat
  distinct : Function.Injective ts
  lt_max : ∀ t, ts t < uint64Max

inductive Phase where
  | idle
  /-- in `update_buffer` -/
  | updating
  /-- an assertion failed -/
  | failed
deriving DecidableEq, Repr

/-- A row with its queues, the newest request first; `curRow` and `tsReady` are the fields of the
    transactions. -/
structure RowTs (T D : Type) where
  row : D
  wts : Nat
  rts : Nat
  minRts : Nat
  minPts : Nat
  readreq : List T
  writereq : List (T × D)
  prereq : List T
  curRow : T → D
  tsReady : T → Bool
  phase : Phase

variable {T D : Type} [DecidableEq T]

/-- `Row_ts::init`. -/
def RowTs.init (row : D) (curRow : T → D) : RowTs T D where
  row := row
  wts := 0
  rts := 0
  minRts := uint64Max
  minPts := uint64Max
  readreq := []
  writereq := []
  prereq := []
  curRow := curRow
  tsReady := fun _ => true
  phase := .idle

/-- `cal_min`, over the timestamps of a queue. -/
def calMin (queue : List Nat) : Nat := queue.foldl (fun m ts => if ts < m then ts else m) uint64Max

/-- `debuffer_req(P_REQ, txn)`: the queue without the entry of the transaction. -/
def debufferTxn (queue : List T) (t : T) : Option (List T) :=
  if t ∈ queue then some (queue.erase t) else none

/-- `debuffer_req(type, ts)`: the entries up to a timestamp. -/
def debufferTs {α : Type} (key : α → Nat) (queue : List α) (ts : Nat) : List α :=
  (queue.filter fun e => decide (key e ≤ ts)).reverse

/-- What it leaves. -/
def remaining {α : Type} (key : α → Nat) (queue : List α) (ts : Nat) : List α :=
  queue.filter fun e => !decide (key e ≤ ts)

/-- The answer to an announcement takes it out; then the buffer is updated. -/
def RowTs.debufferP (s : RowTs T D) (t : T) : RowTs T D :=
  match debufferTxn s.prereq t with
  | none => { s with phase := .failed }
  | some prereq => { s with prereq := prereq, phase := .updating }

/-- `TsType`, with the row of a `W_REQ`. -/
inductive Request (D : Type) where
  | rReq | pReq | xpReq
  | wReq (row : D)

section Access

variable (S : Stamps T)

/-- `buffer_req(R_REQ, txn, NULL)`. -/
def RowTs.bufferR (s : RowTs T D) (t : T) : RowTs T D :=
  { s with readreq := t :: s.readreq, minRts := if S.ts t < s.minRts then S.ts t else s.minRts }

/-- `buffer_req(P_REQ, txn, NULL)`. -/
def RowTs.bufferP (s : RowTs T D) (t : T) : RowTs T D :=
  { s with prereq := t :: s.prereq, minPts := if S.ts t < s.minPts then S.ts t else s.minPts }

/-- `buffer_req(W_REQ, txn, row)`. -/
def RowTs.bufferW (s : RowTs T D) (t : T) (row : D) : RowTs T D :=
  { s with writereq := (t, row) :: s.writereq }

/-- `Row_ts::access`, with `TS_TWR` off, up to its call of `update_buffer`. -/
def RowTs.access (s : RowTs T D) (t : T) : Request D → RC × RowTs T D
  | .rReq =>
      if S.ts t < s.wts then (.abort, s)
      else if s.minPts < S.ts t then
        (.wait, { s.bufferR S t with tsReady := Function.update s.tsReady t false })
      else
        (.rcok, { s with
          curRow := Function.update s.curRow t s.row
          rts := if s.rts < S.ts t then S.ts t else s.rts })
  | .pReq =>
      if S.ts t < s.rts then (.abort, s)
      else if S.ts t < s.wts then (.abort, s)
      else (.rcok, s.bufferP S t)
  | .wReq row =>
      if s.minPts < S.ts t then (.rcok, s.bufferW t row)
      else if s.minRts < S.ts t then (.rcok, s.bufferW t row)
      else
        (.rcok, RowTs.debufferP { s with
          row := row
          wts := if s.wts < S.ts t then S.ts t else s.wts } t)
  | .xpReq => (.rcok, s.debufferP t)

/-- A waiting read is performed. -/
def RowTs.serve (s : RowTs T D) (t : T) : RowTs T D :=
  { s with
    curRow := Function.update s.curRow t s.row
    rts := if s.rts < S.ts t then S.ts t else s.rts
    tsReady := Function.update s.tsReady t true }

/-- `young_req`: the write with the smallest timestamp. -/
def young (writes : List (T × D)) : Option (T × D) :=
  (writes.foldl (fun (best : Nat × Option (T × D)) w =>
    if S.ts w.1 < best.1 then (S.ts w.1, some w) else best) (uint64Max, none)).2

/-- The writes that are ready: their announcements are taken out, and one of them is performed. -/
def RowTs.applyWrites (s : RowTs T D) (writes : List (T × D)) : RowTs T D :=
  match writes.foldlM (fun prereq w => debufferTxn prereq w.1) s.prereq, young S writes with
  | some prereq, some w =>
      { s with
        prereq := prereq
        row := w.2
        wts := if s.wts < S.ts w.1 then S.ts w.1 else s.wts }
  | _, _ => { s with phase := .failed }

/-- The part of a round behind the reads. -/
def RowTs.roundWrites (s : RowTs T D) : RowTs T D :=
  let newMinRts := calMin (s.readreq.map S.ts)
  if s.minRts < newMinRts then
    let ready := debufferTs (fun w => S.ts w.1) s.writereq newMinRts
    let s := { s with
      minRts := newMinRts
      writereq := remaining (fun w => S.ts w.1) s.writereq newMinRts }
    if ready.isEmpty then { s with phase := .idle } else s.applyWrites S ready
  else { s with phase := .idle }

/-- One round of the loop of `update_buffer`. -/
def RowTs.round (s : RowTs T D) : RowTs T D :=
  let newMinPts := calMin (s.prereq.map S.ts)
  if newMinPts < s.minPts then { s with phase := .failed }
  else if s.minPts < newMinPts then
    let ready := debufferTs S.ts s.readreq newMinPts
    let s := { s with
      minPts := newMinPts
      readreq := remaining S.ts s.readreq newMinPts }
    if ready.isEmpty then { s with phase := .idle }
    else RowTs.roundWrites S (ready.foldl (RowTs.serve S) s)
  else { s with phase := .idle }

end Access

/-! ### The row and its callers -/

/-- What has become of the announcement of a transaction. -/
inductive Pre (D : Type) where
  | fresh
  | accepted
  | written (row : D)
  | cancelled

def Pre.isFresh : Pre D → Bool
  | .fresh => true
  | _ => false

def Pre.isAccepted : Pre D → Bool
  | .accepted => true
  | _ => false

structure Sys (T D : Type) where
  row : RowTs T D
  pre : T → Pre D

inductive Action (T D : Type) where
  | request (t : T) (req : Request D)
  | round

/-- A transaction announces a write once; it answers an announcement that was accepted. -/
def Request.allowed (pre : Pre D) : Request D → Bool
  | .rReq => true
  | .pReq => pre.isFresh
  | .wReq _ | .xpReq => pre.isAccepted

def Request.answer (pre : Pre D) (rc : RC) : Request D → Pre D
  | .rReq => pre
  | .pReq => if rc = .rcok then .accepted else pre
  | .wReq row => .written row
  | .xpReq => .cancelled

def Sys.init (row : D) (curRow : T → D) : Sys T D := ⟨RowTs.init row curRow, fun _ => .fresh⟩

def Sys.step (S : Stamps T) (s : Sys T D) : Action T D → Option (Sys T D)
  | .request t req =>
      if s.row.phase = .idle ∧ req.allowed (s.pre t) = true then
        let result := s.row.access S t req
        some ⟨result.2, Function.update s.pre t (req.answer (s.pre t) result.1)⟩
      else none
  | .round => if s.row.phase = .updating then some { s with row := s.row.round S } else none

/-! ### The minima of the queues -/

theorem foldl_min_spec (queue : List Nat) (m : Nat) :
    (queue.foldl (fun m ts => if ts < m then ts else m) m = m ∨
      queue.foldl (fun m ts => if ts < m then ts else m) m ∈ queue) ∧
    queue.foldl (fun m ts => if ts < m then ts else m) m ≤ m ∧
    ∀ ts ∈ queue, queue.foldl (fun m ts => if ts < m then ts else m) m ≤ ts := by
  induction queue generalizing m with
  | nil => exact ⟨.inl rfl, Nat.le_refl _, fun _ h => (List.not_mem_nil h).elim⟩
  | cons x queue ih =>
      rw [List.foldl_cons]
      obtain ⟨hmem, hle, hall⟩ := ih (if x < m then x else m)
      have hfirst : (if x < m then x else m) ≤ x ∧ (if x < m then x else m) ≤ m := by
        split <;> omega
      refine ⟨?_, hle.trans hfirst.2, ?_⟩
      · rcases hmem with hmem | hmem
        · rw [hmem]
          split
          · exact .inr (List.mem_cons_self ..)
          · exact .inl rfl
        · exact .inr (List.mem_cons_of_mem _ hmem)
      · intro ts hts
        rcases List.mem_cons.mp hts with rfl | hts
        · exact hle.trans hfirst.1
        · exact hall ts hts

theorem calMin_le {queue : List Nat} {ts : Nat} (h : ts ∈ queue) : calMin queue ≤ ts :=
  (foldl_min_spec queue uint64Max).2.2 ts h

theorem calMin_le_max (queue : List Nat) : calMin queue ≤ uint64Max :=
  (foldl_min_spec queue uint64Max).2.1

theorem calMin_mem {queue : List Nat} (h : calMin queue < uint64Max) : calMin queue ∈ queue :=
  (foldl_min_spec queue uint64Max).1.resolve_left h.ne

/-- What is at most the entries and the mark of an empty queue is at most the minimum. -/
theorem le_calMin {queue : List Nat} {x : Nat} (hmax : x ≤ uint64Max) (h : ∀ ts ∈ queue, x ≤ ts) :
    x ≤ calMin queue := by
  rcases (foldl_min_spec queue uint64Max).1 with heq | hmem
  · exact hmax.trans_eq heq.symm
  · exact h _ hmem

theorem calMin_cons (ts : Nat) (queue : List Nat) (hlt : ts < uint64Max) :
    calMin (ts :: queue) = if ts < calMin queue then ts else calMin queue := by
  have hself := calMin_le (List.mem_cons_self (a := ts) (l := queue))
  have hle : calMin (ts :: queue) ≤ calMin queue := by
    rcases (foldl_min_spec queue uint64Max).1 with heq | hmem
    · exact (calMin_le_max _).trans_eq heq.symm
    · exact calMin_le (List.mem_cons_of_mem _ hmem)
  have hmem := calMin_mem (hself.trans_lt hlt)
  split
  · rename_i hts
    rcases List.mem_cons.mp hmem with heq | hmem
    · exact heq
    · have := calMin_le hmem
      omega
  · rename_i hts
    rcases List.mem_cons.mp hmem with heq | hmem
    · omega
    · exact Nat.le_antisymm hle (calMin_le hmem)

section Queues

variable {α : Type} {key : α → Nat} {queue : List α} {ts : Nat}

@[simp] theorem mem_debufferTs {e : α} : e ∈ debufferTs key queue ts ↔ e ∈ queue ∧ key e ≤ ts := by
  simp [debufferTs]

@[simp] theorem mem_remaining {e : α} : e ∈ remaining key queue ts ↔ e ∈ queue ∧ ts < key e := by
  simp [remaining]

theorem lt_of_debufferTs_isEmpty (h : (debufferTs key queue ts).isEmpty = true) :
    ∀ e ∈ queue, ts < key e := by
  intro e he
  by_contra hle
  have hmem : e ∈ debufferTs key queue ts := mem_debufferTs.mpr ⟨he, Nat.le_of_not_lt hle⟩
  rw [List.isEmpty_iff.mp h] at hmem
  exact List.not_mem_nil hmem

theorem remaining_eq_self (h : ∀ e ∈ queue, ts < key e) : remaining key queue ts = queue := by
  rw [remaining, List.filter_eq_self]
  intro e he
  simpa using h e he

end Queues

/-- The announcements of several transactions are taken out, one after the other. -/
theorem debufferTxn_foldlM {writes : List (T × D)} {prereq : List T} (hnodup : prereq.Nodup)
    (hwrites : (writes.map Prod.fst).Nodup) (hmem : ∀ w ∈ writes, w.1 ∈ prereq) :
    ∃ rest, writes.foldlM (fun prereq w => debufferTxn prereq w.1) prereq = some rest ∧
      rest.Nodup ∧ ∀ t, t ∈ rest ↔ t ∈ prereq ∧ t ∉ writes.map Prod.fst := by
  induction writes generalizing prereq with
  | nil => exact ⟨prereq, rfl, hnodup, fun t => by simp⟩
  | cons w writes ih =>
      have hw := hmem w (List.mem_cons_self ..)
      rw [List.map_cons, List.nodup_cons] at hwrites
      have hrest : ∀ w' ∈ writes, w'.1 ∈ prereq.erase w.1 := by
        intro w' hw'
        rw [hnodup.mem_erase_iff]
        refine ⟨fun heq => hwrites.1 ?_, hmem w' (List.mem_cons_of_mem _ hw')⟩
        exact heq ▸ List.mem_map_of_mem hw'
      obtain ⟨rest, hfold, hnodup', hiff⟩ := ih (hnodup.erase w.1) hwrites.2 hrest
      refine ⟨rest, ?_, hnodup', fun t => ?_⟩
      · rw [List.foldlM_cons, debufferTxn, if_pos hw]
        exact hfold
      · rw [hiff, hnodup.mem_erase_iff, List.map_cons, List.mem_cons]
        tauto

omit [DecidableEq T] in
/-- Some write is the youngest. -/
theorem young_isSome (S : Stamps T) {writes : List (T × D)} (hne : writes ≠ []) :
    ∃ w ∈ writes, young S writes = some w := by
  -- the best so far is one of those seen, or nothing has been seen
  have hfold : ∀ (ws : List (T × D)) (best : Nat × Option (T × D)),
      (∃ w, best.2 = some w) ∨ best.1 = uint64Max ∧ ws ≠ [] →
      ∃ w, (ws.foldl (fun (best : Nat × Option (T × D)) w =>
        if S.ts w.1 < best.1 then (S.ts w.1, some w) else best) best).2 = some w ∧
        (w ∈ ws ∨ best.2 = some w) := by
    intro ws
    induction ws with
    | nil =>
        rintro best (⟨w, hw⟩ | ⟨-, hne⟩)
        · exact ⟨w, hw, .inr hw⟩
        · exact absurd rfl hne
    | cons x ws ih =>
        intro best hbest
        rw [List.foldl_cons]
        split
        · obtain ⟨w, hw, hmem⟩ := ih (S.ts x.1, some x) (.inl ⟨x, rfl⟩)
          refine ⟨w, hw, .inl ?_⟩
          rcases hmem with hmem | hmem
          · exact List.mem_cons_of_mem _ hmem
          · cases hmem
            exact List.mem_cons_self ..
        · rename_i hx
          have hsome : ∃ w, best.2 = some w := by
            rcases hbest with hbest | ⟨hbest, -⟩
            · exact hbest
            · exact absurd (hbest ▸ S.lt_max x.1) hx
          obtain ⟨w, hw, hmem⟩ := ih best (.inl hsome)
          exact ⟨w, hw, hmem.imp_left (List.mem_cons_of_mem _)⟩
  obtain ⟨w, hw, hmem⟩ := hfold writes (uint64Max, none) (.inr ⟨rfl, hne⟩)
  rcases hmem with hmem | hmem
  · exact ⟨w, hmem, hw⟩
  · cases hmem

end VeriTxn.Timestamp
