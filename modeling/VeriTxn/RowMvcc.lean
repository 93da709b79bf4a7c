import Mathlib.Data.List.Nodup
import Mathlib.Logic.Function.Basic
import Mathlib.Order.Nat
import VeriTxn.RowTs

/-!
# The versions of one row under multiversion timestamp ordering

`Row_mvcc` keeps the newest versions of a row in `_write_history`, an array without an order, and
one older version in `_row`.  At most one write is announced (`P_REQ`) at a time and not yet
answered (`W_REQ` or `XP_REQ`); requests with a larger timestamp wait in `_requests`, and
`update_buffer` serves them when the announced write is answered.

Rows are addresses into a memory `data`, since versions are handed out as pointers and their rows
are used again for later versions.  The latch is held during a whole call and is left out.
`get_min_ts` of the enclave's manager has no body in this build, so what it returns is an input of
every call.
-/

namespace VeriTxn.Mvcc

open Timestamp

/-! ### The history -/

/-- An entry of `_write_history`; `row` is none for a null pointer. -/
structure WriteHisEntry where
  valid : Bool
  reserved : Bool
  ts : Nat
  row : Option Nat
deriving DecidableEq, Repr

/-- What `reserveRow` works on.  `prewriteTs` and `prewriteHisId` are read only while there is a
    prewrite; `nextRow` is the next address that the allocator returns. -/
structure History where
  row : Nat
  oldestWts : Nat
  entries : List WriteHisEntry
  numVersions : Nat
  existsPrewrite : Bool
  prewriteTs : Nat
  prewriteHisId : Nat
  nextRow : Nat
deriving DecidableEq, Repr

def History.hisLen (h : History) : Nat := h.entries.length

/-- An entry as `init` and `double_list` leave it. -/
def WriteHisEntry.unused : WriteHisEntry := ⟨false, false, 0, none⟩

def History.init : History := ⟨0, 0, .replicate 4 .unused, 0, false, 0, 0, 1⟩

/-- The loops over the history that keep the best entry: `best` is the timestamp of the best one so
    far, as it is stored (`cast`), and its place. -/
def scan (cand : WriteHisEntry → Bool) (better : Nat → Nat → Bool) (cast : Nat → Nat) :
    Nat → Nat × Option Nat → List WriteHisEntry → Nat × Option Nat
  | _, best, [] => best
  | i, best, e :: es =>
      scan cand better cast (i + 1)
        (if cand e && better e.ts best.1 then (cast e.ts, some i) else best) es

/-- The valid entry with the greatest timestamp below a bound. -/
def newestBelow (cast : Nat → Nat) (bound : Nat) (es : List WriteHisEntry) : Nat × Option Nat :=
  scan (fun e => e.valid && decide (e.ts < bound)) (fun ts best => decide (best < ts)) cast 0
    (0, none) es

/-- The valid entry with the smallest timestamp. -/
def oldestEntry (es : List WriteHisEntry) : Nat × Option Nat :=
  scan (fun e => e.valid) (fun ts best => decide (ts < best)) id 0 (uint64Max, none) es

/-- Whether garbage collection up to `maxRecycleTs` drops the entry. -/
def WriteHisEntry.stale (maxRecycleTs : Nat) (e : WriteHisEntry) : Bool :=
  e.valid && decide (e.ts ≤ maxRecycleTs)

def WriteHisEntry.drop (maxRecycleTs : Nat) (e : WriteHisEntry) : WriteHisEntry :=
  if e.stale maxRecycleTs then { e with valid := false, reserved := false } else e

/-- The garbage collection of `reserveRow`.  None stands for an assertion that fails, here and
    below. -/
def History.collect (h : History) (minTs : Nat) : Option History :=
  if h.oldestWts < minTs ∧ h.numVersions = h.hisLen then
    match newestBelow id minTs h.entries with
    | (_, none) => some h
    | (maxRecycleTs, some idx) => do
        let e ← h.entries[idx]?
        let row ← e.row
        let es := h.entries.set idx { e with row := some h.row }
        if es.all fun e => !e.stale maxRecycleTs || e.row.isSome then
          some { h with
            row := row
            oldestWts := maxRecycleTs
            entries := es.map (·.drop maxRecycleTs)
            numVersions := h.numVersions - es.countP (·.stale maxRecycleTs) }
        else none
  else some h

/-- The search for an unused entry: the first one with a row, else the last one without. -/
def unusedEntry : Nat → Nat → List WriteHisEntry → Nat
  | _, idx, [] => idx
  | i, idx, e :: es =>
      if !e.valid && !e.reserved && e.row.isSome then i
      else if !e.valid && !e.reserved then unusedEntry (i + 1) i es
      else unusedEntry (i + 1) idx es

/-- All entries are taken: the row of the base version is used again, and the oldest version
    becomes the base. -/
def History.recycleOldest (h : History) : Option (History × Nat) :=
  match oldestEntry h.entries with
  | (_, none) => none
  | (minTs, some idx) => do
      let e ← h.entries[idx]?
      let row ← e.row
      if h.oldestWts < minTs then
        some ({ h with
          row := row
          oldestWts := minTs
          entries := h.entries.set idx { e with row := some h.row }
          numVersions := h.numVersions - 1 }, idx)
      else none

/-- `double_list(0)`. -/
def History.doubleList (h : History) : History :=
  { h with entries := h.entries ++ .replicate h.hisLen .unused }

/-- Where the new version goes. -/
def History.place (h : History) (threadCnt : Nat) : Option (History × Nat) :=
  if h.numVersions < h.hisLen then
    let idx := unusedEntry 0 h.hisLen h.entries
    if idx < h.hisLen then some (h, idx) else none
  else if threadCnt ≤ h.hisLen then h.recycleOldest
  else some (h.doubleList, h.hisLen)

/-- The entry is marked, with a new row if it has none. -/
def History.mark (h : History) (idx ts : Nat) : Option (History × Nat) := do
  let e ← h.entries[idx]?
  let row := e.row.getD h.nextRow
  some ({ h with
    entries := h.entries.set idx ⟨false, true, ts, some row⟩
    nextRow := if e.row.isSome then h.nextRow else h.nextRow + 1
    existsPrewrite := true
    prewriteTs := ts
    prewriteHisId := idx }, row)

def History.reserveRow (h : History) (threadCnt minTs ts : Nat) : Option (History × Nat) :=
  if h.existsPrewrite then none
  else do
    let collected ← h.collect minTs
    let (placed, idx) ← collected.place threadCnt
    placed.mark idx ts

/-! ### Requests -/

inductive ReqType where
  | rReq | pReq
deriving DecidableEq, Repr

structure ReqEntry (T : Type) where
  type : ReqType
  ts : Nat
  txn : T
deriving DecidableEq, Repr

/-- A row given to a transaction, with what it held then. -/
structure Handed (T D : Type) where
  txn : T
  type : ReqType
  row : Nat
  data : D

/-- The row.  An entry of `_requests` that is not valid is none.  `curRow` and `tsReady` are the
    fields of the transactions, and `handed` records every assignment of `cur_row`. -/
structure RowMvcc (T D : Type) where
  his : History
  latestRow : Nat
  latestWts : Nat
  maxServedRts : Nat
  requests : List (Option (ReqEntry T))
  data : Nat → D
  curRow : T → Option Nat
  tsReady : T → Bool
  handed : List (Handed T D)

variable {T D : Type} [DecidableEq T]

/-- `Row_mvcc::init`, with the row at address 0. -/
def RowMvcc.init (data : Nat → D) : RowMvcc T D :=
  ⟨.init, 0, 0, 0, .replicate 4 none, data, fun _ => none, fun _ => true, []⟩

/-- The first entry of `_requests` that is free takes the request; when none is, the list is
    doubled. -/
def bufferReq (q : ReqEntry T) (requests : List (Option (ReqEntry T))) :
    List (Option (ReqEntry T)) :=
  match requests.findIdx? Option.isNone with
  | some i => requests.set i (some q)
  | none => requests ++ some q :: .replicate (requests.length - 1) none

def RowMvcc.hand (s : RowMvcc T D) (t : T) (type : ReqType) (row : Nat) : RowMvcc T D :=
  { s with
    curRow := Function.update s.curRow t (some row)
    handed := ⟨t, type, row, s.data row⟩ :: s.handed }

def RowMvcc.ready (s : RowMvcc T D) (t : T) : RowMvcc T D :=
  { s with tsReady := Function.update s.tsReady t true }

/-- `buffer_req` and `ts_ready = false`. -/
def RowMvcc.wait (s : RowMvcc T D) (type : ReqType) (ts : Nat) (t : T) : RowMvcc T D :=
  { s with
    requests := bufferReq ⟨type, ts, t⟩ s.requests
    tsReady := Function.update s.tsReady t false }

def RowMvcc.serveRts (s : RowMvcc T D) (ts : Nat) : RowMvcc T D :=
  { s with maxServedRts := if s.maxServedRts < ts then ts else s.maxServedRts }

/-- A row is reserved and gets a copy of the latest version. -/
def RowMvcc.grant (s : RowMvcc T D) (threadCnt minTs ts : Nat) (t : T) : Option (RowMvcc T D) := do
  let (his, row) ← s.his.reserveRow threadCnt minTs ts
  some ({ s with his := his, data := Function.update s.data row (s.data s.latestRow) }.hand
    t .pReq row)

/-- `access` with `R_REQ`.  The loop for an older version keeps its timestamp in 32 bits. -/
def RowMvcc.read (s : RowMvcc T D) (ts : Nat) (t : T) : Option (RC × RowMvcc T D) :=
  if ts < s.his.oldestWts then some (.abort, s)
  else if s.latestWts < ts then
    if s.his.existsPrewrite ∧ s.his.prewriteTs < ts then some (.wait, s.wait .rReq ts t)
    else some (.rcok, (s.hand t .rReq s.latestRow).serveRts ts)
  else
    match newestBelow (· % 2 ^ 32) ts s.his.entries with
    | (_, none) => some (.rcok, s.hand t .rReq s.his.row)
    | (_, some i) => do
        let e ← s.his.entries[i]?
        let row ← e.row
        some (.rcok, s.hand t .rReq row)

/-- `access` with `P_REQ`. -/
def RowMvcc.prewrite (s : RowMvcc T D) (threadCnt minTs ts : Nat) (t : T) :
    Option (RC × RowMvcc T D) :=
  if ts < s.latestWts ∨ ts < s.maxServedRts ∨ (s.his.existsPrewrite ∧ ts < s.his.prewriteTs) then
    some (.abort, s)
  else if s.his.existsPrewrite then some (.wait, s.wait .pReq ts t)
  else (s.grant threadCnt minTs ts t).map fun s => (.rcok, s)

/-- One round of the first loop of `update_buffer`. -/
def nextPre (ts next : Nat) : Option (ReqEntry T) → Nat
  | some q => if q.type = .pReq ∧ ts < q.ts ∧ q.ts < next then q.ts else next
  | none => next

/-- The timestamp of the next pending `P_REQ`. -/
def nextPreTs (ts : Nat) (requests : List (Option (ReqEntry T))) : Nat :=
  requests.foldl (nextPre ts) uint64Max

/-- One pass of the second loop of `update_buffer`. -/
def RowMvcc.serve (s : RowMvcc T D) (threadCnt minTs ts next : Nat) :
    Option (ReqEntry T) → Option (RowMvcc T D × Option (ReqEntry T))
  | none => some (s, none)
  | some q =>
      if q.ts ≤ ts then none
      else if q.type = .rReq ∧ q.ts < next then
        some (((s.serveRts q.ts).hand q.txn .rReq s.latestRow).ready q.txn, none)
      else if q.ts = next then
        if q.type = .pReq then
          (s.grant threadCnt minTs q.ts q.txn).map fun s => (s.ready q.txn, none)
        else none
      else some (s, some q)

def serveAll (threadCnt minTs ts next : Nat) :
    List (Option (ReqEntry T)) → RowMvcc T D → Option (RowMvcc T D × List (Option (ReqEntry T)))
  | [], s => some (s, [])
  | r :: rs, s => do
      let (served, r') ← s.serve threadCnt minTs ts next r
      let (rest, rs') ← serveAll threadCnt minTs ts next rs served
      some (rest, r' :: rs')

def RowMvcc.updateBuffer (s : RowMvcc T D) (threadCnt minTs ts : Nat) : Option (RowMvcc T D) := do
  let (served, requests) ← serveAll threadCnt minTs ts (nextPreTs ts s.requests) s.requests s
  some { served with requests := requests }

/-- `access` with `W_REQ`. -/
def RowMvcc.write (s : RowMvcc T D) (threadCnt minTs ts : Nat) (row : Nat) :
    Option (RowMvcc T D) := do
  let e ← s.his.entries[s.his.prewriteHisId]?
  if s.latestWts < ts ∧ e.row = some row then
    RowMvcc.updateBuffer { s with
      his := { s.his with
        entries := s.his.entries.set s.his.prewriteHisId { e with valid := true, ts := ts }
        existsPrewrite := false
        numVersions := s.his.numVersions + 1 }
      latestWts := ts
      latestRow := row } threadCnt minTs ts
  else none

/-- `access` with `XP_REQ`. -/
def RowMvcc.cancel (s : RowMvcc T D) (threadCnt minTs ts : Nat) (row : Nat) :
    Option (RowMvcc T D) := do
  let e ← s.his.entries[s.his.prewriteHisId]?
  if e.row = some row then
    RowMvcc.updateBuffer { s with
      his := { s.his with
        entries := s.his.entries.set s.his.prewriteHisId { e with valid := false, reserved := false }
        existsPrewrite := false } } threadCnt minTs ts
  else none

/-! ### The row and its callers -/

/-- The timestamps: `0` is the base version's. -/
structure MvStamps (T : Type) extends Stamps T where
  pos : ∀ t, 0 < ts t

/-- Where a transaction is with the row. -/
inductive Phase where
  | idle
  /-- its `R_REQ` waits -/
  | reading
  /-- its `P_REQ` waits -/
  | prewaiting
  /-- it has a row to write -/
  | prewriting
  | done
deriving DecidableEq, Repr

/-- `versions` records the contents of every write that was answered with `W_REQ`, the newest
    first, down to the base version. -/
structure Sys (T D : Type) where
  row : RowMvcc T D
  phase : T → Phase
  versions : List (Nat × D)

inductive Action (T D : Type) where
  | read (t : T)
  | prewrite (t : T) (minTs : Nat)
  /-- the caller leaves its loop on `ts_ready` -/
  | wake (t : T)
  /-- the transaction writes into its row -/
  | store (t : T) (d : D)
  | write (t : T) (minTs : Nat)
  | cancel (t : T) (minTs : Nat)
  /-- the transaction ends without a write -/
  | finish (t : T)

def Sys.init (data : Nat → D) : Sys T D := ⟨.init data, fun _ => .idle, [(0, data 0)]⟩

/-- A transaction reads as often as it likes, but asks for a row to write at most once; then it
    answers with that row. -/
def Action.allowed (s : Sys T D) : Action T D → Bool
  | .read t | .prewrite t _ | .finish t => decide (s.phase t = .idle)
  | .wake t =>
      s.row.tsReady t && (decide (s.phase t = .reading) || decide (s.phase t = .prewaiting))
  | .store t _ | .write t _ | .cancel t _ => decide (s.phase t = .prewriting)

def Sys.goto (s : Sys T D) (t : T) (phase : Phase) : Sys T D :=
  { s with phase := Function.update s.phase t phase }

/-- Where a request leaves its transaction. -/
def ReqType.next (type : ReqType) : RC → Phase
  | .wait => if type = .rReq then .reading else .prewaiting
  | .rcok => if type = .rReq then .idle else .prewriting
  | _ => .done

def Action.apply (S : MvStamps T) (threadCnt : Nat) (s : Sys T D) : Action T D → Option (Sys T D)
  | .read t =>
      (s.row.read (S.ts t) t).map fun (rc, row) => { s with row := row }.goto t (ReqType.rReq.next rc)
  | .prewrite t minTs =>
      (s.row.prewrite threadCnt minTs (S.ts t) t).map fun (rc, row) =>
        { s with row := row }.goto t (ReqType.pReq.next rc)
  | .wake t => some (s.goto t (if s.phase t = .reading then .idle else .prewriting))
  | .store t d =>
      (s.row.curRow t).map fun row =>
        { s with row := { s.row with data := Function.update s.row.data row d } }
  | .write t minTs => do
      let own ← s.row.curRow t
      let row ← s.row.write threadCnt minTs (S.ts t) own
      some ({ s with row := row, versions := (S.ts t, s.row.data own) :: s.versions }.goto t .done)
  | .cancel t minTs => do
      let own ← s.row.curRow t
      let row ← s.row.cancel threadCnt minTs (S.ts t) own
      some ({ s with row := row }.goto t .done)
  | .finish t => some (s.goto t .done)

def step (S : MvStamps T) (threadCnt : Nat) (s : Sys T D) (a : Action T D) : Option (Sys T D) :=
  if a.allowed s then a.apply S threadCnt s else none

end VeriTxn.Mvcc
