import VeriTxn.DepthFirst
import Mathlib

/-!
# The deadlock detector

`DL_detect` keeps, for each thread, the transaction that waits there, the locks it holds and the
transactions it waits for.  `detect_cycle` searches depth-first for a loop of waiting transactions
and sets `lock_abort` on the one of the loop with the fewest locks.

Nothing else runs during the search, so the mutexes are left out.  `visited` and `recStack` are
cleared for `V` threads, whatever was allocated for them, so the search has a parameter for that.
-/

namespace VeriTxn.Deadlocks

open Relation DepthFirst

variable {V : Nat} [NeZero V]

/-- `get_thdid_from_txnid`. -/
def getThdid (txnid : UInt64) : Fin V := Fin.ofNat V txnid.toNat

/-- `DepThd`. -/
structure DepThd where
  adj : List UInt64
  txnid : Int64
  numLocks : Int

/-- `DL_detect` with `g_no_dl_enc`. -/
structure DlDetect (V : Nat) where
  noDl : Bool
  dependency : Fin V → DepThd

/-- `DetectData`. -/
structure DetectData (V : Nat) where
  visited : Fin V → Bool
  recStack : Fin V → Bool
  loop : Bool
  onloop : Bool
  loopstart : Int
  minLockNum : Int
  minTxnid : UInt64
deriving Inhabited

/-- `add_dep`. -/
def addDep (dl : DlDetect V) (txnid1 : UInt64) (txnids : List UInt64) (numLocks : Int) :
    DlDetect V :=
  if dl.noDl then dl
  else
    let thd1 := getThdid txnid1
    let dep : DepThd := ⟨(dl.dependency thd1).adj ++ txnids, txnid1.toInt64, numLocks⟩
    { dl with dependency := Function.update dl.dependency thd1 dep }

/-- `clear_dep`. -/
def clearDep (dl : DlDetect V) (txnid : UInt64) : DlDetect V :=
  if dl.noDl then dl
  else { dl with dependency := Function.update dl.dependency (getThdid txnid) ⟨[], -1, 0⟩ }

/-- `dependency[..].txnid == (SInt64) txnid`. -/
def current (dep : Fin V → DepThd) (txnid : UInt64) : Bool :=
  (dep (getThdid txnid)).txnid = txnid.toInt64

/-- `(SInt32) txnid == dependency[..].txnid`. -/
def recognised (dep : Fin V → DepThd) (txnid : UInt64) : Bool :=
  txnid.toUInt32.toInt32.toInt64 = (dep (getThdid txnid)).txnid

/-- The loop of `nextNode` over the ids its thread waits for; `next` is the recursive call. -/
def forTxnids (dep : Fin V → DepThd)
    (next : UInt64 → DetectData V → Option (Bool × DetectData V)) :
    List UInt64 → DetectData V → Option (DetectData V)
  | [], d => some d
  | txnid :: txnids, d =>
      let nextthd : Fin V := getThdid txnid
      if d.recStack nextthd && recognised dep txnid then
        some { d with loop := true, onloop := true, loopstart := nextthd.val }
      else if !d.visited nextthd && current dep txnid then
        (next txnid d).bind fun r =>
          if r.1 then some r.2 else forTxnids dep next txnids r.2
      else
        forTxnids dep next txnids d

/-- `nextNode` before its loop. -/
def enter (thd : Fin V) (d : DetectData V) : DetectData V :=
  { d with
      visited := Function.update d.visited thd true
      recStack := Function.update d.recStack thd true }

/-- `nextNode` after its loop. -/
def leave (dep : Fin V → DepThd) (thd : Fin V) (txnid : UInt64) (d : DetectData V) :
    DetectData V :=
  let fewer := d.loop && d.onloop && (dep thd).numLocks < d.minLockNum
  { d with
      recStack := Function.update d.recStack thd false
      minLockNum := if fewer then (dep thd).numLocks else d.minLockNum
      minTxnid := if fewer then txnid else d.minTxnid
      onloop := if (thd.val : Int) = d.loopstart then false else d.onloop }

/-- `nextNode`; `none` when the assertion fails or the fuel is used up. -/
def nextNode (dep : Fin V → DepThd) : Nat → UInt64 → DetectData V → Option (Bool × DetectData V)
  | 0, _, _ => none
  | n + 1, txnid, d =>
      let thd : Fin V := getThdid txnid
      if d.visited thd then none
      else if current dep txnid then
        (forTxnids dep (nextNode dep n) (dep thd).adj (enter thd d)).map fun d =>
          let d := leave dep thd txnid d
          (d.loop, d)
      else
        let d := enter thd d
        some (false, { d with recStack := Function.update d.recStack thd false })

/-- `detect_data` as `detect_cycle` sets it up; `malloc` leaves the contents of `fresh`. -/
def DetectData.start (fresh : DetectData V) : DetectData V :=
  { fresh with
      visited := fun _ => false
      recStack := fun _ => false
      minLockNum := 1000
      minTxnid := -1
      loop := false }

/-- `detect_cycle`, with the `lock_abort` flags of the threads' transactions.  `room` is what an
    allocation of `sizeof(bool)` gives for each of the two arrays: one byte, or as many more as
    the allocator rounds it up to.  Clearing them writes `V` entries into each. -/
def detectCycle (room : Nat) (dl : DlDetect V) (fresh : DetectData V) (lockAbort : Fin V → Bool)
    (txnid : UInt64) : Option (Int × (Fin V → Bool)) :=
  if dl.noDl then some (0, lockAbort)
  else if room < V then none
  else
    (nextNode dl.dependency V txnid fresh.start).map fun r =>
      if r.1 then
        let thdToAbort : Fin V := getThdid r.2.minTxnid
        if current dl.dependency r.2.minTxnid then
          (1, Function.update lockAbort thdToAbort true)
        else (1, lockAbort)
      else (0, lockAbort)

/-! ### The waits-for graph -/

/-- The detector after `init` and any calls of `add_dep` and `clear_dep`, with lock counts below
    1000.  `init` leaves `txnid` and `num_locks` unset. -/
inductive Stored : DlDetect V → Prop where
  | init (noDl : Bool) (dependency : Fin V → DepThd) (hadj : ∀ k, (dependency k).adj = []) :
      Stored ⟨noDl, dependency⟩
  | addDep {dl} (txnid1 txnids numLocks) (hlocks : numLocks < 1000) (h : Stored dl) :
      Stored (addDep dl txnid1 txnids numLocks)
  | clearDep {dl} (txnid) (h : Stored dl) : Stored (clearDep dl txnid)

/-- The stored transaction `x` waits for the stored transaction `y`. -/
structure Waits (dl : DlDetect V) (x y : UInt64) : Prop where
  waiting : current dl.dependency x
  mem_adj : y ∈ (dl.dependency (getThdid x)).adj
  stored : current dl.dependency y

/-- A cycle of current edges in reach of `t`. -/
structure Deadlock (dl : DlDetect V) (t : UInt64) (c : List UInt64) : Prop where
  ne_nil : c ≠ []
  nodup : c.Nodup
  chain : c.IsChain (Waits dl)
  closes : ∀ x ∈ c.getLast?, ∀ y ∈ c.head?, Waits dl x y
  reach : ∀ x ∈ c, ReflTransGen (Waits dl) t x

def locks (dl : DlDetect V) (x : UInt64) : Int := (dl.dependency (getThdid x)).numLocks

/-- `x` lies on a deadlock and holds the fewest locks of its transactions. -/
def Victim (dl : DlDetect V) (t x : UInt64) : Prop :=
  ∃ c, Deadlock dl t c ∧ x ∈ c ∧ ∀ y ∈ c, locks dl x ≤ locks dl y

/-- `detect_cycle` returns 1 exactly when there is a deadlock, and sets the flag of a victim. -/
def Exact (room : Nat) (dl : DlDetect V) (t : UInt64) : Prop :=
  ∀ fresh lockAbort, ∃ ret lockAbort',
    detectCycle room dl fresh lockAbort t = some (ret, lockAbort') ∧ (ret = 0 ∨ ret = 1) ∧
    (ret = 1 ↔ ∃ c, Deadlock dl t c) ∧ (ret = 0 → lockAbort' = lockAbort) ∧
    (ret = 1 → ∃ x, Victim dl t x ∧ lockAbort' = Function.update lockAbort (getThdid x) true)

/-- The threads and the ids they wait for. -/
def waitGraph (dl : DlDetect V) : EdgeLists (Fin V) UInt64 where
  edges k := (dl.dependency k).adj
  target := getThdid
  live := current dl.dependency

@[simp] theorem waitGraph_target (dl : DlDetect V) (x : UInt64) :
    (waitGraph dl).target x = getThdid x := rfl

/-- The edges back onto the path that a depth-first search from `t` over the current edges meets. -/
def backEdges (dl : DlDetect V) (t : UInt64) : List (Back (Fin V) UInt64) :=
  if current dl.dependency t then (waitGraph dl).backs (getThdid t) else []

/-- There is a place for each thread in the arrays, or the detector is off. -/
def Fits (room : Nat) (dl : DlDetect V) : Prop := dl.noDl ∨ V ≤ room

/-- The transaction stored for a thread. -/
def stored (dl : DlDetect V) (k : Fin V) : UInt64 := (dl.dependency k).txnid.toUInt64

/-- The first of the edges back that compares equal is current; if none does, none is current.  An
    edge that is not current may still do when the transaction that the part of the path it closes
    gives up happens to be a victim. -/
def Settled (dl : DlDetect V) (t : UInt64) : Prop :=
  match (backEdges dl t).find? fun b => recognised dl.dependency b.edge with
  | none => ∀ b ∈ backEdges dl t, ¬ current dl.dependency b.edge
  | some b => current dl.dependency b.edge ∨
      ∃ k ∈ ((waitGraph dl).lap b).argmin fun k => (dl.dependency k).numLocks,
        Victim dl t (stored dl k)

/-! ### The search of the detector is the depth-first search up to the first edge recognised -/

/-- No loop found so far, with `path` on the stack and `seen` visited. -/
structure Agrees (d : DetectData V) (path seen : List (Fin V)) : Prop where
  loop : d.loop = false
  recStack : ∀ k, d.recStack k = true ↔ k ∈ path
  visited : ∀ k, d.visited k = true ↔ k ∈ seen

/-- What `nextNode` does to `onloop`, `min_lock_num` and `min_txnid` when it returns from `k` with a
    loop that starts at `start`. -/
def unwind (dl : DlDetect V) (start : Fin V) (s : Bool × Int × UInt64) (k : Fin V) :
    Bool × Int × UInt64 :=
  (if k = start then false else s.1,
    if s.1 ∧ (dl.dependency k).numLocks < s.2.1 then ((dl.dependency k).numLocks, stored dl k)
    else s.2)

def DetectData.least (d : DetectData V) : Int × UInt64 := (d.minLockNum, d.minTxnid)

/-- The loop is found at the edge `b`, and the part of the path above `path` is unwound. -/
structure Unwound (dl : DlDetect V) (b : Back (Fin V) UInt64) (path : List (Fin V))
    (least : Int × UInt64) (d : DetectData V) : Prop where
  loop : d.loop = true
  loopstart : d.loopstart = (getThdid b.edge : Fin V).val
  popped : ∃ top, b.node :: b.path = top ++ path ∧
    (d.onloop, d.least) = top.foldl (unwind dl (getThdid b.edge)) (true, least)

/-- The state behind a part of the search that met the edges back `bs`. -/
def Outcome (dl : DlDetect V) (bs : List (Back (Fin V) UInt64)) (path seen : List (Fin V))
    (least : Int × UInt64) (d : DetectData V) : Prop :=
  match bs.find? fun b => recognised dl.dependency b.edge with
  | none => Agrees d path seen ∧ d.least = least
  | some b => Unwound dl b path least d

variable {dl : DlDetect V}

omit [NeZero V] in
theorem Agrees.enter {d : DetectData V} {path seen : List (Fin V)} (h : Agrees d path seen)
    (k : Fin V) : Agrees (enter k d) (k :: path) (k :: seen) := by
  refine ⟨h.loop, ?_, ?_⟩
  · intro j
    by_cases hj : j = k
    · simp [Deadlocks.enter, hj]
    · simp [Deadlocks.enter, hj, h.recStack]
  · intro j
    by_cases hj : j = k
    · simp [Deadlocks.enter, hj]
    · simp [Deadlocks.enter, hj, h.visited]

theorem stored_of_current {x : UInt64} (h : current dl.dependency x) :
    stored dl (getThdid x) = x := by
  have htxnid : (dl.dependency (getThdid x)).txnid = x.toInt64 := of_decide_eq_true h
  simp [stored, htxnid]

omit [NeZero V] in
theorem leave_least_of_no_loop (dep : Fin V → DepThd) (k : Fin V) (x : UInt64)
    {d : DetectData V} (h : d.loop = false) : (leave dep k x d).least = d.least := by
  simp [leave, DetectData.least, h]

theorem leave_unwind {x : UInt64} {start : Fin V} {d : DetectData V}
    (hx : current dl.dependency x) (hloop : d.loop = true) (hstart : d.loopstart = start.val) :
    ((leave dl.dependency (getThdid x) x d).onloop,
      (leave dl.dependency (getThdid x) x d).least) =
      unwind dl start (d.onloop, d.least) (getThdid x) := by
  have hthd : ((getThdid x : Fin V).val : Int) = start.val ↔ getThdid x = start := by
    rw [Int.natCast_inj, Fin.val_inj]
  simp only [leave, unwind, DetectData.least, hloop, hstart, hthd, stored_of_current hx,
    Bool.true_and, Bool.and_eq_true, decide_eq_true_eq]
  by_cases hmin : d.onloop = true ∧ (dl.dependency (getThdid x)).numLocks < d.minLockNum
  · rw [if_pos hmin, if_pos hmin, if_pos hmin]
  · rw [if_neg hmin, if_neg hmin, if_neg hmin]

omit [NeZero V] in
theorem Agrees.leave {k : Fin V} {x : UInt64} {d : DetectData V} {path seen : List (Fin V)}
    (h : Agrees d (k :: path) seen) (hnew : k ∉ path) :
    Agrees (leave dl.dependency k x d) path seen := by
  refine ⟨h.loop, ?_, h.visited⟩
  intro j
  by_cases hj : j = k
  · simp [Deadlocks.leave, hj, hnew]
  · simp [Deadlocks.leave, hj, h.recStack]

theorem Unwound.leave {b : Back (Fin V) UInt64} {x : UInt64} {path : List (Fin V)}
    {least : Int × UInt64} {d : DetectData V} (hx : current dl.dependency x)
    (h : Unwound dl b (getThdid x :: path) least d) :
    Unwound dl b path least (leave dl.dependency (getThdid x) x d) := by
  obtain ⟨top, htop, hfold⟩ := h.popped
  refine ⟨h.loop, h.loopstart, top ++ [getThdid x], ?_, ?_⟩
  · rw [htop, List.append_assoc, List.singleton_append]
  · rw [leave_unwind hx h.loop h.loopstart, hfold, List.foldl_append]
    rfl

theorem Outcome.leave {bs : List (Back (Fin V) UInt64)} {x : UInt64} {path seen : List (Fin V)}
    {least : Int × UInt64} {d : DetectData V} (hx : current dl.dependency x)
    (hnew : getThdid x ∉ path) (h : Outcome dl bs (getThdid x :: path) seen least d) :
    Outcome dl bs path seen least (leave dl.dependency (getThdid x) x d) := by
  simp only [Outcome] at h ⊢
  cases hfind : bs.find? fun b => recognised dl.dependency b.edge with
  | none =>
      rw [hfind] at h
      obtain ⟨hagrees, hleast⟩ := h
      exact ⟨hagrees.leave hnew, (leave_least_of_no_loop _ _ _ hagrees.loop).trans hleast⟩
  | some b =>
      rw [hfind] at h
      exact h.leave hx

theorem Outcome.loop {bs : List (Back (Fin V) UInt64)} {path seen : List (Fin V)}
    {least : Int × UInt64} {d : DetectData V} (h : Outcome dl bs path seen least d) :
    d.loop = (bs.find? fun b => recognised dl.dependency b.edge).isSome := by
  simp only [Outcome] at h
  cases hfind : bs.find? fun b => recognised dl.dependency b.edge with
  | none =>
      rw [hfind] at h
      exact h.1.loop
  | some b =>
      rw [hfind] at h
      exact h.loop

/-- The call on a thread not visited, by what the loop over its ids does. -/
theorem nextNode_outcome {n : Nat} {x : UInt64} {bs : List (Back (Fin V) UInt64)}
    {path seen seen' : List (Fin V)} {d : DetectData V} (hd : Agrees d path seen)
    (hx : current dl.dependency x) (hnew : getThdid x ∉ seen) (hoff : getThdid x ∉ path)
    (hloop : ∃ d', forTxnids dl.dependency (nextNode dl.dependency n)
        (dl.dependency (getThdid x)).adj (enter (getThdid x) d) = some d' ∧
      Outcome dl bs (getThdid x :: path) seen' d.least d') :
    ∃ d', nextNode dl.dependency (n + 1) x d = some (d'.loop, d') ∧
      Outcome dl bs path seen' d.least d' := by
  obtain ⟨d', hd', hout⟩ := hloop
  have hvisited : d.visited (getThdid x) = false := by
    rw [← Bool.not_eq_true, hd.visited]
    exact hnew
  refine ⟨leave dl.dependency (getThdid x) x d', ?_, hout.leave hx hoff⟩
  simp [nextNode, hvisited, hx, hd']

/-- The loop over the ids a thread waits for. -/
theorem forTxnids_outcome {v : Fin V} {path seen seen' : List (Fin V)} {txnids : List UInt64}
    {bs : List (Back (Fin V) UInt64)}
    (h : (waitGraph dl).Scans v path txnids seen seen' bs) {n : Nat} {d : DetectData V}
    (hd : Agrees d (v :: path) seen) (hseen : v :: path ⊆ seen)
    (hfuel : V ≤ n + seen.toFinset.card) :
    ∃ d', forTxnids dl.dependency (nextNode dl.dependency n) txnids d = some d' ∧
      Outcome dl bs (v :: path) seen' d.least d' := by
  induction h generalizing n d with
  | done => exact ⟨d, rfl, hd, rfl⟩
  | @back v path x xs seen seen' bs honto _ ih =>
      have hstack : d.recStack (getThdid x) = true := (hd.recStack _).mpr honto
      by_cases hx : recognised dl.dependency x
      · refine ⟨{ d with
          loop := true, onloop := true, loopstart := (getThdid x : Fin V).val }, ?_, ?_⟩
        · simp [forTxnids, hstack, hx]
        · simp only [Outcome, List.find?_cons, hx]
          exact ⟨rfl, rfl, [], rfl, rfl⟩
      · have hvisited : d.visited (getThdid x) = true := (hd.visited _).mpr (hseen honto)
        obtain ⟨d', hd', hout⟩ := ih hd hseen hfuel
        refine ⟨d', by simpa [forTxnids, hx, hvisited] using hd', ?_⟩
        simpa [Outcome, List.find?_cons, hx] using hout
  | @skip v path x xs seen seen' bs hoff hskip _ ih =>
      have hstack : d.recStack (getThdid x) = false := by
        rw [← Bool.not_eq_true, hd.recStack]
        exact hoff
      obtain ⟨d', hd', hout⟩ := ih hd hseen hfuel
      refine ⟨d', ?_, hout⟩
      by_cases hx : current dl.dependency x
      · have hvisited : d.visited (getThdid x) = true := (hd.visited _).mpr (hskip hx)
        simpa [forTxnids, hstack, hvisited] using hd'
      · simpa [forTxnids, hstack, hx] using hd'
  | @descend v path x xs seen seen₁ seen' bs₁ bs hnew hlive hoff hdown _ ihdown ihrest =>
      simp only [waitGraph_target] at hnew hoff hdown ihdown
      have hx : current dl.dependency x = true := hlive
      have hstack : d.recStack (getThdid x) = false := by
        rw [← Bool.not_eq_true, hd.recStack]
        exact hoff
      have hvisited : d.visited (getThdid x) = false := by
        rw [← Bool.not_eq_true, hd.visited]
        exact hnew
      have hcard : (getThdid x :: seen).toFinset.card = seen.toFinset.card + 1 := by
        rw [List.toFinset_cons, Finset.card_insert_of_notMem (by simpa using hnew)]
      have hcard₁ : (getThdid x :: seen).toFinset.card ≤ seen₁.toFinset.card :=
        Finset.card_le_card fun k hk =>
          List.mem_toFinset.mpr (hdown.subset (List.mem_toFinset.mp hk))
      have hlt : (getThdid x :: seen).toFinset.card ≤ V := by
        simpa using Finset.card_le_univ (getThdid x :: seen).toFinset
      obtain ⟨n, rfl⟩ : ∃ m, n = m + 1 := ⟨n - 1, by omega⟩
      have hsub : getThdid x :: v :: path ⊆ getThdid x :: seen := List.cons_subset_cons _ hseen
      obtain ⟨d₁, hd₁, hout₁⟩ := nextNode_outcome hd hx hnew hoff
        (ihdown (n := n) (hd.enter (getThdid x)) hsub (by omega))
      cases hfind : bs₁.find? fun b => recognised dl.dependency b.edge with
      | some b =>
          have hloop : d₁.loop = true := by rw [hout₁.loop, hfind]; rfl
          refine ⟨d₁, by simp [forTxnids, hstack, hvisited, hx, hd₁, hloop], ?_⟩
          simp only [Outcome, List.find?_append, hfind] at hout₁ ⊢
          exact hout₁
      | none =>
          have hloop : d₁.loop = false := by rw [hout₁.loop, hfind]; rfl
          simp only [Outcome, hfind] at hout₁
          obtain ⟨hagrees, hleast⟩ := hout₁
          have hseen₁ : v :: path ⊆ seen₁ := fun k hk =>
            hdown.subset (List.mem_cons_of_mem _ (hseen hk))
          obtain ⟨d', hd', hout⟩ := ihrest (n := n + 1) hagrees hseen₁ (by omega)
          refine ⟨d', by simp [forTxnids, hstack, hvisited, hx, hd₁, hloop, hd'], ?_⟩
          simpa [Outcome, List.find?_append, hfind, hleast] using hout

/-! ### The victim of an unwound path -/

/-- The update of `min_lock_num` and `min_txnid` on the loop. -/
def pick (dl : DlDetect V) (least : Int × UInt64) (k : Fin V) : Int × UInt64 :=
  if (dl.dependency k).numLocks < least.1 then ((dl.dependency k).numLocks, stored dl k) else least

omit [NeZero V] in
theorem foldl_unwind_off (start : Fin V) (p : List (Fin V)) (least : Int × UInt64) :
    p.foldl (unwind dl start) (false, least) = (false, least) := by
  induction p with
  | nil => rfl
  | cons k p ih => simpa [unwind] using ih

omit [NeZero V] in
theorem foldl_unwind {start : Fin V} {p : List (Fin V)} (h : start ∈ p) (least : Int × UInt64) :
    p.foldl (unwind dl start) (true, least) = (false, (upTo start p).foldl (pick dl) least) := by
  induction p generalizing least with
  | nil => exact absurd h List.not_mem_nil
  | cons k p ih =>
      have hstep : unwind dl start (true, least) k = (decide (k ≠ start), pick dl least k) := by
        by_cases hk : k = start <;> simp [unwind, pick, hk]
      rw [List.foldl_cons, hstep]
      by_cases hk : k = start
      · simp [upTo, hk, foldl_unwind_off]
      · have hp : start ∈ p := (List.mem_cons.mp h).resolve_left fun hs => hk hs.symm
        simpa [upTo, hk] using ih hp (pick dl least k)

omit [NeZero V] in
/-- With lock counts below the initial one, the fold ends at the first thread with the fewest. -/
theorem foldl_pick {p : List (Fin V)} {x : UInt64} {bound : Int}
    (hlocks : ∀ k ∈ p, (dl.dependency k).numLocks < bound) :
    p.foldl (pick dl) (bound, x) =
      (p.argmin fun k => (dl.dependency k).numLocks).elim (bound, x) fun k =>
        ((dl.dependency k).numLocks, stored dl k) := by
  induction p using List.reverseRecOn with
  | nil => rfl
  | append_singleton p k ih =>
      have hp := ih fun j hj => hlocks j (List.mem_append_left _ hj)
      have hk := hlocks k (List.mem_append_right _ List.mem_cons_self)
      rw [List.foldl_append, hp, List.argmin_concat]
      cases hmin : p.argmin fun k => (dl.dependency k).numLocks with
      | none => simp [pick, hk]
      | some j =>
          by_cases hlt : (dl.dependency k).numLocks < (dl.dependency j).numLocks
          · simp [pick, hlt]
          · simp [pick, hlt]

/-! ### Threads on the path and their transactions -/

/-- The transaction stored for `k` runs on `k`. -/
def Busy (dl : DlDetect V) (k : Fin V) : Prop :=
  current dl.dependency (stored dl k) ∧ getThdid (stored dl k) = k

theorem busy_of_current {x : UInt64} (h : current dl.dependency x) : Busy dl (getThdid x) := by
  rw [Busy, stored_of_current h]
  exact ⟨h, rfl⟩

theorem busy_of_reach {t : UInt64} {k : Fin V} (ht : current dl.dependency t)
    (h : ReflTransGen (waitGraph dl).Step (getThdid t) k) : Busy dl k := by
  induction h with
  | refl => exact busy_of_current ht
  | tail _ hstep =>
      obtain ⟨e, _, hlive, rfl⟩ := hstep
      exact busy_of_current hlive

theorem waits_of_step {j k : Fin V} (hj : Busy dl j) (h : (waitGraph dl).Step j k) :
    Waits dl (stored dl j) (stored dl k) := by
  obtain ⟨e, he, hlive, rfl⟩ := h
  rw [waitGraph_target, stored_of_current hlive]
  refine ⟨hj.1, ?_, hlive⟩
  rw [hj.2]
  exact he

theorem Waits.step {x y : UInt64} (h : Waits dl x y) :
    (waitGraph dl).Step (getThdid x) (getThdid y) :=
  ⟨y, h.mem_adj, h.stored, rfl⟩

theorem waits_of_reach {t : UInt64} {k : Fin V} (ht : current dl.dependency t)
    (h : ReflTransGen (waitGraph dl).Step (getThdid t) k) :
    ReflTransGen (Waits dl) t (stored dl k) := by
  induction h with
  | refl => rw [stored_of_current ht]
  | tail hreach hstep ih => exact ih.tail (waits_of_step (busy_of_reach ht hreach) hstep)

/-- A current edge back onto the path closes a deadlock. -/
theorem deadlock_of_closes {t : UInt64} {b : Back (Fin V) UInt64} (ht : current dl.dependency t)
    (h : (waitGraph dl).Closes (getThdid t) b) (hb : current dl.dependency b.edge) :
    Deadlock dl t (((waitGraph dl).lap b).reverse.map (stored dl)) := by
  have htrail := h.lap_trail
  have hbusy : ∀ k ∈ (waitGraph dl).lap b, Busy dl k := fun k hk =>
    busy_of_reach ht (htrail.reach k hk)
  have hhead : ((waitGraph dl).lap b).head? = some b.node := head?_upTo _ _ _
  have hlast : ((waitGraph dl).lap b).getLast? = some (getThdid b.edge) := getLast?_upTo h.onto
  refine ⟨?_, ?_, ?_, ?_, ?_⟩
  · intro hnil
    rw [List.map_eq_nil_iff, List.reverse_eq_nil_iff] at hnil
    rw [hnil] at hhead
    cases hhead
  · apply List.Nodup.map_on
    · intro j hj k hk hjk
      rw [← (hbusy j (List.mem_reverse.mp hj)).2, ← (hbusy k (List.mem_reverse.mp hk)).2, hjk]
    · exact List.nodup_reverse.mpr htrail.nodup
  · rw [List.isChain_map, List.isChain_reverse]
    apply htrail.chain.imp_of_mem_imp
    intro k j _ hj hstep
    exact waits_of_step (hbusy j hj) hstep
  · intro x hx y hy
    rw [List.getLast?_map, List.getLast?_reverse, hhead] at hx
    rw [List.head?_map, List.head?_reverse, hlast] at hy
    cases hx
    cases hy
    apply waits_of_step (busy_of_reach ht (h.trail.reach _ List.mem_cons_self))
    exact ⟨b.edge, h.edge_mem, hb, rfl⟩
  · intro x hx
    obtain ⟨k, hk, rfl⟩ := List.mem_map.mp hx
    exact waits_of_reach ht (htrail.reach k (List.mem_reverse.mp hk))

theorem Deadlock.waits_self {t : UInt64} {c : List UInt64} (h : Deadlock dl t c) :
    ∃ x, ReflTransGen (Waits dl) t x ∧ TransGen (Waits dl) x x := by
  have hlast := h.closes (c.getLast h.ne_nil) (List.getLast?_eq_some_getLast h.ne_nil)
    (c.head h.ne_nil) (List.head?_eq_some_head h.ne_nil)
  refine ⟨c.head h.ne_nil, h.reach _ (List.head_mem h.ne_nil), ?_⟩
  exact .tail' (List.relationReflTransGen_of_exists_isChain c h.chain h.ne_nil) hlast

theorem Deadlock.current_start {t : UInt64} {c : List UInt64} (h : Deadlock dl t c) :
    current dl.dependency t := by
  obtain ⟨x, hreach, hself⟩ := h.waits_self
  obtain ⟨y, hwaits, _⟩ := TransGen.head'_iff.mp (.trans_right hreach hself)
  exact hwaits.waiting

/-- When the search meets no current edge back onto its path, there is no deadlock. -/
theorem not_deadlock {t : UInt64} {c : List UInt64}
    (hdead : ∀ b ∈ backEdges dl t, ¬ current dl.dependency b.edge) : ¬ Deadlock dl t c := by
  intro h
  rw [backEdges, if_pos h.current_start] at hdead
  obtain ⟨x, hreach, hself⟩ := h.waits_self
  apply EdgeLists.no_cycle_of_backs hdead (hreach.lift getThdid fun _ _ hstep => hstep.step)
  exact hself.lift getThdid fun _ _ hstep => hstep.step

theorem backEdges_close {t : UInt64} {b : Back (Fin V) UInt64} (hb : b ∈ backEdges dl t) :
    current dl.dependency t ∧ (waitGraph dl).Closes (getThdid t) b := by
  rw [backEdges] at hb
  split at hb
  · rename_i ht
    exact ⟨ht, EdgeLists.backs_close _ b hb⟩
  · exact absurd hb List.not_mem_nil

/-! ### What `detect_cycle` returns -/

/-- Lock counts are below 1000 wherever a thread waits, and without detection none does. -/
structure Kept (dl : DlDetect V) : Prop where
  locks : ∀ k, (dl.dependency k).adj ≠ [] → (dl.dependency k).numLocks < 1000
  noDl : dl.noDl → ∀ k, (dl.dependency k).adj = []

theorem Stored.kept (h : Stored dl) : Kept dl := by
  induction h with
  | init noDl dependency hadj =>
      exact ⟨fun k hk => absurd (hadj k) hk, fun _ k => hadj k⟩
  | @addDep dl txnid1 txnids numLocks hlocks _ ih =>
      unfold Deadlocks.addDep
      split
      · exact ih
      · rename_i hno
        refine ⟨?_, fun hno' => absurd hno' hno⟩
        intro k hk
        by_cases hkt : k = getThdid txnid1
        · subst hkt
          simpa using hlocks
        · simp only [Function.update_of_ne hkt] at hk ⊢
          exact ih.locks k hk
  | @clearDep dl txnid _ ih =>
      unfold Deadlocks.clearDep
      split
      · exact ih
      · rename_i hno
        refine ⟨?_, fun hno' => absurd hno' hno⟩
        intro k hk
        by_cases hkt : k = getThdid txnid
        · subst hkt
          simp
        · simp only [Function.update_of_ne hkt] at hk ⊢
          exact ih.locks k hk

theorem Kept.backEdges_nil (h : Kept dl) (hno : dl.noDl) (t : UInt64) : backEdges dl t = [] := by
  apply List.eq_nil_iff_forall_not_mem.mpr
  intro b hb
  exact (backEdges_close hb).2.edges_ne_nil b.node List.mem_cons_self (h.noDl hno b.node)

/-- The search from a stored transaction, up to the first edge back that is recognised. -/
theorem nextNode_start {t : UInt64} (ht : current dl.dependency t) {d : DetectData V}
    (hd : Agrees d [] []) : ∃ d' seen, nextNode dl.dependency V t d = some (d'.loop, d') ∧
      Outcome dl (backEdges dl t) [] seen d.least d' := by
  obtain ⟨n, hn⟩ : ∃ n, V = n + 1 := Nat.exists_eq_succ_of_ne_zero (NeZero.ne V)
  obtain ⟨seen, hscans⟩ := (waitGraph dl).backs_scans (getThdid t)
  have hloop := forTxnids_outcome hscans (n := n) (hd.enter (getThdid t)) (List.Subset.refl _)
    (by simp [hn])
  obtain ⟨d', hd', hout⟩ := nextNode_outcome hd ht List.not_mem_nil List.not_mem_nil hloop
  rw [backEdges, if_pos ht]
  exact ⟨d', seen, hn ▸ hd', hout⟩

omit [NeZero V] in
theorem agrees_start (fresh : DetectData V) : Agrees fresh.start [] [] :=
  ⟨rfl, by simp [DetectData.start], by simp [DetectData.start]⟩

theorem nextNode_of_not_current {t : UInt64} (ht : ¬ current dl.dependency t)
    {d : DetectData V} (hd : Agrees d [] []) :
    ∃ d', nextNode dl.dependency V t d = some (false, d') := by
  obtain ⟨n, hn⟩ : ∃ n, V = n + 1 := Nat.exists_eq_succ_of_ne_zero (NeZero.ne V)
  have hvisited : d.visited (getThdid t) = false := by
    rw [← Bool.not_eq_true, hd.visited]
    exact List.not_mem_nil
  have hnext : ∃ d', nextNode dl.dependency (n + 1) t d = some (false, d') := by
    simp [nextNode, hvisited, ht]
  exact hn ▸ hnext

/-- The unwound state names the first thread of the closed part of the path with the fewest
    locks. -/
theorem Unwound.minTxnid_eq {b : Back (Fin V) UInt64} {x : UInt64} {bound : Int}
    {d : DetectData V} {k : Fin V} (h : Unwound dl b [] (bound, x) d)
    (honto : getThdid b.edge ∈ b.node :: b.path)
    (hlocks : ∀ k ∈ (waitGraph dl).lap b, (dl.dependency k).numLocks < bound)
    (hk : k ∈ ((waitGraph dl).lap b).argmin fun k => (dl.dependency k).numLocks) :
    d.minTxnid = stored dl k := by
  obtain ⟨top, htop, hfold⟩ := h.popped
  rw [List.append_nil] at htop
  rw [← htop, foldl_unwind honto] at hfold
  have hleast : d.least = ((waitGraph dl).lap b).foldl (pick dl) (bound, x) :=
    congrArg Prod.snd hfold
  rw [foldl_pick hlocks, hk] at hleast
  exact congrArg Prod.snd hleast

theorem exists_argmin_lap (dl : DlDetect V) (b : Back (Fin V) UInt64) :
    ∃ k, k ∈ ((waitGraph dl).lap b).argmin fun k => (dl.dependency k).numLocks := by
  apply Option.isSome_iff_exists.mp
  rw [Option.isSome_iff_ne_none, Ne, List.argmin_eq_none]
  intro hnil
  have hhead : ((waitGraph dl).lap b).head? = some b.node := head?_upTo _ _ _
  rw [hnil] at hhead
  cases hhead

/-- No edge back is recognised, and `detect_cycle` returns 0. -/
theorem detectCycle_of_none {room : Nat} (hfits : Fits room dl) {t : UInt64}
    (hfind : (backEdges dl t).find? (fun b => recognised dl.dependency b.edge) = none)
    (fresh : DetectData V) (lockAbort : Fin V → Bool) :
    detectCycle room dl fresh lockAbort t = some (0, lockAbort) := by
  by_cases hno : dl.noDl
  · simp [detectCycle, hno]
  have hroom : ¬ room < V := Nat.not_lt.mpr (hfits.resolve_left hno)
  by_cases ht : current dl.dependency t
  · obtain ⟨d, seen, hd, hout⟩ := nextNode_start ht (agrees_start fresh)
    have hloop := hout.loop
    rw [hfind] at hloop
    simp [detectCycle, hno, hroom, hd, hloop]
  · obtain ⟨d, hd⟩ := nextNode_of_not_current ht (agrees_start fresh)
    simp [detectCycle, hno, hroom, hd]

/-- The first edge back that is recognised decides on the thread to abort. -/
theorem detectCycle_of_some (h : Kept dl) {room : Nat} (hfits : Fits room dl) {t : UInt64}
    {b : Back (Fin V) UInt64} {k : Fin V}
    (hfind : (backEdges dl t).find? (fun b => recognised dl.dependency b.edge) = some b)
    (hk : k ∈ ((waitGraph dl).lap b).argmin fun k => (dl.dependency k).numLocks)
    (fresh : DetectData V) (lockAbort : Fin V → Bool) :
    detectCycle room dl fresh lockAbort t = some (1, Function.update lockAbort k true) := by
  have hb := List.mem_of_find?_eq_some hfind
  obtain ⟨ht, hcloses⟩ := backEdges_close hb
  have hno : ¬ dl.noDl := by
    intro hno
    rw [h.backEdges_nil hno] at hb
    exact List.not_mem_nil hb
  have hroom : ¬ room < V := Nat.not_lt.mpr (hfits.resolve_left hno)
  obtain ⟨d, seen, hd, hout⟩ := nextNode_start ht (agrees_start fresh)
  have hloop := hout.loop
  rw [hfind] at hloop
  simp only [Outcome, hfind] at hout
  have hmin := hout.minTxnid_eq hcloses.onto
    (fun k hk => h.locks k (hcloses.edges_ne_nil k (EdgeLists.mem_of_mem_lap hk))) hk
  have hbusy : Busy dl k := busy_of_reach ht (hcloses.lap_trail.reach k (List.argmin_mem hk))
  simp [detectCycle, hno, hroom, hd, hloop, hmin, hbusy.1, hbusy.2]

/-! ### The two comparisons -/

theorem toInt_sint32 (x : UInt64) :
    x.toUInt32.toInt32.toInt64.toInt = (x.toNat : Int).bmod (2 ^ 32) := by
  rw [Int32.toInt_toInt64]
  change (x.toBitVec.setWidth 32).toInt = _
  rw [BitVec.toInt_setWidth]
  rfl

theorem toInt_sint64 {x : UInt64} (hx : x.toNat < 2 ^ 63) : x.toInt64.toInt = x.toNat := by
  change x.toBitVec.toInt = _
  rw [BitVec.toInt_eq_toNat_of_lt]
  · rfl
  · change 2 * x.toNat < 2 ^ 64
    omega

/-- The two casts of an id agree below 2^31 only. -/
theorem sint32_eq_iff {x : UInt64} (hx : x.toNat < 2 ^ 63) :
    x.toUInt32.toInt32.toInt64 = x.toInt64 ↔ x.toNat < 2 ^ 31 := by
  rw [← Int64.toInt_inj, toInt_sint32, toInt_sint64 hx, Int.bmod_def]
  split <;> omega

theorem recognised_iff_of_current {x : UInt64} (hx : x.toNat < 2 ^ 63)
    (h : current dl.dependency x) : recognised dl.dependency x ↔ x.toNat < 2 ^ 31 := by
  have htxnid : (dl.dependency (getThdid x)).txnid = x.toInt64 := of_decide_eq_true h
  rw [recognised, decide_eq_true_iff, htxnid]
  exact sint32_eq_iff hx

/-- An id no newer than the transaction of its thread is recognised only as this one. -/
theorem current_of_recognised {x : UInt64} (hbusy : Busy dl (getThdid x))
    (hle : x.toNat ≤ (stored dl (getThdid x)).toNat)
    (hlt : (stored dl (getThdid x)).toNat < 2 ^ 63) (h : recognised dl.dependency x) :
    current dl.dependency x := by
  have htxnid : x.toUInt32.toInt32.toInt64 = (stored dl (getThdid x)).toInt64 := by
    simpa [recognised, stored] using h
  have hcasts := congrArg Int64.toInt htxnid
  rw [toInt_sint32, toInt_sint64 hlt, Int.bmod_def] at hcasts
  have hx : x = stored dl (getThdid x) := by
    apply UInt64.toNat_inj.mp
    split at hcasts <;> omega
  rw [hx]
  exact hbusy.1

/-- With ids below 2^31 the detector is exact. -/
theorem settled_of_small {t : UInt64}
    (hsmall : ∀ k, ∀ x ∈ (dl.dependency k).adj, x.toNat < 2 ^ 31) : Settled dl t := by
  have hsame : ∀ b ∈ backEdges dl t,
      (recognised dl.dependency b.edge ↔ current dl.dependency b.edge) := by
    intro b hb
    have hx := hsmall b.node b.edge (backEdges_close hb).2.edge_mem
    have hcasts := (sint32_eq_iff (by omega)).mpr hx
    rw [recognised, current, decide_eq_true_iff, decide_eq_true_iff, hcasts]
    exact eq_comm
  unfold Settled
  cases hfind : (backEdges dl t).find? fun b => recognised dl.dependency b.edge with
  | none =>
      intro b hb hcurrent
      exact List.find?_eq_none.mp hfind b hb ((hsame b hb).mpr hcurrent)
  | some b =>
      have hrecognised : recognised dl.dependency b.edge := by simpa using List.find?_some hfind
      exact .inl ((hsame b (List.mem_of_find?_eq_some hfind)).mp hrecognised)

theorem busy_of_backEdges {t : UInt64} {b : Back (Fin V) UInt64} (hb : b ∈ backEdges dl t) :
    Busy dl (getThdid b.edge) := by
  obtain ⟨ht, hcloses⟩ := backEdges_close hb
  exact busy_of_reach ht (hcloses.trail.reach _ hcloses.onto)

/-- When no thread waits for an id newer than the stored one of its thread, the condition is that a
    search which meets a current edge back meets one below 2^31. -/
theorem settled_iff_of_older {t : UInt64}
    (hold : ∀ k, ∀ x ∈ (dl.dependency k).adj, Busy dl (getThdid x) →
      x.toNat ≤ (stored dl (getThdid x)).toNat ∧ (stored dl (getThdid x)).toNat < 2 ^ 63) :
    Settled dl t ↔ ((∃ b ∈ backEdges dl t, current dl.dependency b.edge) →
      ∃ b ∈ backEdges dl t, current dl.dependency b.edge ∧ b.edge.toNat < 2 ^ 31) := by
  have hedge : ∀ b ∈ backEdges dl t, b.edge.toNat < 2 ^ 63 ∧
      (recognised dl.dependency b.edge → current dl.dependency b.edge) := by
    intro b hb
    have hbusy := busy_of_backEdges hb
    obtain ⟨hle, hlt⟩ := hold b.node b.edge (backEdges_close hb).2.edge_mem hbusy
    exact ⟨by omega, current_of_recognised hbusy hle hlt⟩
  unfold Settled
  cases hfind : (backEdges dl t).find? fun b => recognised dl.dependency b.edge with
  | none =>
      have hnone := List.find?_eq_none.mp hfind
      constructor
      · rintro hdead ⟨b, hb, hcurrent⟩
        exact absurd hcurrent (hdead b hb)
      · intro hsmall b hb hcurrent
        obtain ⟨b', hb', hcurrent', hlt⟩ := hsmall ⟨b, hb, hcurrent⟩
        exact hnone b' hb' ((recognised_iff_of_current (hedge b' hb').1 hcurrent').mpr hlt)
  | some b =>
      have hb := List.mem_of_find?_eq_some hfind
      have hrecognised : recognised dl.dependency b.edge := by simpa using List.find?_some hfind
      have hcurrent := (hedge b hb).2 hrecognised
      constructor
      · intro _ _
        refine ⟨b, hb, hcurrent, ?_⟩
        exact (recognised_iff_of_current (hedge b hb).1 hcurrent).mp hrecognised
      · exact fun _ => .inl hcurrent

/-! ### When the detector is exact -/

theorem locks_stored {k : Fin V} (h : Busy dl k) :
    locks dl (stored dl k) = (dl.dependency k).numLocks := by
  rw [locks, h.2]

/-- The transaction given up on a cycle of current edges is a victim. -/
theorem victim_of_current {t : UInt64} {b : Back (Fin V) UInt64} {k : Fin V}
    (hb : b ∈ backEdges dl t) (hcurrent : current dl.dependency b.edge)
    (hk : k ∈ ((waitGraph dl).lap b).argmin fun k => (dl.dependency k).numLocks) :
    Victim dl t (stored dl k) := by
  obtain ⟨ht, hcloses⟩ := backEdges_close hb
  have hbusy : ∀ j ∈ (waitGraph dl).lap b, Busy dl j := fun j hj =>
    busy_of_reach ht (hcloses.lap_trail.reach j hj)
  refine ⟨_, deadlock_of_closes ht hcloses hcurrent, ?_, ?_⟩
  · exact List.mem_map_of_mem (List.mem_reverse.mpr (List.argmin_mem hk))
  · intro y hy
    obtain ⟨j, hj, rfl⟩ := List.mem_map.mp hy
    have hj' := List.mem_reverse.mp hj
    rw [locks_stored (hbusy k (List.argmin_mem hk)), locks_stored (hbusy j hj')]
    exact List.le_of_mem_argmin (f := fun k => (dl.dependency k).numLocks) hj' hk

theorem Victim.stored_eq {t x : UInt64} (h : Victim dl t x) : stored dl (getThdid x) = x := by
  obtain ⟨c, hc, hx, _⟩ := h
  apply stored_of_current
  rcases ReflTransGen.cases_tail (hc.reach x hx) with rfl | ⟨_, _, hwaits⟩
  · exact hc.current_start
  · exact hwaits.stored

theorem exact_of_none {room : Nat} {t : UInt64} (hnone : ∀ c, ¬ Deadlock dl t c)
    (hrun : ∀ fresh lockAbort, detectCycle room dl fresh lockAbort t = some (0, lockAbort)) :
    Exact room dl t := by
  intro fresh lockAbort
  refine ⟨0, lockAbort, hrun fresh lockAbort, .inl rfl, ⟨?_, ?_⟩, fun _ => rfl, ?_⟩
  · intro h
    cases h
  · rintro ⟨c, hc⟩
    exact absurd hc (hnone c)
  · intro h
    cases h

theorem exact_of_victim {room : Nat} {t : UInt64} {k : Fin V}
    (hv : Victim dl t (stored dl k))
    (hk : getThdid (stored dl k) = k)
    (hrun : ∀ fresh lockAbort, detectCycle room dl fresh lockAbort t =
      some (1, Function.update lockAbort k true)) : Exact room dl t := by
  intro fresh lockAbort
  obtain ⟨c, hc, _⟩ := id hv
  refine ⟨1, _, hrun fresh lockAbort, .inr rfl, ⟨fun _ => ⟨c, hc⟩, fun _ => rfl⟩, ?_, ?_⟩
  · intro h
    cases h
  · intro _
    exact ⟨_, hv, by rw [hk]⟩

theorem victim_of_exact {room : Nat} {t : UInt64} {k : Fin V} (h : Exact room dl t)
    (hrun : ∀ fresh lockAbort, detectCycle room dl fresh lockAbort t =
      some (1, Function.update lockAbort k true)) : Victim dl t (stored dl k) := by
  obtain ⟨ret, lockAbort, hret, _, _, _, hone⟩ := h default fun _ => false
  rw [hrun] at hret
  cases hret
  obtain ⟨x, hx, hupdate⟩ := hone rfl
  have hk : k = getThdid x := by
    by_contra hne
    have hflag := congrFun hupdate k
    rw [Function.update_self, Function.update_of_ne hne] at hflag
    cases hflag
  rw [hk, hx.stored_eq]
  exact hx

theorem not_deadlock_of_exact {room : Nat} {t : UInt64} {c : List UInt64} (h : Exact room dl t)
    (hrun : ∀ fresh lockAbort, detectCycle room dl fresh lockAbort t = some (0, lockAbort)) :
    ¬ Deadlock dl t c := by
  obtain ⟨ret, lockAbort, hret, _, hiff, _⟩ := h default fun _ => false
  rw [hrun] at hret
  cases hret
  intro hc
  cases hiff.mpr ⟨c, hc⟩

theorem exact_iff_settled (h : Stored dl) {room : Nat} (hfits : Fits room dl) {t : UInt64} :
    Exact room dl t ↔ Settled dl t := by
  unfold Settled
  cases hfind : (backEdges dl t).find? fun b => recognised dl.dependency b.edge with
  | none =>
      have hrun := detectCycle_of_none hfits hfind
      constructor
      · intro hexact b hb hcurrent
        obtain ⟨ht, hcloses⟩ := backEdges_close hb
        exact not_deadlock_of_exact hexact hrun (deadlock_of_closes ht hcloses hcurrent)
      · intro hdead
        exact exact_of_none (fun c => not_deadlock hdead) hrun
  | some b =>
      obtain ⟨k, hk⟩ := exists_argmin_lap dl b
      have hb := List.mem_of_find?_eq_some hfind
      obtain ⟨ht, hcloses⟩ := backEdges_close hb
      have hbusy : Busy dl k := busy_of_reach ht (hcloses.lap_trail.reach k (List.argmin_mem hk))
      have hrun := detectCycle_of_some h.kept hfits hfind hk
      constructor
      · intro hexact
        exact .inr ⟨k, hk, victim_of_exact hexact hrun⟩
      · rintro (hcurrent | ⟨j, hj, hvictim⟩)
        · exact exact_of_victim (victim_of_current hb hcurrent hk) hbusy.2 hrun
        · rw [Option.mem_unique hj hk] at hvictim
          exact exact_of_victim hvictim hbusy.2 hrun

/-- What comes back was searched inside the arrays. -/
theorem Exact.fits {room : Nat} {t : UInt64} (h : Exact room dl t) : Fits room dl := by
  obtain ⟨ret, lockAbort, hret, -⟩ := h default fun _ => false
  unfold Fits
  by_contra hfits
  obtain ⟨hno, hroom⟩ := not_or.mp hfits
  rw [detectCycle, if_neg hno, if_pos (Nat.lt_of_not_le hroom)] at hret
  cases hret

/-- The detector is exact when its arrays have room for every thread and the first edge back that
    compares equal is current, and only then. -/
theorem detect_cycle_exact_iff (room : Nat) (h : Stored dl) (t : UInt64) :
    Exact room dl t ↔ Fits room dl ∧ Settled dl t := by
  constructor
  · intro hexact
    exact ⟨hexact.fits, (exact_iff_settled h hexact.fits).mp hexact⟩
  · rintro ⟨hfits, hsettled⟩
    exact (exact_iff_settled h hfits).mpr hsettled

/-- Two transactions of two threads that wait for each other. -/
def crossed (x y : UInt64) : DlDetect 2 :=
  addDep (addDep ⟨false, fun _ => ⟨[], -1, 0⟩⟩ x [y] 2) y [x] 1

theorem stored_crossed (x y : UInt64) : Stored (crossed x y) := by
  apply Stored.addDep _ _ _ (by decide)
  apply Stored.addDep _ _ _ (by decide)
  exact .init _ _ fun _ => rfl

theorem detect_cycle_exact_small : Exact 24 (crossed 4 5) 4 := by
  apply (detect_cycle_exact_iff 24 (stored_crossed 4 5) 4).mpr
  refine ⟨.inr (by decide), settled_of_small ?_⟩
  refine Fin.forall_fin_two.mpr ⟨?_, ?_⟩
  · intro x hx
    rw [show x = 5 from List.mem_singleton.mp hx]
    decide
  · intro x hx
    rw [show x = 4 from List.mem_singleton.mp hx]
    decide

/-- From id 2^31 on the loop is not seen, and the marks of 25 threads need more than 24 bytes. -/
theorem detect_cycle_misses_deadlock :
    Stored (crossed 2147483648 2147483649) ∧
      Deadlock (crossed 2147483648 2147483649) 2147483648 [2147483648, 2147483649] ∧
      (∀ room, ¬ Exact room (crossed 2147483648 2147483649) 2147483648) ∧
      ∀ (dl : DlDetect 25) (t : UInt64), ¬ dl.noDl → ¬ Exact 24 dl t := by
  have hxy : Waits (crossed 2147483648 2147483649) 2147483648 2147483649 :=
    ⟨by decide, by decide, by decide⟩
  have hyx : Waits (crossed 2147483648 2147483649) 2147483649 2147483648 :=
    ⟨by decide, by decide, by decide⟩
  have hdeadlock :
      Deadlock (crossed 2147483648 2147483649) 2147483648 [2147483648, 2147483649] := by
    refine ⟨by decide, by decide, ?_, ?_, ?_⟩
    · exact List.isChain_cons_cons.mpr ⟨hxy, List.isChain_singleton _⟩
    · intro x hx y hy
      cases hx
      cases hy
      exact hyx
    · intro x hx
      rcases List.mem_cons.mp hx with rfl | hx
      · exact .refl
      · rw [List.mem_singleton.mp hx]
        exact .single hxy
  refine ⟨stored_crossed _ _, hdeadlock, ?_, ?_⟩
  · intro room hexact
    apply not_deadlock_of_exact hexact (detectCycle_of_none hexact.fits _) hdeadlock
    exact List.find?_eq_none.mpr (by decide)
  · intro dl t hdl hexact
    exact absurd (hexact.fits.resolve_left hdl) (by decide)

end VeriTxn.Deadlocks
