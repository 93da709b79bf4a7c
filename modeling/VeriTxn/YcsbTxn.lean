import VeriTxn.Bytes
import VeriTxn.TxnOutlook

/-!
# YCSB transactions

`ycsb_txn_man::run_txn` run alone.  For every request it looks the key up, takes the
row, and on a WR request writes zeros over the first eight bytes of `row`, the shared
row, where it reads from `row_local` on an RD request.
-/

namespace VeriTxn.Ycsb

open Bytes

variable {R : Type}

/-- `ycsb_request`. -/
structure Request where
  rtype : AccessT
  key : Nat
  scanLen : Nat

/-- `MAIN_INDEX`: `index_read`, and `index_next` from an item on. -/
structure MainIndex (R : Type) where
  read : Nat → Lookup R
  next : R → Option R

/-- `*(uint64_t *)(&data[0]) = 0`. -/
def zeroFirst (data : List Byte) : List Byte := overwrite data 0 (List.replicate 8 0)

/-- How often the `while` loop runs unless `index_next` ends it; `iteration` is an
    `UInt32`. -/
def Request.passes (req : Request) : Nat :=
  if req.rtype = .rd ∨ req.rtype = .wr then 1
  else if req.scanLen = 0 then 2 ^ 32 else req.scanLen

/-- The rest of a pass of the `while` loop, with the item found: RCOK to go on. -/
def accessRow (σ : Scheme R (List Byte)) (primaryKey : R → Nat) (requestCnt : Nat)
    (req : Request) (row : R) (s : σ.State) : Option (RC × σ.State) :=
  if primaryKey row ≠ req.key then none
  else
    match σ.getRow s row req.rtype with
    | none => none
    | some none => some (.abort, s)
    | some (some s) =>
        if requestCnt > 1 then
          if req.rtype = .rd ∨ req.rtype = .scan then some (.rcok, s)
          else if req.rtype = .wr then some (.rcok, σ.writeShared s row zeroFirst)
          else none
        else some (.rcok, s)

/-- The passes after the first. -/
def scanLoop (σ : Scheme R (List Byte)) (primaryKey : R → Nat) (index : MainIndex R)
    (requestCnt : Nat) (req : Request) : Nat → R → σ.State → Option (RC × σ.State)
  | 0, _, s => some (.rcok, s)
  | n + 1, row, s =>
      match index.next row with
      | none => some (.rcok, s)
      | some row =>
          match accessRow σ primaryKey requestCnt req row s with
          | some (.rcok, s) => scanLoop σ primaryKey index requestCnt req n row s
          | ended => ended

/-- The `for` loop over the requests. -/
def requestLoop (σ : Scheme R (List Byte)) (primaryKey : R → Nat) (index : MainIndex R)
    (requestCnt : Nat) : List Request → σ.State → Option (RC × σ.State)
  | [], s => some (.rcok, s)
  | req :: requests, s =>
      match index.read req.key with
      | .absent => some (.abort, s)
      | .error => some (.error, s)
      | .found row _ =>
          match accessRow σ primaryKey requestCnt req row s with
          | some (.rcok, s) =>
              match scanLoop σ primaryKey index requestCnt req (req.passes - 1) row s with
              | some (.rcok, s) => requestLoop σ primaryKey index requestCnt requests s
              | ended => ended
          | ended => ended

/-- `ycsb_txn_man::run_txn`: the result and the contents of the rows. -/
def runTxn (σ : Scheme R (List Byte)) (primaryKey : R → Nat) (index : MainIndex R)
    (requests : List Request) (s : σ.State) : Option (RC × (R → List Byte)) :=
  match requestLoop σ primaryKey index requests.length requests s with
  | none => none
  | some (.error, s) => (σ.finish s .abort).map fun (_, contents) => (.error, contents)
  | some (rc, s) => σ.finish s rc

/-! ### What the requests write -/

/-- The rows of the WR requests. -/
def targets (index : MainIndex R) (requests : List Request) : List R :=
  requests.filterMap fun req =>
    match req.rtype, index.read req.key with
    | .wr, .found row _ => some row
    | _, _ => none

/-- The requests before the first one whose row is not found or not handed out. -/
def reached (index : MainIndex R) (admits : R → Bool) : List Request → List Request
  | [] => []
  | req :: requests =>
      match index.read req.key with
      | .found row _ => if admits row then req :: reached index admits requests else []
      | _ => []

variable [DecidableEq R]

/-- The contents with zeros written to `rows`. -/
def written (store : R → List Byte) (rows : List R) (r : R) : List Byte :=
  if r ∈ rows then zeroFirst (store r) else store r

theorem written_snoc (store : R → List Byte) {rows : List R} {r : R} (hr : r ∉ rows) :
    written store (rows ++ [r]) =
      Function.update (written store rows) r (zeroFirst (written store rows r)) := by
  funext q
  by_cases hq : q = r
  · subst hq
    simp [written, hr]
  · simp [written, hq]

theorem written_eq_self_iff (store : R → List Byte) (rows : List R) :
    written store rows = store ↔ ∀ r ∈ rows, zeroFirst (store r) = store r := by
  constructor
  · intro h r hr
    have hrow := congrFun h r
    simpa [written, hr] using hrow
  · intro h
    funext r
    by_cases hr : r ∈ rows
    · simp [written, hr, h r hr]
    · simp [written, hr]

/-! ### The loop -/

section

variable {σ : Scheme R (List Byte)} {inPlace : Bool} {admits : R → Bool}
  {lawful : σ.Lawful inPlace admits} {primaryKey : R → Nat} {index : MainIndex R}
  {requestCnt : Nat} {store : R → List Byte} {s s' : σ.State} {o : Outlook R (List Byte)}
  {rows : List R} {rc : RC}

/-- Zeros have been written to `rows`: a commit keeps them if the shared rows were handed
    out, else an abort does. -/
structure Progress (inPlace : Bool) (store : R → List Byte) (o : Outlook R (List Byte))
    (rows : List R) : Prop where
  held : ∀ r ∈ rows, r ∈ o.rows
  onCommit : o.onCommit = if inPlace then written store rows else store
  onAbort : o.onAbort = if inPlace then store else written store rows

theorem Progress.start (inPlace : Bool) (store : R → List Byte) :
    Progress inPlace store (.start store) [] where
  held := fun _ hr => nomatch hr
  onCommit := by
    have hnone : written store [] = store := funext fun r => by simp [written]
    simp [hnone, Outlook.start]
  onAbort := by
    have hnone : written store [] = store := funext fun r => by simp [written]
    simp [hnone, Outlook.start]

theorem Progress.getRow (h : Progress inPlace store o rows) (r : R)
    (type : AccessT) : Progress inPlace store (o.getRow r type) rows where
  held := fun q hq => by
    simp only [Outlook.rows, Outlook.getRow, List.map_append, List.mem_append]
    exact Or.inl (h.held q hq)
  onCommit := h.onCommit
  onAbort := h.onAbort

theorem Progress.writeDirect (h : Progress inPlace store o rows) {r : R} (hr : r ∉ rows)
    (hheld : r ∈ o.rows) :
    Progress inPlace store (o.writeDirect inPlace r zeroFirst) (rows ++ [r]) where
  held := fun q hq => by
    simp only [Outlook.rows, Outlook.held_writeDirect]
    rcases List.mem_append.mp hq with hq | hq
    · exact h.held q hq
    · rw [List.mem_singleton.mp hq]
      exact hheld
  onCommit := by
    have hcommit := h.onCommit
    cases inPlace with
    | false => exact hcommit
    | true =>
        simp only [if_true] at hcommit ⊢
        rw [written_snoc store hr, ← hcommit]
        rfl
  onAbort := by
    have habort := h.onAbort
    cases inPlace with
    | false =>
        simp only [Bool.false_eq_true, if_false] at habort ⊢
        rw [written_snoc store hr, ← habort]
        rfl
    | true => exact habort

omit [DecidableEq R] in
theorem accessRow_key {req : Request} {row : R}
    (h : accessRow σ primaryKey requestCnt req row s = some (rc, s')) :
    primaryKey row = req.key := by
  unfold accessRow at h
  split at h
  · cases h
  · rename_i hkey
    exact not_not.mp hkey

/-- The rows a request writes when it is reached. -/
theorem accessRow_spec {req : Request} {row : R} (hforesees : lawful.Foresees s o)
    (hprogress : Progress inPlace store o rows) (htype : req.rtype = .rd ∨ req.rtype = .wr)
    (hcnt : 1 < requestCnt) (hrow : row ∉ o.rows)
    (h : accessRow σ primaryKey requestCnt req row s = some (rc, s')) :
    (admits row = false ∧ rc = .abort ∧ s' = s) ∨
    (admits row = true ∧ rc = .rcok ∧ ∃ o', lawful.Foresees s' o' ∧ o'.rows = o.rows ++ [row] ∧
      Progress inPlace store o' (rows ++ if req.rtype = .wr then [row] else [])) := by
  have hkey := accessRow_key h
  simp only [accessRow, hkey, ne_eq, not_true_eq_false, if_false] at h
  cases hadmits : admits row with
  | false =>
      rw [hforesees.getRow_refused req.rtype hrow hadmits] at h
      cases h
      exact Or.inl ⟨rfl, rfl, rfl⟩
  | true =>
      have hxp : req.rtype ≠ .xp := by
        rcases htype with htype | htype
        · simp [htype]
        · simp [htype]
      obtain ⟨s₁, hget, hforesees₁⟩ := hforesees.getRow_admitted hrow hxp hadmits
      have hrows : (o.getRow row req.rtype).rows = o.rows ++ [row] := by
        simp [Outlook.rows, Outlook.getRow]
      have hprogress₁ := hprogress.getRow row req.rtype
      simp only [hget, gt_iff_lt, hcnt, if_true] at h
      refine Or.inr ⟨rfl, ?_⟩
      rcases htype with htype | htype
      · simp only [htype, true_or, if_true, Option.some.injEq, Prod.mk.injEq] at h
        obtain ⟨rfl, rfl⟩ := h
        refine ⟨rfl, _, hforesees₁, hrows, ?_⟩
        simpa [htype] using hprogress₁
      · simp only [htype, reduceCtorEq, or_self, if_false, if_true, Option.some.injEq,
          Prod.mk.injEq] at h
        obtain ⟨rfl, rfl⟩ := h
        have hlast : (o.getRow row req.rtype).held[o.held.length]? = some (row, .wr) := by
          simp [Outlook.getRow, htype]
        refine ⟨rfl, _, hforesees₁.writeShared hlast zeroFirst, ?_, ?_⟩
        · rw [Outlook.rows, Outlook.held_writeDirect]
          exact hrows
        · simp only [htype, if_true]
          exact (htype ▸ hprogress₁).writeDirect (fun hmem => hrow (hprogress.held row hmem))
            (by rw [htype] at hrows; simp [hrows])

/-- The loop writes the rows of the requests it reaches; when it ends with RCOK it has
    reached all of them. -/
theorem requestLoop_spec {requests : List Request} (hforesees : lawful.Foresees s o)
    (hprogress : Progress inPlace store o rows) (hcnt : 1 < requestCnt)
    (htypes : ∀ req ∈ requests, req.rtype = .rd ∨ req.rtype = .wr)
    (hkeys : (requests.map Request.key).Nodup)
    (hfresh : ∀ r ∈ o.rows, primaryKey r ∉ requests.map Request.key)
    (h : requestLoop σ primaryKey index requestCnt requests s = some (rc, s')) :
    (∃ o', lawful.Foresees s' o' ∧
      Progress inPlace store o' (rows ++ targets index (reached index admits requests))) ∧
    (rc = .rcok ∧ reached index admits requests = requests ∨ rc = .abort ∨ rc = .error) := by
  induction requests generalizing s o rows with
  | nil =>
      cases h
      refine ⟨⟨o, hforesees, ?_⟩, Or.inl ⟨rfl, rfl⟩⟩
      simpa [reached, targets] using hprogress
  | cons req requests ih =>
      have hstop : reached index admits (req :: requests) = [] →
          Progress inPlace store o
            (rows ++ targets index (reached index admits (req :: requests))) := by
        intro hnil
        simpa [hnil, targets] using hprogress
      rw [requestLoop] at h
      cases hread : index.read req.key with
      | absent =>
          simp only [hread] at h
          cases h
          exact ⟨⟨o, hforesees, hstop (by simp [reached, hread])⟩, Or.inr (Or.inl rfl)⟩
      | error =>
          simp only [hread] at h
          cases h
          exact ⟨⟨o, hforesees, hstop (by simp [reached, hread])⟩, Or.inr (Or.inr rfl)⟩
      | found row next =>
          simp only [hread] at h
          have htype := htypes req List.mem_cons_self
          have hkeys' := List.nodup_cons.mp hkeys
          have hpasses : req.passes - 1 = 0 := by simp [Request.passes, htype]
          rw [hpasses] at h
          cases haccess : accessRow σ primaryKey requestCnt req row s with
          | none => simp [haccess] at h
          | some result =>
              obtain ⟨rc₁, s₁⟩ := result
              have hkey := accessRow_key haccess
              have hrow : row ∉ o.rows := fun hmem => hfresh row hmem (by simp [hkey])
              obtain ⟨hadmits, rfl, rfl⟩ | ⟨hadmits, rfl, o₁, hforesees₁, hrows₁, hprogress₁⟩ :=
                accessRow_spec hforesees hprogress htype hcnt hrow haccess
              · simp only [haccess] at h
                cases h
                exact ⟨⟨o, hforesees, hstop (by simp [reached, hread, hadmits])⟩,
                  Or.inr (Or.inl rfl)⟩
              · simp only [haccess, scanLoop] at h
                have hfresh₁ : ∀ r ∈ o₁.rows, primaryKey r ∉ requests.map Request.key := by
                  intro r hr
                  rw [hrows₁] at hr
                  rcases List.mem_append.mp hr with hr | hr
                  · exact fun hmem => hfresh r hr (List.mem_cons_of_mem _ hmem)
                  · rw [List.mem_singleton.mp hr, hkey]
                    exact hkeys'.1
                have hreached : reached index admits (req :: requests) =
                    req :: reached index admits requests := by simp [reached, hread, hadmits]
                have htargets : targets index (req :: reached index admits requests) =
                    (if req.rtype = .wr then [row] else []) ++
                      targets index (reached index admits requests) := by
                  rcases htype with htype | htype
                  · simp [targets, htype]
                  · simp [targets, htype, hread]
                obtain ⟨⟨o', hforesees', hprogress'⟩, hrc⟩ := ih hforesees₁ hprogress₁
                  (fun q hq => htypes q (List.mem_cons_of_mem _ hq)) hkeys'.2 hfresh₁ h
                refine ⟨⟨o', hforesees', ?_⟩, ?_⟩
                · rw [hreached, htargets, ← List.append_assoc]
                  exact hprogress'
                · rw [hreached]
                  rcases hrc with ⟨hrc, hall⟩ | hrc
                  · exact Or.inl ⟨hrc, by rw [hall]⟩
                  · exact Or.inr hrc

/-- A transaction keeps to its outcome exactly if it is handed the shared rows or all
    it overwrites with zeros before it ends is zero already. -/
theorem runTxn_atomic {requests : List Request} {contents : R → List Byte}
    (hforesees : lawful.Foresees s (.start store)) (hcnt : 1 < requests.length)
    (htypes : ∀ req ∈ requests, req.rtype = .rd ∨ req.rtype = .wr)
    (hkeys : (requests.map Request.key).Nodup)
    (h : runTxn σ primaryKey index requests s = some (rc, contents)) :
    Atomic store (written store (targets index requests)) rc contents ↔
      inPlace = true ∨
        ∀ r ∈ targets index (reached index admits requests), zeroFirst (store r) = store r := by
  unfold runTxn at h
  cases hloop : requestLoop σ primaryKey index requests.length requests s with
  | none => simp [hloop] at h
  | some result =>
      obtain ⟨rc₁, s₁⟩ := result
      obtain ⟨⟨o, hforesees₁, hprogress⟩, hrc⟩ := requestLoop_spec hforesees
        (.start inPlace store) hcnt htypes hkeys (fun _ hr => nomatch hr) hloop
      rw [List.nil_append] at hprogress
      rw [← written_eq_self_iff]
      have hcommit := hprogress.onCommit
      have habort := hprogress.onAbort
      -- however the run ends, `finish` leaves one side of the outlook
      have hend : (rc = .rcok ∧ reached index admits requests = requests ∧
          contents = o.onCommit) ∨ (rc ≠ .rcok ∧ contents = o.onAbort) := by
        rcases hrc with ⟨rfl, hall⟩ | rfl | rfl
        · simp only [hloop] at h
          rcases hforesees₁.finish_rcok h with ⟨rfl, heq⟩ | ⟨rfl, heq⟩
          · exact Or.inl ⟨rfl, hall, heq⟩
          · exact Or.inr ⟨by decide, heq⟩
        · simp only [hloop] at h
          obtain ⟨rfl, heq⟩ := hforesees₁.finish_abort h
          exact Or.inr ⟨by decide, heq⟩
        · simp only [hloop] at h
          obtain ⟨⟨rc₂, contents₂⟩, hfinish, heq⟩ := Option.map_eq_some_iff.mp h
          cases heq
          exact Or.inr ⟨by decide, (hforesees₁.finish_abort hfinish).2⟩
      rcases hend with ⟨rfl, hall, rfl⟩ | ⟨hne, rfl⟩
      · rw [hall] at hcommit ⊢
        cases inPlace with
        | false =>
            simp only [Bool.false_eq_true, if_false] at hcommit
            simp [Atomic, hcommit, eq_comm]
        | true =>
            simp only [if_true] at hcommit
            simp [Atomic, hcommit]
      · cases inPlace with
        | false =>
            simp only [Bool.false_eq_true, if_false] at habort
            simp [Atomic, habort, hne]
        | true =>
            simp only [if_true] at habort
            simp [Atomic, habort, hne]

end

end VeriTxn.Ycsb
