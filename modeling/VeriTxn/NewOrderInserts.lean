import VeriTxn.NewOrderTxn

/-!
# New-order inserts

After any interleaving of new-order transactions: which of a transaction's rows are
in the indexes.  They are those whose `index_insert` succeeded, whatever the
transaction returned, so all or nothing holds exactly if no insertion of a transaction
that goes through is refused, and none of one that is made to abort succeeds.
-/

namespace VeriTxn.Tpcc

open Transition

/-! ### The shape of the body -/

/-- The body stops when it is refused a row, and otherwise gives rows of `tables` to
    `insert_row`, one after the other, and finishes. -/
def Body.Keeps : Body → List Table → Prop
  | .indexRead _ _ k, tables =>
      (k none = .finish .abort ∨ k none = .crash) ∧ ∀ id, (k (some id)).Keeps tables
  | .getRow _ _ k, tables => k none = .finish .abort ∧ ∀ data, (k (some data)).Keeps tables
  | .setRow _ _ k, tables => k.Keeps tables
  | .insertRow row k, tables => ∃ rest, tables = row.table :: rest ∧ k.Keeps rest
  | .finish rc, tables => rc = .rcok ∧ tables = []
  | .crash, _ => True

theorem keeps_readOrAbort {index : Table} {key : UInt64} {k : Nat → Body} {tables : List Table}
    (h : ∀ id, (k id).Keeps tables) : (Body.readOrAbort index key k).Keeps tables :=
  ⟨Or.inl rfl, h⟩

theorem keeps_getOrAbort {row : RowRef} {type : AccessT} {k : List Bytes.Byte → Body}
    {tables : List Table} (h : ∀ data, (k data).Keeps tables) :
    (Body.getOrAbort row type k).Keeps tables :=
  ⟨rfl, h⟩

theorem keeps_orderLines (query : NewOrderQuery) (olNumber : Nat → UInt64)
    (oId discount : UInt64) (n : Nat) (items : List OrderItem) :
    (orderLines query olNumber oId discount n items).Keeps
      (List.replicate items.length .orderLine) := by
  induction items generalizing n with
  | nil => exact ⟨rfl, rfl⟩
  | cons item items ih =>
      refine keeps_readOrAbort fun i => keeps_getOrAbort fun itemLocal => ?_
      refine ⟨Or.inr rfl, fun st => keeps_getOrAbort fun stockLocal => ?_⟩
      exact ⟨_, rfl, ih (n + 1)⟩

/-- The tables of the rows of a new-order. -/
def NewOrderQuery.tables (query : NewOrderQuery) : List Table :=
  .order :: .newOrder :: List.replicate query.items.length .orderLine

theorem keeps_runNewOrder (query : NewOrderQuery) (olNumber : Nat → UInt64) :
    (runNewOrder query olNumber).Keeps query.tables := by
  refine keeps_readOrAbort fun wh => keeps_getOrAbort fun _ => ?_
  refine keeps_readOrAbort fun cust => keeps_getOrAbort fun custLocal => ?_
  refine keeps_readOrAbort fun dist => keeps_getOrAbort fun distLocal => ?_
  exact ⟨_, rfl, _, rfl, keeps_orderLines query olNumber _ _ 0 query.items⟩

/-! ### One transaction -/

/-- The answers that make a transaction abort. -/
def Answer.refuses : Answer → Bool
  | .item none | .row none | .finished false => true
  | _ => false

/-- What an `index_insert` returned. -/
def Answer.insertion : Answer → Option Bool
  | .inserted ok => some ok
  | _ => none

/-- Something made the transaction abort. -/
def Refused (answers : List Answer) : Prop := ∃ a ∈ answers, a.refuses = true

/-- What the transaction's insertions returned. -/
def insertions (answers : List Answer) : List Bool := answers.filterMap Answer.insertion

theorem refused_snoc (answers : List Answer) (a : Answer) :
    Refused (answers ++ [a]) ↔ Refused answers ∨ a.refuses = true := by
  simp [Refused, or_and_right, exists_or]

theorem insertions_snoc (answers : List Answer) (a : Answer) :
    insertions (answers ++ [a]) = insertions answers ++ a.insertion.toList := by
  cases h : a.insertion with
  | none => simp [insertions, h]
  | some ok => simp [insertions, h]

/-- Where a transaction with rows of `tables` to insert is after the answers. -/
structure Txn.Ran (tables : List Table) (answers : List Answer) (txn : Txn) : Prop where
  inserts : txn.inserts.map Prod.snd = insertions answers
  running : ∀ body, txn.status = .running body →
    (¬ Refused answers ∧ ∃ rest, body.Keeps rest ∧
      txn.inserts.map (fun i => i.1.table) ++ rest = tables) ∨
    (Refused answers ∧ (body = .finish .abort ∨ body = .crash))
  returned : ∀ rc, txn.status = .returned rc →
    (rc = .rcok ∧ ¬ Refused answers ∧ txn.inserts.map (fun i => i.1.table) = tables) ∨
    (rc = .abort ∧ Refused answers)

/-- While nothing was refused the rest of the body is as planned. -/
theorem Txn.Ran.planned {tables : List Table} {answers : List Answer} {txn : Txn} {body : Body}
    (h : txn.Ran tables answers) (hstatus : txn.status = .running body)
    (hbody : body ≠ .finish .abort ∧ body ≠ .crash) :
    ¬ Refused answers ∧ ∃ rest, body.Keeps rest ∧
      txn.inserts.map (fun i => i.1.table) ++ rest = tables := by
  rcases h.running body hstatus with hplan | ⟨-, hend | hend⟩
  · exact hplan
  · exact absurd hend hbody.1
  · exact absurd hend hbody.2

/-- After a call that leaves the transaction running. -/
theorem Txn.Ran.goOn {tables : List Table} {answers : List Answer} {txn : Txn} {a : Answer}
    {body : Body} {inserts : List (NewRow × Bool)} (h : txn.Ran tables answers)
    (hinserts : inserts.map Prod.snd = txn.inserts.map Prod.snd ++ a.insertion.toList)
    (hbody : (¬ Refused answers ∧ a.refuses = false ∧ ∃ rest, body.Keeps rest ∧
        inserts.map (fun i => i.1.table) ++ rest = tables) ∨
      (a.refuses = true ∧ (body = .finish .abort ∨ body = .crash))) :
    Txn.Ran tables (answers ++ [a]) ⟨.running body, inserts⟩ where
  inserts := by rw [insertions_snoc, ← h.inserts, hinserts]
  running := by
    intro body' hstatus
    cases hstatus
    rw [refused_snoc]
    rcases hbody with ⟨hnot, hgrant, hplan⟩ | ⟨hrefuse, hend⟩
    · exact Or.inl ⟨by simp [hnot, hgrant], hplan⟩
    · exact Or.inr ⟨Or.inr hrefuse, hend⟩
  returned := fun rc hstatus => nomatch hstatus

theorem Txn.step_ran {tables : List Table} {answers : List Answer} {txn txn' : Txn}
    {a : Answer} (h : txn.Ran tables answers) (hstep : txn.step a = some txn') :
    txn'.Ran tables (answers ++ [a]) := by
  unfold Txn.step at hstep
  split at hstep
  · rename_i index key k id hstatus
    cases hstep
    obtain ⟨hnot, rest, ⟨hnone, hsome⟩, hplan⟩ := h.planned hstatus (by simp)
    refine h.goOn (by simp [Answer.insertion]) ?_
    cases id with
    | none => exact Or.inr ⟨rfl, hnone⟩
    | some id => exact Or.inl ⟨hnot, rfl, rest, hsome id, hplan⟩
  · rename_i row type k data hstatus
    cases hstep
    obtain ⟨hnot, rest, ⟨hnone, hsome⟩, hplan⟩ := h.planned hstatus (by simp)
    refine h.goOn (by simp [Answer.insertion]) ?_
    cases data with
    | none => exact Or.inr ⟨rfl, Or.inl hnone⟩
    | some data => exact Or.inl ⟨hnot, rfl, rest, hsome data, hplan⟩
  · rename_i i data k hstatus
    cases hstep
    obtain ⟨hnot, rest, hkeeps, hplan⟩ := h.planned hstatus (by simp)
    exact h.goOn (by simp [Answer.insertion]) (Or.inl ⟨hnot, rfl, rest, hkeeps, hplan⟩)
  · rename_i row k ok hstatus
    cases hstep
    obtain ⟨hnot, _, ⟨rest, rfl, hkeeps⟩, hplan⟩ := h.planned hstatus (by simp)
    refine h.goOn (by simp [Answer.insertion]) (Or.inl ⟨hnot, rfl, rest, hkeeps, ?_⟩)
    simpa using hplan
  · rename_i rc ok hstatus
    cases hstep
    refine ⟨?_, fun body hstatus' => (nomatch hstatus'), ?_⟩
    · rw [insertions_snoc, ← h.inserts]
      simp [Answer.insertion]
    · intro rc' hstatus'
      cases hstatus'
      rw [refused_snoc]
      rcases h.running _ hstatus with ⟨hnot, rest, ⟨rfl, rfl⟩, hplan⟩ | ⟨hrefused, hend | hend⟩
      · cases ok with
        | false => exact Or.inr ⟨rfl, Or.inr rfl⟩
        | true =>
            refine Or.inl ⟨rfl, by simp [hnot, Answer.refuses], ?_⟩
            simpa using hplan
      · cases hend
        exact Or.inr ⟨rfl, Or.inl hrefused⟩
      · cases hend
  · cases hstep

/-- What a call adds to the rows given to `insert_row`. -/
theorem Txn.step_inserts {txn txn' : Txn} {a : Answer} (h : txn.step a = some txn') :
    (∃ row, txn.insertion a = some row ∧ txn'.inserts = txn.inserts ++ [(row, true)]) ∨
    (txn.insertion a = none ∧ ∃ failed, txn'.inserts = txn.inserts ++ failed ∧
      ∀ i ∈ failed, i.2 = false) := by
  unfold Txn.step at h
  split at h
  · cases h
    exact Or.inr ⟨by simp [Txn.insertion], [], by simp, by simp⟩
  · cases h
    exact Or.inr ⟨by simp [Txn.insertion], [], by simp, by simp⟩
  · cases h
    exact Or.inr ⟨by simp [Txn.insertion], [], by simp, by simp⟩
  · rename_i row k ok hstatus
    cases h
    cases ok with
    | false => exact Or.inr ⟨by simp [Txn.insertion, hstatus], [(row, false)], rfl, by simp⟩
    | true => exact Or.inl ⟨row, by simp [Txn.insertion, hstatus], rfl⟩
  · cases h
    exact Or.inr ⟨by simp [Txn.insertion], [], by simp, by simp⟩
  · cases h

/-! ### All of them -/

variable {T : Type} [DecidableEq T]

/-- The answers to transaction `t`. -/
def answersOf (t : T) (actions : List (T × Answer)) : List Answer :=
  (actions.filter fun a => a.1 = t).map Prod.snd

theorem answersOf_snoc_self (t : T) (actions : List (T × Answer)) (a : Answer) :
    answersOf t (actions ++ [(t, a)]) = answersOf t actions ++ [a] := by
  simp [answersOf]

theorem answersOf_snoc_ne {t u : T} (h : u ≠ t) (actions : List (T × Answer)) (a : Answer) :
    answersOf t (actions ++ [(u, a)]) = answersOf t actions := by
  simp [answersOf, h]

theorem getElem?_snoc_iff {α : Type} (l : List α) (x y : α) (n : Nat) :
    (l ++ [x])[n]? = some y ↔ l[n]? = some y ∨ (n = l.length ∧ y = x) := by
  rcases Nat.lt_trichotomy n l.length with hn | rfl | hn
  · rw [List.getElem?_append_left hn]
    simp [Nat.ne_of_lt hn]
  · simp [eq_comm]
  · have hout : (l ++ [x]).length ≤ n := by simp; omega
    rw [List.getElem?_eq_none hout, List.getElem?_eq_none (by omega)]
    simp [Nat.ne_of_gt hn]

/-- Failed insertions add nothing that is in an index. -/
theorem getElem?_failed_iff {inserts failed : List (NewRow × Bool)}
    (hfailed : ∀ i ∈ failed, i.2 = false) (n : Nat) (row : NewRow) :
    (inserts ++ failed)[n]? = some (row, true) ↔ inserts[n]? = some (row, true) := by
  by_cases hn : n < inserts.length
  · rw [List.getElem?_append_left hn]
  · rw [List.getElem?_append_right (Nat.not_lt.mp hn),
      List.getElem?_eq_none (l := inserts) (Nat.not_lt.mp hn)]
    refine iff_of_false (fun hget => ?_) (by simp)
    exact absurd (hfailed _ (List.mem_of_getElem? hget)) (by simp)

omit [DecidableEq T] in
theorem mem_insert (indexes : IndexItems T) (table table' : Table) (key key' : UInt64)
    (item item' : IndexItem T) :
    item' ∈ indexes.insert table key item table' key' ↔
      item' ∈ indexes table' key' ∨ (item' = item ∧ table' = table ∧ key' = key) := by
  unfold IndexItems.insert
  split
  · rename_i hat
    simp [hat.1, hat.2, or_comm]
  · rename_i hat
    simp [hat]

/-- After `actions` every transaction is where its answers brought it, and its rows in the
    indexes are those whose `index_insert` succeeded. -/
structure Sys.Inv (queries : T → NewOrderQuery) (actions : List (T × Answer)) (s : Sys T) :
    Prop where
  ran : ∀ t, (s.txns t).Ran (queries t).tables (answersOf t actions)
  items : ∀ t n row table key, .new t n row ∈ s.indexes table key ↔
    (s.txns t).inserts[n]? = some (row, true) ∧ row.table = table ∧ row.primaryKey = key

theorem Sys.init_inv (queries : T → NewOrderQuery) (olNumber : T → Nat → UInt64)
    (indexes : Table → UInt64 → List Nat) :
    (Sys.init queries olNumber indexes).Inv queries [] where
  ran := fun t => by
    refine ⟨rfl, fun body hstatus => ?_, fun rc hstatus => nomatch hstatus⟩
    cases hstatus
    exact Or.inl ⟨by simp [Refused, answersOf], _, keeps_runNewOrder _ _, rfl⟩
  items := by simp [Sys.init]

theorem Sys.step_inv {queries : T → NewOrderQuery} {actions : List (T × Answer)} {s s' : Sys T}
    {a : T × Answer} (h : s.Inv queries actions) (hstep : s.step a = some s') :
    s'.Inv queries (actions ++ [a]) := by
  obtain ⟨t, answer⟩ := a
  obtain ⟨txn', htxn, rfl⟩ := Option.map_eq_some_iff.mp hstep
  constructor
  · intro u
    by_cases hu : u = t
    · subst hu
      simp only [Function.update_self, answersOf_snoc_self]
      exact Txn.step_ran (h.ran u) htxn
    · simp only [Function.update_of_ne hu, answersOf_snoc_ne (Ne.symm hu)]
      exact h.ran u
  · intro u n row table key
    have hold := h.items u n row table key
    rcases Txn.step_inserts htxn with ⟨new, hnew, hinserts⟩ | ⟨hnone, failed, hinserts, hfailed⟩
    · simp only [IndexItems.after, hnew, mem_insert, hold]
      by_cases hu : u = t
      · subst hu
        simp only [Function.update_self, hinserts, getElem?_snoc_iff, IndexItem.new.injEq,
          true_and, Prod.mk.injEq, and_true]
        constructor
        · rintro (⟨hget, hrow⟩ | ⟨⟨hn, rfl⟩, rfl, rfl⟩)
          · exact ⟨Or.inl hget, hrow⟩
          · exact ⟨Or.inr ⟨hn, rfl⟩, rfl, rfl⟩
        · rintro ⟨hget | ⟨hn, rfl⟩, rfl, rfl⟩
          · exact Or.inl ⟨hget, rfl, rfl⟩
          · exact Or.inr ⟨⟨hn, rfl⟩, rfl, rfl⟩
      · simp [hu]
    · simp only [IndexItems.after, hnone, hold]
      by_cases hu : u = t
      · subst hu
        simp only [Function.update_self, hinserts, getElem?_failed_iff hfailed]
      · simp [hu]

theorem Sys.runs_inv {queries : T → NewOrderQuery} {before actions : List (T × Answer)}
    {s s' : Sys T} (h : s.Inv queries before) (hrun : runs Sys.step s actions = some s') :
    s'.Inv queries (before ++ actions) := by
  induction actions generalizing before s with
  | nil =>
      cases hrun
      simpa using h
  | cons a actions ih =>
      obtain ⟨s₁, hstep, hrest⟩ := runs_cons_eq_some.mp hrun
      have hinv := ih (Sys.step_inv h hstep) hrest
      rwa [List.append_assoc] at hinv

/-- The rows are all in the indexes exactly if every insertion succeeded. -/
theorem Sys.Inv.all_in_iff {queries : T → NewOrderQuery} {actions : List (T × Answer)}
    {s : Sys T} (h : s.Inv queries actions) (t : T) :
    (∀ n row, ((s.txns t).inserts.map Prod.fst)[n]? = some row →
      .new t n row ∈ s.indexes row.table row.primaryKey) ↔
    ∀ ok ∈ insertions (answersOf t actions), ok = true := by
  rw [← (h.ran t).inserts]
  constructor
  · intro hall ok hok
    obtain ⟨⟨row, ok⟩, hmem, rfl⟩ := List.mem_map.mp hok
    obtain ⟨n, hn⟩ := List.mem_iff_getElem?.mp hmem
    have hin := ((h.items t n row _ _).mp (hall n row (by simp [hn]))).1
    rw [hn] at hin
    cases hin
    rfl
  · intro hall n row hrow
    rw [List.getElem?_map] at hrow
    obtain ⟨⟨row, ok⟩, hn, rfl⟩ := Option.map_eq_some_iff.mp hrow
    have hok : ok = true :=
      hall ok (List.mem_map.mpr ⟨(row, ok), List.mem_of_getElem? hn, rfl⟩)
    subst hok
    exact (h.items t n row _ _).mpr ⟨hn, rfl, rfl⟩

/-- None of the rows is in an index exactly if every insertion failed. -/
theorem Sys.Inv.none_in_iff {queries : T → NewOrderQuery} {actions : List (T × Answer)}
    {s : Sys T} (h : s.Inv queries actions) (t : T) :
    (∀ n row table key, .new t n row ∉ s.indexes table key) ↔
    ∀ ok ∈ insertions (answersOf t actions), ok = false := by
  rw [← (h.ran t).inserts]
  constructor
  · intro hnone ok hok
    obtain ⟨⟨row, ok⟩, hmem, rfl⟩ := List.mem_map.mp hok
    obtain ⟨n, hn⟩ := List.mem_iff_getElem?.mp hmem
    cases ok with
    | false => rfl
    | true => exact absurd ((h.items t n row _ _).mpr ⟨hn, rfl, rfl⟩) (hnone n row _ _)
  · intro hall n row table key hin
    have hn := ((h.items t n row _ _).mp hin).1
    have hfalse := hall true (List.mem_map.mpr ⟨(row, true), List.mem_of_getElem? hn, rfl⟩)
    cases hfalse

/-! ### The run without one of them -/

/-- The item is no row of `t`. -/
def IndexItem.foreign (t : T) : IndexItem T → Bool
  | .old _ => true
  | .new u _ _ => u ≠ t

/-- `s₀` is `s` without what `t` did. -/
structure Sys.Without (t : T) (s s₀ : Sys T) : Prop where
  txns : ∀ u, u ≠ t → s₀.txns u = s.txns u
  indexes : ∀ table key, s₀.indexes table key = (s.indexes table key).filter (·.foreign t)

theorem Sys.init_without (queries : T → NewOrderQuery) (olNumber : T → Nat → UInt64)
    (indexes : Table → UInt64 → List Nat) (t : T) :
    (Sys.init queries olNumber indexes).Without t (Sys.init queries olNumber indexes) where
  txns := fun _ _ => rfl
  indexes := fun table key => by
    refine (List.filter_eq_self.mpr fun item hitem => ?_).symm
    obtain ⟨id, -, rfl⟩ := List.mem_map.mp hitem
    rfl

theorem filter_insert (indexes : IndexItems T) (t : T) (table table' : Table)
    (key key' : UInt64) (item : IndexItem T) :
    (indexes.insert table key item table' key').filter (·.foreign t) =
      if item.foreign t then
        IndexItems.insert (fun table key => (indexes table key).filter (·.foreign t)) table key
          item table' key'
      else (indexes table' key').filter (·.foreign t) := by
  unfold IndexItems.insert
  by_cases hat : table' = table ∧ key' = key
  · simp [hat.1, hat.2, List.filter_cons]
  · simp [hat]

/-- A call of `t` itself does not show. -/
theorem Sys.Without.step_self {t : T} {s s₀ s' : Sys T} {answer : Answer}
    (h : s.Without t s₀) (hstep : s.step (t, answer) = some s') : s'.Without t s₀ := by
  obtain ⟨txn', htxn, rfl⟩ := Option.map_eq_some_iff.mp hstep
  refine ⟨fun u hu => ?_, fun table key => ?_⟩
  · simp only [Function.update_of_ne hu]
    exact h.txns u hu
  · rw [h.indexes]
    cases hins : (s.txns t).insertion answer with
    | none => simp only [IndexItems.after, hins]
    | some row =>
        simp only [IndexItems.after, hins]
        rw [filter_insert]
        simp [IndexItem.foreign]

/-- A call of another transaction goes the same way. -/
theorem Sys.Without.step_other {t u : T} {s s₀ s' : Sys T} {answer : Answer}
    (h : s.Without t s₀) (hu : u ≠ t) (hstep : s.step (u, answer) = some s') :
    ∃ s₀', s₀.step (u, answer) = some s₀' ∧ s'.Without t s₀' := by
  obtain ⟨txn', htxn, rfl⟩ := Option.map_eq_some_iff.mp hstep
  have hsame := h.txns u hu
  refine ⟨⟨s₀.indexes.after u (s.txns u) answer, Function.update s₀.txns u txn'⟩, ?_,
    fun v hv => ?_, fun table key => ?_⟩
  · simp only [Sys.step, hsame]
    exact Option.map_eq_some_iff.mpr ⟨txn', htxn, rfl⟩
  · by_cases hvu : v = u
    · subst hvu
      simp
    · simp only [Function.update_of_ne hvu]
      exact h.txns v hv
  · have hindexes : s₀.indexes = fun table key => (s.indexes table key).filter (·.foreign t) :=
      funext fun table => funext fun key => h.indexes table key
    cases hins : (s.txns u).insertion answer with
    | none => simp only [IndexItems.after, hins, hindexes]
    | some row =>
        simp only [IndexItems.after, hins]
        rw [filter_insert, hindexes]
        simp [IndexItem.foreign, hu]

/-- The others' calls make a run of their own, which leaves what `t` did not do. -/
theorem Sys.Without.run {t : T} {actions : List (T × Answer)} {s s₀ s' : Sys T}
    (h : s.Without t s₀) (hrun : runs Sys.step s actions = some s') :
    ∃ s₀', runs Sys.step s₀ (actions.filter fun a => a.1 ≠ t) = some s₀' ∧ s'.Without t s₀' := by
  induction actions generalizing s s₀ with
  | nil =>
      cases hrun
      exact ⟨s₀, rfl, h⟩
  | cons a actions ih =>
      obtain ⟨u, answer⟩ := a
      obtain ⟨s₁, hstep, hrest⟩ := runs_cons_eq_some.mp hrun
      by_cases hu : u = t
      · subst hu
        obtain ⟨s₀', hrun', hwithout⟩ := ih (h.step_self hstep) hrest
        exact ⟨s₀', by simpa using hrun', hwithout⟩
      · obtain ⟨s₀₁, hstep₀, hwithout₁⟩ := h.step_other hu hstep
        obtain ⟨s₀', hrun', hwithout⟩ := ih hwithout₁ hrest
        refine ⟨s₀', ?_, hwithout⟩
        rw [List.filter_cons_of_pos (by simpa using hu)]
        exact runs_cons_eq_some.mpr ⟨s₀₁, hstep₀, hrun'⟩

/-! ### All or nothing -/

/-- `indexes` has the rows of a transaction that returned `rc` exactly if that is RCOK, and
    is otherwise what it is `without` the transaction. -/
structure AllOrNothing (t : T) (rc : RC) (rows : List NewRow) (without indexes : IndexItems T) :
    Prop where
  committed : rc = .rcok → ∀ n row, rows[n]? = some row →
    .new t n row ∈ indexes row.table row.primaryKey
  aborted : rc ≠ .rcok → ∀ n row table key, .new t n row ∉ indexes table key
  otherwise : ∀ table key, (indexes table key).filter (·.foreign t) = without table key

/-- No insertion succeeded of a transaction that is made to abort, and none failed of one
    that is not. -/
def Undisturbed (answers : List Answer) : Prop :=
  (Refused answers → ∀ ok ∈ insertions answers, ok = false) ∧
  (¬ Refused answers → ∀ ok ∈ insertions answers, ok = true)

/-- In every interleaving, a new-order that has returned is all or nothing exactly if it was
    undisturbed.  When it returned RCOK it had given an ORDER, a NEW-ORDER and an ORDER-LINE
    row for each item to `insert_row`. -/
theorem new_order_all_or_nothing_iff (queries : T → NewOrderQuery) (olNumber : T → Nat → UInt64)
    (indexes : Table → UInt64 → List Nat) (actions : List (T × Answer)) (s : Sys T)
    (hrun : runs Sys.step (Sys.init queries olNumber indexes) actions = some s) (t : T) (rc : RC)
    (hret : (s.txns t).status = .returned rc) :
    ∃ s₀, runs Sys.step (Sys.init queries olNumber indexes)
        (actions.filter fun a => a.1 ≠ t) = some s₀ ∧
      (rc = .rcok → (s.txns t).inserts.map (fun i => i.1.table) = (queries t).tables) ∧
      (AllOrNothing t rc ((s.txns t).inserts.map Prod.fst) s₀.indexes s.indexes ↔
        Undisturbed (answersOf t actions)) := by
  have hinv := Sys.runs_inv (Sys.init_inv queries olNumber indexes) hrun
  rw [List.nil_append] at hinv
  obtain ⟨s₀, hrun₀, hs₀⟩ := (Sys.init_without queries olNumber indexes t).run hrun
  have hreturned := (hinv.ran t).returned rc hret
  refine ⟨s₀, hrun₀, ?_, ?_⟩
  · rintro rfl
    rcases hreturned with ⟨-, -, htables⟩ | ⟨habort, -⟩
    · exact htables
    · cases habort
  · have hother : ∀ table key, (s.indexes table key).filter (·.foreign t) =
        s₀.indexes table key := fun table key => (hs₀.indexes table key).symm
    rcases hreturned with ⟨rfl, hnot, -⟩ | ⟨rfl, hrefused⟩
    · constructor
      · intro h
        exact ⟨fun hrefused => absurd hrefused hnot, fun _ =>
          (hinv.all_in_iff t).mp (h.committed rfl)⟩
      · rintro ⟨-, hall⟩
        exact ⟨fun _ => (hinv.all_in_iff t).mpr (hall hnot), fun hne => absurd rfl hne, hother⟩
    · constructor
      · intro h
        exact ⟨fun _ => (hinv.none_in_iff t).mp (h.aborted (by decide)), fun hnot =>
          absurd hrefused hnot⟩
      · rintro ⟨hall, -⟩
        exact ⟨by simp, fun _ => (hinv.none_in_iff t).mpr (hall hrefused), hother⟩

/-! ### Two transactions -/

/-- An order of one item. -/
def oneItem : NewOrderQuery := ⟨1, 1, 1, [⟨1, 1, 1⟩], false, 2013⟩

def oneItemEach : Sys Bool := Sys.init (fun _ => oneItem) (fun _ => .ofNat) fun _ _ => []

/-- All rows are found and handed out; the insertions and `finish` return as given. -/
def answering (order newOrder orderLine ok : Bool) : List Answer :=
  [.item (some 0), .row (some []), .item (some 0), .row (some []), .item (some 0), .row (some []),
    .set, .inserted order, .inserted newOrder, .item (some 0), .row (some []), .item (some 0),
    .row (some []), .set, .inserted orderLine, .finished ok]

/-- Both transactions take turns and go through. -/
def inTurns : List (Bool × Answer) :=
  (answering true true true true).flatMap fun a => [(false, a), (true, a)]

/-- The run, and what transaction `t` returned at its end. -/
def returnedBy (t : Bool) (actions : List (Bool × Answer)) : Option RC :=
  (runs Sys.step oneItemEach actions).bind fun s =>
    match (s.txns t).status with
    | .running _ => none
    | .returned rc => some rc

theorem exists_of_returnedBy {t : Bool} {actions : List (Bool × Answer)} {rc : RC}
    (h : returnedBy t actions = some rc) :
    ∃ s, runs Sys.step oneItemEach actions = some s ∧ (s.txns t).status = .returned rc := by
  obtain ⟨s, hrun, h⟩ := Option.bind_eq_some_iff.mp h
  refine ⟨s, hrun, ?_⟩
  split at h
  · cases h
  · rename_i hstatus
    cases h
    exact hstatus

theorem new_order_all_or_nothing_in_turns :
    ∃ s, runs Sys.step oneItemEach inTurns = some s ∧ (s.txns true).status = .returned .rcok ∧
      ∃ s₀ : Sys Bool, AllOrNothing true .rcok ((s.txns true).inserts.map Prod.fst) s₀.indexes
        s.indexes := by
  obtain ⟨s, hrun, hret⟩ := exists_of_returnedBy
    (show returnedBy true inTurns = some .rcok by decide +kernel)
  refine ⟨s, hrun, hret, ?_⟩
  obtain ⟨s₀, -, -, hiff⟩ := new_order_all_or_nothing_iff (fun _ => oneItem) (fun _ => .ofNat)
    (fun _ _ => []) inTurns s hrun true .rcok hret
  refine ⟨s₀, hiff.mpr ⟨fun hrefused => ?_, fun _ => by decide +kernel⟩⟩
  obtain ⟨a, ha, hrefuses⟩ := hrefused
  have hnone : ((answersOf true inTurns).any Answer.refuses) = false := by decide +kernel
  exact absurd (List.any_eq_true.mpr ⟨a, ha, hrefuses⟩) (by simp [hnone])

/-- A transaction that fails to validate leaves its rows in the indexes; one whose second
    insertion meets a latch returns RCOK without its NEW-ORDER row. -/
theorem new_order_torn :
    (∃ s, runs Sys.step oneItemEach ((answering true true true false).map (false, ·)) = some s ∧
      (s.txns false).status = .returned .abort ∧
      ∀ without, ¬ AllOrNothing false .abort ((s.txns false).inserts.map Prod.fst) without
        s.indexes) ∧
    ∃ s, runs Sys.step oneItemEach ((answering true false true true).map (false, ·)) = some s ∧
      (s.txns false).status = .returned .rcok ∧
      ∀ without, ¬ AllOrNothing false .rcok ((s.txns false).inserts.map Prod.fst) without
        s.indexes := by
  constructor
  · obtain ⟨s, hrun, hret⟩ := exists_of_returnedBy (show returnedBy false
      ((answering true true true false).map (false, ·)) = some .abort by decide +kernel)
    refine ⟨s, hrun, hret, fun without h => ?_⟩
    have hinv := Sys.runs_inv (Sys.init_inv _ _ _) hrun
    exact absurd ((hinv.none_in_iff false).mp (h.aborted (by decide))) (by decide +kernel)
  · obtain ⟨s, hrun, hret⟩ := exists_of_returnedBy (show returnedBy false
      ((answering true false true true).map (false, ·)) = some .rcok by decide +kernel)
    refine ⟨s, hrun, hret, fun without h => ?_⟩
    have hinv := Sys.runs_inv (Sys.init_inv _ _ _) hrun
    exact absurd ((hinv.all_in_iff false).mp (h.committed rfl)) (by decide +kernel)

end VeriTxn.Tpcc
