import VeriTxn.OccValidation
import VeriTxn.RowLock
import VeriTxn.Transition

/-!
# The redo log against the row contents

Transactions run one after another through `get_row`, writes to the returned
row, and `finish`; `cleanup` sends one log entry per transaction.  Replaying the
entries from the initial contents should give the contents the run leaves.

`cleanup` builds the entry from `orig_row->data` before its `return_row` loop.
Under OCC that is the contents before the transaction, under NO_WAIT the
contents with the transaction's changes, whether it commits or not.
-/

namespace VeriTxn.RedoLog

set_option linter.unusedSectionVars false

open Serial Transition

variable {R D : Type} [DecidableEq R]

/-- One entry of the log: the transaction's outcome, the row contents when it
    began, and the records sent, each naming a row. -/
structure LogEntry (R D : Type) where
  rc : RC
  before : R → D
  records : List (R × D)

/-- Each record overwrites the row it names by the record's data. -/
def replay (store : R → D) (log : List (LogEntry R D)) : R → D :=
  log.foldl (fun st e => install st e.records) store

/-- Replaying the log gives the contents, and no aborted transaction logged a
    record that differs from the contents before it. -/
def LogExact (store : R → D) (log : List (LogEntry R D)) (contents : R → D) : Prop :=
  replay store log = contents ∧
    ∀ e ∈ log, e.rc = .abort → ∀ record ∈ e.records, record.2 = e.before record.1

/-- What a transaction does to the database. -/
inductive Action (R D : Type) where
  /-- a transaction manager begins a transaction, with its `start_ts` -/
  | begin (txn : Nat) (startTs : Nat)
  | getRow (r : R) (type : AccessT)
  /-- change the row returned by the `i`-th `get_row`, obtained for writing -/
  | write (i : Nat) (data : D)
  /-- `finish(RCOK)` or `finish(Abort)` -/
  | finish (commit : Bool)

@[simp] theorem replay_snoc (store : R → D) (log : List (LogEntry R D)) (e : LogEntry R D) :
    replay store (log ++ [e]) = install (replay store log) e.records := by
  simp [replay]

/-- Extending an exact log by one entry. -/
theorem logExact_snoc_iff {store contents contents' : R → D} {log : List (LogEntry R D)}
    {e : LogEntry R D} (h : LogExact store log contents) :
    LogExact store (log ++ [e]) contents' ↔ install contents e.records = contents' ∧
      (e.rc = .abort → ∀ record ∈ e.records, record.2 = e.before record.1) := by
  have hreplay : replay store (log ++ [e]) = install contents e.records := by
    rw [replay_snoc, h.1]
  constructor
  · intro hsnoc
    exact ⟨hreplay ▸ hsnoc.1, hsnoc.2 e (by simp)⟩
  · rintro ⟨hinstall, habort⟩
    refine ⟨hreplay.trans hinstall, ?_⟩
    intro e' he'
    rcases List.mem_append.mp he' with hold | hnew
    · exact h.2 e' hold
    · rw [List.mem_singleton.mp hnew]
      exact habort

/-! ### OCC -/

namespace OccRun

open Occ

/-- The transaction under way.  `refused` is set once `get_row` returned NULL. -/
structure Current (R D : Type) where
  startTs : Nat
  before : R → D
  accesses : List (Access R D)
  refused : Bool

structure State (R D : Type) where
  rows : R → Row D
  timestampEnc : Nat
  current : Option (Current R D)
  log : List (LogEntry R D)

def State.contents (s : State R D) : R → D := fun r => (s.rows r).data

def State.init (store : R → D) : State R D :=
  ⟨fun r => ⟨store r, 0⟩, initialTimestamp, none, []⟩

/-- Serial transactions under OCC. -/
def step (cfg : TsConfig) (names : RowNames R) (s : State R D) :
    Action R D → Option (State R D)
  | .begin _ startTs =>
      match s.current with
      | some _ => none
      | none => some { s with current := some ⟨startTs, s.contents, [], false⟩ }
  | .getRow r type =>
      match s.current with
      | none => none
      | some c =>
          if c.refused ∨ type = .xp then none
          else
            match (s.rows r).access c.startTs with
            | none => some { s with current := some { c with refused := true } }
            | some copy =>
                let a : Access R D := ⟨type, r, copy, (s.rows r).wts⟩
                some { s with current := some { c with accesses := c.accesses ++ [a] } }
  | .write i data =>
      match s.current with
      | none => none
      | some c =>
          match c.accesses[i]? with
          | none => none
          | some a =>
              if c.refused ∨ a.type ≠ .wr then none
              else
                some { s with
                  current := some { c with accesses := c.accesses.set i { a with data := data } } }
  | .finish commit =>
      match s.current with
      | none => none
      | some c =>
          if commit then
            if c.refused then none
            else
              (perRowValidate cfg names s.rows s.timestampEnc c.startTs c.accesses).map fun v =>
                ⟨v.rows, v.timestampEnc, none, s.log ++ [⟨v.rc, c.before, v.entry⟩]⟩
          else
            (cleanup s.rows 0 .abort c.accesses).map fun (entry, rows) =>
              ⟨rows, s.timestampEnc, none, s.log ++ [⟨.abort, c.before, entry⟩]⟩

/-- The condition on a step: a commit that passes validation finds every copy it
    installs equal to the row's contents. -/
def InstallsNothingNew (s : State R D) : Action R D → Prop
  | .finish true =>
      ∀ c, s.current = some c → (∀ a ∈ c.accesses, (s.rows a.origRow).validate c.startTs = true) →
        ∀ a ∈ c.accesses, a.type = .wr → a.data = (s.rows a.origRow).data
  | _ => True

instance InstallsNothingNew.decidable [DecidableEq D] (s : State R D) (a : Action R D) :
    Decidable (InstallsNothingNew s a) :=
  match a with
  | .finish true => inferInstanceAs (Decidable (∀ c ∈ s.current,
      (∀ a ∈ c.accesses, (s.rows a.origRow).validate c.startTs = true) →
        ∀ a ∈ c.accesses, a.type = .wr → a.data = (s.rows a.origRow).data))
  | .finish false | .begin _ _ | .getRow _ _ | .write _ _ => .isTrue trivial

/-- Every record of an entry holds the row's contents of the state before. -/
theorem record_eq {rows : R → Row D} {accesses : List (Access R D)} :
    ∀ record ∈ createLogEntry rows accesses, record.2 = (rows record.1).data := by
  intro record hrecord
  obtain ⟨a, _, rfl⟩ := List.mem_map.mp hrecord
  rfl

/-- In a serial run the contents do not change while a transaction is under way. -/
def Before (s : State R D) : Prop := ∀ c, s.current = some c → c.before = s.contents

theorem before_step {cfg : TsConfig} {names : RowNames R} {s s' : State R D} {a : Action R D}
    (h : Before s) (hstep : step cfg names s a = some s') : Before s' := by
  cases a with
  | begin txn startTs =>
      simp only [step] at hstep
      split at hstep <;> cases hstep
      rintro c ⟨⟩
      rfl
  | getRow r type =>
      simp only [step] at hstep
      split at hstep
      · cases hstep
      · rename_i c hc
        split at hstep
        · cases hstep
        · split at hstep <;> cases hstep <;> rintro c' ⟨⟩ <;> exact h c hc
  | write i data =>
      simp only [step] at hstep
      split at hstep
      · cases hstep
      · rename_i c hc
        split at hstep
        · cases hstep
        · split at hstep <;> cases hstep
          rintro c' ⟨⟩
          exact h c hc
  | finish commit =>
      simp only [step] at hstep
      split at hstep
      · cases hstep
      · split at hstep
        · split at hstep
          · cases hstep
          · obtain ⟨v, _, rfl⟩ := Option.map_eq_some_iff.mp hstep
            rintro c ⟨⟩
        · obtain ⟨v, _, rfl⟩ := Option.map_eq_some_iff.mp hstep
          rintro c ⟨⟩

/-- One step keeps the log exact precisely when it meets the condition. -/
theorem logExact_step_iff {cfg : TsConfig} {names : RowNames R} {store : R → D}
    {s s' : State R D} {a : Action R D} (hbefore : Before s)
    (h : LogExact store s.log s.contents) (hstep : step cfg names s a = some s') :
    LogExact store s'.log s'.contents ↔ InstallsNothingNew s a := by
  cases a with
  | begin txn startTs =>
      simp only [step] at hstep
      split at hstep <;> cases hstep
      exact ⟨fun _ => trivial, fun _ => h⟩
  | getRow r type =>
      simp only [step] at hstep
      split at hstep
      · cases hstep
      · split at hstep
        · cases hstep
        · split at hstep <;> cases hstep <;> exact ⟨fun _ => trivial, fun _ => h⟩
  | write i data =>
      simp only [step] at hstep
      split at hstep
      · cases hstep
      · split at hstep
        · cases hstep
        · split at hstep <;> cases hstep
          exact ⟨fun _ => trivial, fun _ => h⟩
  | finish commit =>
      simp only [step] at hstep
      split at hstep
      · cases hstep
      · rename_i c hc
        have hcontents := hbefore c hc
        split at hstep
        · rename_i hcommit
          subst hcommit
          split at hstep
          · cases hstep
          · obtain ⟨v, hv, rfl⟩ := Option.map_eq_some_iff.mp hstep
            obtain ⟨hentry, hcase⟩ := perRowValidate_cases hv
            have hsame : install s.contents v.entry = s.contents :=
              install_eq_self (hentry ▸ record_eq)
            rw [logExact_snoc_iff h]
            simp only [hsame]
            rcases hcase with ⟨hrc, hvalid, hnodup, -, hdata⟩ | ⟨hrc, ⟨b, hb, hlt⟩, hrows⟩
            · simp only [hrc, reduceCtorEq, false_implies, and_true]
              change s.contents = (fun r => (v.rows r).data) ↔ _
              have hperm : (sortAccesses names c.accesses).reverse.Perm c.accesses :=
                (List.reverse_perm _).trans (sortAccesses_perm names _)
              have hrows : ((writePairs (sortAccesses names c.accesses).reverse).map
                  Prod.fst).Nodup :=
                ((hperm.map Access.origRow).nodup_iff.mpr hnodup).sublist
                  (writePairs_rows_sublist _)
              rw [hdata, eq_comm]
              rw [show (fun r => (s.rows r).data) = s.contents from rfl, install_eq_self_iff hrows]
              constructor
              · rintro hall c' hc' - a ha hwr
                rw [hc] at hc'
                cases hc'
                exact hall (a.origRow, a.data)
                  (mem_writePairs.mpr ⟨a, hperm.mem_iff.mpr ha, hwr, rfl⟩)
              · intro hcond w hw
                obtain ⟨a, ha, hwr, rfl⟩ := mem_writePairs.mp hw
                exact hcond c hc (fun d hd => (Row.validate_iff _ _).mpr (hvalid d hd)) a
                  (hperm.mem_iff.mp ha) hwr
            · refine ⟨fun _ => ?_, fun _ => ⟨?_, fun _ => ?_⟩⟩
              · intro c' hc' hpass
                rw [hc] at hc'
                cases hc'
                exact absurd ((Row.validate_iff _ _).mp (hpass b hb)) (Nat.not_le.mpr hlt)
              · simp only [hrows]
                rfl
              · rw [hcontents, hentry]
                exact record_eq
        · rename_i hcommit
          have hfalse : commit = false := by simpa using hcommit
          subst hfalse
          rw [cleanup_abort] at hstep
          cases hstep
          rw [logExact_snoc_iff h]
          refine ⟨fun _ => trivial, fun _ => ⟨install_eq_self record_eq, fun _ => ?_⟩⟩
          rw [hcontents]
          exact record_eq

/-- A step that leaves a transaction under way is no commit. -/
theorem installsNothingNew_of_busy {cfg : TsConfig} {names : RowNames R} {s s' : State R D}
    {a : Action R D} (hstep : step cfg names s a = some s') (hbusy : s'.current ≠ none) :
    InstallsNothingNew s a := by
  cases a with
  | begin txn startTs => trivial
  | getRow r type => trivial
  | write i data => trivial
  | finish commit =>
      simp only [step] at hstep
      split at hstep
      · cases hstep
      · split at hstep
        · split at hstep
          · cases hstep
          · obtain ⟨v, _, rfl⟩ := Option.map_eq_some_iff.mp hstep
            exact absurd rfl hbusy
        · obtain ⟨v, _, rfl⟩ := Option.map_eq_some_iff.mp hstep
          exact absurd rfl hbusy

end OccRun

/-! ### NO_WAIT -/

namespace NoWaitRun

open NoWait

structure Current (R D : Type) where
  txn : Nat
  before : R → D
  accesses : List (Access R D)
  refused : Bool

structure State (R D : Type) where
  rows : R → Row Nat D
  current : Option (Current R D)
  log : List (LogEntry R D)

def State.contents (s : State R D) : R → D := fun r => (s.rows r).data

def State.init (store : R → D) : State R D :=
  ⟨fun r => ⟨store r, [], .none⟩, none, []⟩

/-- Serial transactions under NO_WAIT: the row returned by `get_row` is the
    shared row, so a write changes it in place. -/
def step (s : State R D) : Action R D → Option (State R D)
  | .begin txn _ =>
      match s.current with
      | some _ => none
      | none => some { s with current := some ⟨txn, s.contents, [], false⟩ }
  | .getRow r type =>
      match s.current with
      | none => none
      | some c =>
          if c.refused ∨ type = .xp then none
          else
            match getRow s.rows c.txn r type with
            | none => some { s with current := some { c with refused := true } }
            | some (rows, a) =>
                some { s with
                  rows := rows
                  current := some { c with accesses := c.accesses ++ [a] } }
  | .write i data =>
      match s.current with
      | none => none
      | some c =>
          match c.accesses[i]? with
          | none => none
          | some a =>
              if c.refused ∨ a.type ≠ .wr then none
              else
                some { s with
                  rows := Function.update s.rows a.origRow
                    { s.rows a.origRow with data := data } }
  | .finish commit =>
      match s.current with
      | none => none
      | some c =>
          if commit ∧ c.refused then none
          else
            let rc := if commit then RC.rcok else .abort
            (cleanup s.rows c.txn rc c.accesses).map fun (entry, rows) =>
              ⟨rows, none, s.log ++ [⟨rc, c.before, entry⟩]⟩

/-- The condition on a step: an abort finds every row it holds for writing as
    it was when obtained. -/
def AbortsUnchanged (s : State R D) : Action R D → Prop
  | .finish false =>
      ∀ c, s.current = some c → ∀ a ∈ c.accesses, a.type = .wr →
        (s.rows a.origRow).data = a.origData
  | _ => True

instance AbortsUnchanged.decidable [DecidableEq D] (s : State R D) (a : Action R D) :
    Decidable (AbortsUnchanged s a) :=
  match a with
  | .finish false => inferInstanceAs (Decidable (∀ c ∈ s.current, ∀ a ∈ c.accesses,
      a.type = .wr → (s.rows a.origRow).data = a.origData))
  | .finish true | .begin _ _ | .getRow _ _ | .write _ _ => .isTrue trivial

/-- The contents without the changes of the transaction under way. -/
def State.settled (s : State R D) : R → D :=
  match s.current with
  | none => s.contents
  | some c => c.before

/-- A transaction under way holds its write accesses exclusively, has kept
    their contents, and has changed no other row. -/
structure Current.Holds (c : Current R D) (rows : R → Row Nat D) : Prop where
  locked : ∀ a ∈ c.accesses, a.type = .wr → (rows a.origRow).lockType = .ex
  kept : ∀ a ∈ c.accesses, a.type = .wr → a.origData = c.before a.origRow
  types : ∀ a ∈ c.accesses, a.type ≠ .xp
  unchanged : ∀ r, (∀ a ∈ c.accesses, a.type = .wr → a.origRow ≠ r) →
    (rows r).data = c.before r

def Held (s : State R D) : Prop := ∀ c, s.current = some c → c.Holds s.rows

theorem conflict_of_ex {type : AccessT} : conflictLock .ex (lockFor type) = true := by
  cases type <;> rfl

theorem Current.Holds.getRow {c : Current R D} {rows rows' : R → Row Nat D} {r : R}
    {type : AccessT} {a : Access R D} (h : c.Holds rows) (hxp : type ≠ .xp)
    (hget : getRow rows c.txn r type = some (rows', a)) :
    Current.Holds { c with accesses := c.accesses ++ [a] } rows' := by
  obtain ⟨row, hlock, heq⟩ := Option.map_eq_some_iff.mp hget
  obtain ⟨rfl, rfl⟩ := Prod.mk.inj heq
  obtain ⟨hdata, hlockType, hconflict⟩ := Row.lockGet_data hlock
  -- a row held for writing refuses every further request
  have hfree : ∀ b ∈ c.accesses, b.type = .wr → b.origRow ≠ r := by
    rintro b hb hwr rfl
    rw [h.locked b hb hwr, conflict_of_ex] at hconflict
    cases hconflict
  refine ⟨?_, ?_, ?_, ?_⟩
  · intro b hb hwr
    rcases List.mem_append.mp hb with hold | hnew
    · rw [Function.update_of_ne (hfree b hold hwr)]
      exact h.locked b hold hwr
    · cases List.mem_singleton.mp hnew
      simp only at hwr
      simp [hlockType, hwr, lockFor]
  · intro b hb hwr
    rcases List.mem_append.mp hb with hold | hnew
    · exact h.kept b hold hwr
    · cases List.mem_singleton.mp hnew
      exact h.unchanged r hfree
  · intro b hb
    rcases List.mem_append.mp hb with hold | hnew
    · exact h.types b hold
    · cases List.mem_singleton.mp hnew
      exact hxp
  · intro r' hr'
    have hold : (rows r').data = c.before r' :=
      h.unchanged r' fun b hb => hr' b (List.mem_append_left _ hb)
    by_cases hr : r' = r
    · subst hr
      rw [Function.update_self, hdata]
      exact hold
    · rw [Function.update_of_ne hr]
      exact hold

theorem Current.Holds.write {c : Current R D} {rows : R → Row Nat D} {a : Access R D}
    (h : c.Holds rows) (ha : a ∈ c.accesses) (hwr : a.type = .wr) (data : D) :
    c.Holds (Function.update rows a.origRow { rows a.origRow with data := data }) where
  locked := by
    intro b hb hbwr
    by_cases hrow : b.origRow = a.origRow
    · rw [hrow, Function.update_self]
      exact h.locked a ha hwr
    · rw [Function.update_of_ne hrow]
      exact h.locked b hb hbwr
  kept := h.kept
  types := h.types
  unchanged := by
    intro r hr
    rw [Function.update_of_ne (Ne.symm (hr a ha hwr))]
    exact h.unchanged r hr

theorem held_step {s s' : State R D} {a : Action R D} (h : Held s)
    (hstep : step s a = some s') : Held s' := by
  cases a with
  | begin txn startTs =>
      simp only [step] at hstep
      split at hstep <;> cases hstep
      rintro c ⟨⟩
      exact ⟨by simp, by simp, by simp, fun _ _ => rfl⟩
  | getRow r type =>
      simp only [step] at hstep
      split at hstep
      · cases hstep
      · rename_i c hc
        split at hstep
        · cases hstep
        · rename_i hguard
          push Not at hguard
          split at hstep
          · cases hstep
            rintro c' ⟨⟩
            exact ⟨(h c hc).locked, (h c hc).kept, (h c hc).types, (h c hc).unchanged⟩
          · rename_i rows a hget
            cases hstep
            rintro c' ⟨⟩
            exact (h c hc).getRow hguard.2 hget
  | write i data =>
      simp only [step] at hstep
      split at hstep
      · cases hstep
      · rename_i c hc
        split at hstep
        · cases hstep
        · rename_i a ha
          split at hstep
          · cases hstep
          · rename_i hguard
            push Not at hguard
            cases hstep
            intro c' hc'
            simp only [hc, Option.some.injEq] at hc'
            subst hc'
            exact (h c hc).write (List.mem_of_getElem? ha) hguard.2 data
  | finish commit =>
      simp only [step] at hstep
      split at hstep
      · cases hstep
      · split at hstep
        · cases hstep
        · obtain ⟨v, _, rfl⟩ := Option.map_eq_some_iff.mp hstep
          rintro c ⟨⟩

theorem mem_createLogEntry {rows : R → Row Nat D} {accesses : List (Access R D)} {w : R × D} :
    w ∈ createLogEntry rows accesses ↔
      ∃ a ∈ accesses, a.type = .wr ∧ w = (a.origRow, (rows a.origRow).data) := by
  simp only [createLogEntry, List.mem_map, List.mem_filter, decide_eq_true_eq]
  exact ⟨fun ⟨a, ⟨ha, hwr⟩, hw⟩ => ⟨a, ha, hwr, hw.symm⟩,
    fun ⟨a, ha, hwr, hw⟩ => ⟨a, ⟨ha, hwr⟩, hw.symm⟩⟩

/-- A commit finds its changes in the rows and keeps them there: the entry turns
    the contents before the transaction into those it leaves. -/
theorem Current.Holds.commit {c : Current R D} {rows : R → Row Nat D} (h : c.Holds rows)
    {result : List (R × D) × (R → Row Nat D)}
    (hclean : cleanup rows c.txn .rcok c.accesses = some result) :
    install c.before result.1 = fun r => (result.2 r).data := by
  obtain ⟨hentry, hdata⟩ := cleanup_cases hclean
  have hnone : undoPairs (c.accesses.map fun a =>
      if a.type = .wr ∧ RC.rcok = .abort then { a with type := .xp } else a).reverse = [] := by
    refine List.filterMap_eq_nil_iff.mpr fun a ha => if_neg ?_
    simp only [reduceCtorEq, and_false, if_false, List.map_id', List.mem_reverse] at ha
    exact h.types a ha
  rw [hdata, hnone, hentry]
  refine install_eq_of_agree ?_ fun r hr => (h.unchanged r ?_).symm
  · intro w hw
    obtain ⟨a, _, _, rfl⟩ := mem_createLogEntry.mp hw
    rfl
  · rintro a ha hwr rfl
    exact hr (List.mem_map_of_mem (f := Prod.fst) (mem_createLogEntry.mpr ⟨a, ha, hwr, rfl⟩))

/-- An abort restores the contents before the transaction. -/
theorem Current.Holds.abort {c : Current R D} {rows : R → Row Nat D} (h : c.Holds rows)
    {result : List (R × D) × (R → Row Nat D)}
    (hclean : cleanup rows c.txn .abort c.accesses = some result) :
    result.1 = createLogEntry rows c.accesses ∧ (fun r => (result.2 r).data) = c.before := by
  obtain ⟨hentry, hdata⟩ := cleanup_cases hclean
  refine ⟨hentry, ?_⟩
  rw [hdata]
  refine install_eq_of_agree ?_ fun r hr => h.unchanged r ?_
  · intro w hw
    obtain ⟨b, hb, hw⟩ := List.mem_filterMap.mp hw
    obtain ⟨a, ha, rfl⟩ := List.mem_map.mp (List.mem_reverse.mp hb)
    by_cases hwr : a.type = .wr
    · simp only [hwr, and_self, if_true, Option.some.injEq] at hw
      subst hw
      exact h.kept a ha hwr
    · simp only [hwr, false_and, if_false, if_neg (h.types a ha)] at hw
      cases hw
  · rintro a ha hwr rfl
    let undone : Access R D := { a with type := .xp }
    have hundone : undone ∈ (c.accesses.map fun b =>
        if b.type = .wr ∧ RC.abort = .abort then { b with type := .xp } else b).reverse :=
      List.mem_reverse.mpr (List.mem_map.mpr ⟨a, ha, if_pos ⟨hwr, rfl⟩⟩)
    have hpair : (a.origRow, a.origData) ∈ undoPairs (c.accesses.map fun b =>
        if b.type = .wr ∧ RC.abort = .abort then { b with type := .xp } else b).reverse :=
      List.mem_filterMap.mpr ⟨undone, hundone, if_pos rfl⟩
    exact hr (List.mem_map_of_mem (f := Prod.fst) hpair)

/-- One step keeps the log exact precisely when it meets the condition. -/
theorem logExact_step_iff {store : R → D} {s s' : State R D} {a : Action R D} (hheld : Held s)
    (h : LogExact store s.log s.settled) (hstep : step s a = some s') :
    LogExact store s'.log s'.settled ↔ AbortsUnchanged s a := by
  cases a with
  | begin txn startTs =>
      simp only [step] at hstep
      split at hstep <;> cases hstep
      rename_i hnone
      simp only [State.settled, hnone] at h
      exact ⟨fun _ => trivial, fun _ => h⟩
  | getRow r type =>
      simp only [step] at hstep
      split at hstep
      · cases hstep
      · rename_i c hc
        simp only [State.settled, hc] at h
        split at hstep
        · cases hstep
        · split at hstep <;> cases hstep <;> exact ⟨fun _ => trivial, fun _ => h⟩
  | write i data =>
      simp only [step] at hstep
      split at hstep
      · cases hstep
      · rename_i c hc
        simp only [State.settled, hc] at h
        split at hstep
        · cases hstep
        · split at hstep <;> cases hstep
          refine ⟨fun _ => trivial, fun _ => ?_⟩
          simp only [State.settled, hc]
          exact h
  | finish commit =>
      simp only [step] at hstep
      split at hstep
      · cases hstep
      · rename_i c hc
        simp only [State.settled, hc] at h
        split at hstep
        · cases hstep
        · obtain ⟨result, hclean, rfl⟩ := Option.map_eq_some_iff.mp hstep
          rw [logExact_snoc_iff h]
          cases commit with
          | true =>
              refine ⟨fun _ => trivial, fun _ => ⟨(hheld c hc).commit hclean, ?_⟩⟩
              rintro ⟨⟩
          | false =>
              obtain ⟨hentry, hafter⟩ := (hheld c hc).abort hclean
              have hsettled : State.settled ⟨result.2, none,
                  s.log ++ [⟨.abort, c.before, result.1⟩]⟩ = c.before := hafter
              simp only [Bool.false_eq_true, if_false] at *
              rw [hsettled]
              constructor
              · rintro ⟨-, hrecords⟩ c' hc' a ha hwr
                rw [hc] at hc'
                cases hc'
                rw [(hheld c hc).kept a ha hwr]
                exact hrecords trivial (a.origRow, (s.rows a.origRow).data)
                  (hentry ▸ mem_createLogEntry.mpr ⟨a, ha, hwr, rfl⟩)
              · intro hcond
                have hrecords : ∀ w ∈ result.1, w.2 = c.before w.1 := by
                  intro w hw
                  obtain ⟨a, ha, hwr, rfl⟩ := mem_createLogEntry.mp (hentry ▸ hw)
                  exact (hcond c hc a ha hwr).trans ((hheld c hc).kept a ha hwr)
                exact ⟨install_eq_self hrecords, fun _ => hrecords⟩

/-- A step that leaves a transaction under way is no abort. -/
theorem abortsUnchanged_of_busy {s s' : State R D} {a : Action R D}
    (hstep : step s a = some s') (hbusy : s'.current ≠ none) : AbortsUnchanged s a := by
  cases a with
  | begin txn startTs => trivial
  | getRow r type => trivial
  | write i data => trivial
  | finish commit =>
      simp only [step] at hstep
      split at hstep
      · cases hstep
      · split at hstep
        · cases hstep
        · obtain ⟨v, _, rfl⟩ := Option.map_eq_some_iff.mp hstep
          exact absurd rfl hbusy

end NoWaitRun

/-! ### Both schemes -/

theorem logExact_nil (store : R → D) : LogExact store [] store :=
  ⟨rfl, by simp⟩

/-- **When the redo log is exact.**  For every initial contents and every serial
    run, under OCC and under NO_WAIT, replaying the log gives the row contents
    whenever a transaction has ended, and aborted transactions log no changed
    data, if and only if every committing OCC transaction installs only contents
    the rows already have and every aborting NO_WAIT transaction has changed
    nothing. -/
theorem redo_log_exact_iff (cfg : TsConfig) (names : Occ.RowNames R) (store : R → D)
    (actions : List (Action R D)) :
    (∀ t, runs (OccRun.step cfg names) (OccRun.State.init store) actions = some t →
      ((∀ n s, runs (OccRun.step cfg names) (OccRun.State.init store) (actions.take n) = some s →
          s.current = none → LogExact store s.log s.contents) ↔
        AllSteps (OccRun.step cfg names) OccRun.InstallsNothingNew
          (OccRun.State.init store) actions)) ∧
    (∀ t, runs NoWaitRun.step (NoWaitRun.State.init store) actions = some t →
      ((∀ n s, runs NoWaitRun.step (NoWaitRun.State.init store) (actions.take n) = some s →
          s.current = none → LogExact store s.log s.contents) ↔
        AllSteps NoWaitRun.step NoWaitRun.AbortsUnchanged
          (NoWaitRun.State.init store) actions)) := by
  refine ⟨fun t hrun => ?_, fun t hrun => ?_⟩
  · exact runs_prefixes_iff (J := OccRun.Before)
      (P := fun s => LogExact store s.log s.contents)
      (fun _ _ _ => OccRun.before_step) (fun _ _ _ => OccRun.logExact_step_iff)
      (fun _ _ _ => OccRun.installsNothingNew_of_busy) (by rintro c ⟨⟩)
      (logExact_nil store) hrun
  · have hprefixes := runs_prefixes_iff (J := NoWaitRun.Held)
      (P := fun s => LogExact store s.log s.settled)
      (Q := fun s : NoWaitRun.State R D => s.current = none)
      (fun _ _ _ => NoWaitRun.held_step) (fun _ _ _ => NoWaitRun.logExact_step_iff)
      (fun _ _ _ => NoWaitRun.abortsUnchanged_of_busy) (by rintro c ⟨⟩)
      (logExact_nil store) hrun
    rw [← hprefixes]
    have hquiet : ∀ s : NoWaitRun.State R D, s.current = none → s.settled = s.contents := by
      intro s hs
      simp only [NoWaitRun.State.settled, hs]
    constructor
    · intro hall n s hs hnone
      rw [hquiet s hnone]
      exact hall n s hs hnone
    · intro hall n s hs hnone
      rw [← hquiet s hnone]
      exact hall n s hs hnone

/-- A transaction that writes what the row already holds. -/
def sameWrite : List (Action Unit Nat) :=
  [.begin 0 1, .getRow () .wr, .write 0 7, .finish true]

/-- A transaction that changes the row, and one that aborts without a change. -/
def writeAndAbort : List (Action Unit Nat) :=
  [.begin 0 1, .getRow () .wr, .write 0 5, .finish true, .begin 1 2, .getRow () .wr, .finish false]

theorem redo_log_exact_writes :
    (∀ n s, runs (OccRun.step TsConfig.default ⟨fun _ => "MAIN_TABLE", fun _ => 0⟩)
        (OccRun.State.init fun _ : Unit => 7) (sameWrite.take n) = some s →
      s.current = none → LogExact (fun _ => 7) s.log s.contents) ∧
    (∀ n s, runs NoWaitRun.step (NoWaitRun.State.init fun _ : Unit => 7)
        (writeAndAbort.take n) = some s →
      s.current = none → LogExact (fun _ => 7) s.log s.contents) := by
  have hocc : AllSteps (OccRun.step TsConfig.default ⟨fun _ => "MAIN_TABLE", fun _ => 0⟩)
      OccRun.InstallsNothingNew (OccRun.State.init fun _ : Unit => 7) sameWrite := by
    decide
  have hnoWait : AllSteps NoWaitRun.step NoWaitRun.AbortsUnchanged
      (NoWaitRun.State.init fun _ : Unit => 7) writeAndAbort := by
    decide
  exact ⟨((redo_log_exact_iff TsConfig.default _ (fun _ : Unit => 7) sameWrite).1 _ rfl).mpr hocc,
    ((redo_log_exact_iff TsConfig.default ⟨fun _ => "MAIN_TABLE", fun _ => 0⟩ (fun _ : Unit => 7)
      writeAndAbort).2 _ rfl).mpr hnoWait⟩

/-- One OCC commit that changes a row logs the contents before it, and one
    NO_WAIT abort logs the contents it is about to undo. -/
theorem redo_log_not_exact :
    (∃ s, runs (OccRun.step TsConfig.default ⟨fun _ => "MAIN_TABLE", fun _ => 0⟩)
        (OccRun.State.init fun _ : Unit => 0)
        [.begin 0 1, .getRow () .wr, .write 0 5, .finish true] = some s ∧
      s.current = none ∧ ¬ LogExact (fun _ => 0) s.log s.contents) ∧
    (∃ s, runs NoWaitRun.step (NoWaitRun.State.init fun _ : Unit => 0)
        [.begin 0 1, .getRow () .wr, .write 0 5, .finish false] = some s ∧
      s.current = none ∧ ¬ LogExact (fun _ => 0) s.log s.contents) := by
  refine ⟨⟨_, rfl, rfl, fun hexact => ?_⟩, ⟨_, rfl, rfl, fun hexact => ?_⟩⟩
  · exact absurd (congrFun hexact.1 ()) (by decide)
  · exact absurd (congrFun hexact.1 ()) (by decide)

end VeriTxn.RedoLog
