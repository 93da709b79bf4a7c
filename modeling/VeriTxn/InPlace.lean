import Mathlib.Data.List.Basic
import Mathlib.Logic.Function.Basic

/-!
# Transactions that work in place

A transaction is a deterministic program over a store `R → D`: what it did and saw so far decides
what it does next, which is to obtain a row, to read or to change one, or to end.  Run alone, it
reads what is in the store and changes it there.  Histories of committed transactions are serial
when they run one after another this way.
-/

namespace InPlace

variable {R D K : Type}

/-- What a transaction does next; a row is obtained in a mode `K`. -/
inductive Instr (R D K : Type)
  | get (r : R) (mode : K)
  | read (r : R)
  | write (r : R) (d : D)
  | finish (commits : Bool)

/-- What a transaction has done, with the contents that a read has returned. -/
inductive Event (R D K : Type)
  | got (r : R) (mode : K)
  | saw (r : R) (d : D)
  | wrote (r : R) (d : D)

abbrev Program (R D K : Type) := List (Event R D K) → Instr R D K

def Event.instr : Event R D K → Instr R D K
  | .got r mode => .get r mode
  | .saw r _ => .read r
  | .wrote r d => .write r d

/-- Every event, last to first, is what the program asks for after those before it. -/
def Follows (p : Program R D K) : List (Event R D K) → Prop
  | [] => True
  | e :: before => p before.reverse = e.instr ∧ Follows p before

theorem Follows.snoc {p : Program R D K} {history : List (Event R D K)} {e : Event R D K}
    (h : Follows p history.reverse) (hnext : p history = e.instr) :
    Follows p (history ++ [e]).reverse := by
  rw [List.reverse_append, List.reverse_singleton, List.singleton_append]
  exact ⟨by rw [List.reverse_reverse, hnext], h⟩

variable [DecidableEq R]

/-- The events, first to last, on a store that the transaction has for itself. -/
def Replays : (R → D) → List (Event R D K) → (R → D) → Prop
  | store, [], store' => store = store'
  | store, .got _ _ :: events, store' => Replays store events store'
  | store, .saw r d :: events, store' => d = store r ∧ Replays store events store'
  | store, .wrote r d :: events, store' => Replays (Function.update store r d) events store'

/-- The whole run of a program that commits. -/
def Executes (p : Program R D K) (events : List (Event R D K)) (store store' : R → D) : Prop :=
  Follows p events.reverse ∧ p events = .finish true ∧ Replays store events store'

/-- The committed transactions one after another. -/
def SerialHistory : List (Program R D K × List (Event R D K)) → (R → D) → (R → D) → Prop
  | [], store, store' => store = store'
  | c :: rest, store, store' => ∃ mid, Executes c.1 c.2 store mid ∧ SerialHistory rest mid store'

theorem SerialHistory.snoc {history : List (Program R D K × List (Event R D K))}
    {c : Program R D K × List (Event R D K)} {store mid store' : R → D}
    (h : SerialHistory history store mid) (hlast : Executes c.1 c.2 mid store') :
    SerialHistory (history ++ [c]) store store' := by
  induction history generalizing store with
  | nil =>
      cases h
      exact ⟨store', hlast, rfl⟩
  | cons head rest ih =>
      obtain ⟨next, hhead, hrest⟩ := h
      exact ⟨next, hhead, ih hrest⟩

theorem replays_append {events events' : List (Event R D K)} {store store' : R → D} :
    Replays store (events ++ events') store' ↔
      ∃ mid, Replays store events mid ∧ Replays mid events' store' := by
  induction events generalizing store with
  | nil => exact ⟨fun h => ⟨store, rfl, h⟩, fun ⟨mid, h, h'⟩ => h ▸ h'⟩
  | cons e events ih =>
      cases e with
      | got r mode => exact ih
      | wrote r d => exact ih
      | saw r d =>
          constructor
          · rintro ⟨hd, h⟩
            obtain ⟨mid, h, h'⟩ := ih.mp h
            exact ⟨mid, ⟨hd, h⟩, h'⟩
          · rintro ⟨mid, ⟨hd, h⟩, h'⟩
            exact ⟨hd, ih.mpr ⟨mid, h, h'⟩⟩

/-- The rows that are read or written. -/
def Event.Touches (r : R) : Event R D K → Prop
  | .got _ _ => False
  | .saw r' _ => r' = r
  | .wrote r' _ => r' = r

/-- The rows that are written. -/
def Event.Writes (r : R) : Event R D K → Prop
  | .wrote r' _ => r' = r
  | _ => False

/-- Rows that are not written keep their contents. -/
theorem Replays.unwritten {events : List (Event R D K)} {store store' : R → D}
    (h : Replays store events store') {r : R} (hr : ∀ e ∈ events, ¬ e.Writes r) :
    store' r = store r := by
  induction events generalizing store with
  | nil => rw [show store = store' from h]
  | cons e events ih =>
      have hrest : ∀ e' ∈ events, ¬ e'.Writes r := fun e' he' => hr e' (List.mem_cons_of_mem _ he')
      cases e with
      | got r' mode => exact ih h hrest
      | saw r' d => exact ih h.2 hrest
      | wrote r' d =>
          have hne : r ≠ r' := fun heq => hr _ (List.mem_cons_self ..) heq.symm
          rw [ih h hrest, Function.update_of_ne hne]

/-- The events replay the same on a store with the same contents in the rows they touch. -/
theorem Replays.frame {events : List (Event R D K)} {store₁ store₁' : R → D}
    (h : Replays store₁ events store₁') {store₂ : R → D}
    (hsame : ∀ r, (∃ e ∈ events, e.Touches r) → store₂ r = store₁ r) :
    ∃ store₂', Replays store₂ events store₂' ∧
      ∀ r, store₂ r = store₁ r → store₂' r = store₁' r := by
  induction events generalizing store₁ store₂ with
  | nil =>
      cases h
      exact ⟨store₂, rfl, fun _ hr => hr⟩
  | cons e events ih =>
      have hrest : ∀ r, (∃ e' ∈ events, e'.Touches r) → store₂ r = store₁ r := by
        rintro r ⟨e', he', ht⟩
        exact hsame r ⟨e', List.mem_cons_of_mem _ he', ht⟩
      cases e with
      | got r mode => exact ih h hrest
      | saw r d =>
          obtain ⟨hd, h⟩ := h
          obtain ⟨store₂', h', heq⟩ := ih h hrest
          refine ⟨store₂', ⟨?_, h'⟩, heq⟩
          rw [hd, hsame r ⟨_, List.mem_cons_self .., rfl⟩]
      | wrote r d =>
          have hupdate : ∀ r', store₂ r' = store₁ r' →
              Function.update store₂ r d r' = Function.update store₁ r d r' := by
            intro r' hr'
            by_cases hrr : r' = r
            · rw [hrr, Function.update_self, Function.update_self]
            · rw [Function.update_of_ne hrr, Function.update_of_ne hrr, hr']
          obtain ⟨store₂', h', heq⟩ := ih h fun r' hr' => hupdate r' (hrest r' hr')
          exact ⟨store₂', h', fun r' hr' => heq r' (hupdate r' hr')⟩

end InPlace
