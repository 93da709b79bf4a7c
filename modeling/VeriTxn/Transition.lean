import Mathlib.Data.List.Basic

/-!
# Runs of guarded step functions

A system is a partial step function: `step s a = some s'` when action `a` is
enabled in `s`.  A run is a list of actions taken one after another.  The two
rules used by every development on top of it: an invariant of the steps is an
invariant of the runs, and it may use a condition that every step of the run
meets in the state before it.  Calls that may fail have rules of their own: what
holds of the result goes through the calls one after another.
-/

namespace Transition

variable {S A : Type*}

/-- The state after the actions, if all of them are enabled in turn. -/
def runs (step : S → A → Option S) : S → List A → Option S
  | s, [] => some s
  | s, a :: as => (step s a).bind fun s' => runs step s' as

/-- Every step of the run from `s` is taken in a state that meets `C`. -/
def AllSteps (step : S → A → Option S) (C : S → A → Prop) : S → List A → Prop
  | _, [] => True
  | s, a :: as => C s a ∧ ∀ s', step s a = some s' → AllSteps step C s' as

/-- Whether all steps meet a decidable condition is found by running them. -/
instance AllSteps.decidable (step : S → A → Option S) (C : S → A → Prop)
    [∀ s a, Decidable (C s a)] : ∀ s as, Decidable (AllSteps step C s as)
  | _, [] => .isTrue trivial
  | s, a :: as =>
      match h : step s a with
      | none => decidable_of_iff (C s a) ⟨fun hc => ⟨hc, by simp [h]⟩, And.left⟩
      | some s' =>
          have := AllSteps.decidable step C s' as
          decidable_of_iff (C s a ∧ AllSteps step C s' as)
            ⟨fun hc => ⟨hc.1, by simpa [h] using hc.2⟩, fun hc => ⟨hc.1, hc.2 s' h⟩⟩

@[simp] theorem runs_nil (step : S → A → Option S) (s : S) : runs step s [] = some s := rfl

theorem runs_cons (step : S → A → Option S) (s : S) (a : A) (as : List A) :
    runs step s (a :: as) = (step s a).bind fun s' => runs step s' as := rfl

/-- A nonempty run is a first step and a run from there. -/
theorem runs_cons_eq_some {step : S → A → Option S} {s t : S} {a : A} {as : List A} :
    runs step s (a :: as) = some t ↔ ∃ s', step s a = some s' ∧ runs step s' as = some t := by
  rw [runs_cons, Option.bind_eq_some_iff]

theorem runs_append {step : S → A → Option S} {s : S} (as bs : List A) :
    runs step s (as ++ bs) = (runs step s as).bind fun s' => runs step s' bs := by
  induction as generalizing s with
  | nil => rfl
  | cons a as ih =>
      rw [List.cons_append, runs_cons, runs_cons]
      cases hstep : step s a with
      | none => rfl
      | some s' => exact ih

/-- One more step at the end of a run. -/
theorem runs_snoc {step : S → A → Option S} {s t u : S} {as : List A} {a : A}
    (hrun : runs step s as = some t) (hstep : step t a = some u) :
    runs step s (as ++ [a]) = some u := by
  rw [runs_append, hrun, Option.bind_some, runs_cons, hstep, Option.bind_some, runs_nil]

/-- What every conditioned step preserves holds at the end of every run whose
    steps all meet the condition. -/
theorem runs_invariant {step : S → A → Option S} {C : S → A → Prop} {P : S → Prop}
    (hstep : ∀ s a s', P s → C s a → step s a = some s' → P s')
    {s t : S} {as : List A} (hinit : P s) (hmeet : AllSteps step C s as)
    (hrun : runs step s as = some t) : P t := by
  induction as generalizing s with
  | nil =>
      cases hrun
      exact hinit
  | cons a as ih =>
      obtain ⟨s', hfirst, hrest⟩ := runs_cons_eq_some.mp hrun
      exact ih (hstep s a s' hinit hmeet.1 hfirst) (hmeet.2 s' hfirst) hrest

/-- When every step keeps `P` exactly if it meets `C`, then `P` holds at every
    prefix of a run that ends in `Q` exactly if all its steps meet `C`.  Steps that
    do not lead to `Q` meet `C` by themselves. -/
theorem runs_prefixes_iff {step : S → A → Option S} {C : S → A → Prop} {J P : S → Prop}
    {Q : S → Prop} (hJ : ∀ s a s', J s → step s a = some s' → J s')
    (hiff : ∀ s a s', J s → P s → step s a = some s' → (P s' ↔ C s a))
    (hbusy : ∀ s a s', step s a = some s' → ¬ Q s' → C s a)
    {s t : S} {as : List A} (hj : J s) (hp : P s) (hrun : runs step s as = some t) :
    (∀ n s', runs step s (as.take n) = some s' → Q s' → P s') ↔ AllSteps step C s as := by
  induction as generalizing s with
  | nil =>
      refine ⟨fun _ => trivial, fun _ n s' hs' _ => ?_⟩
      simp only [List.take_nil, runs_nil, Option.some.injEq] at hs'
      exact hs' ▸ hp
  | cons a as ih =>
      obtain ⟨s₁, hfirst, hrest⟩ := runs_cons_eq_some.mp hrun
      have hj₁ := hJ s a s₁ hj hfirst
      have hstep := hiff s a s₁ hj hp hfirst
      constructor
      · intro hall
        have hone : C s a := by
          by_cases hquiet : Q s₁
          · exact hstep.mp (hall 1 s₁ (runs_cons_eq_some.mpr ⟨s₁, hfirst, rfl⟩) hquiet)
          · exact hbusy s a s₁ hfirst hquiet
        refine ⟨hone, fun s₂ hs₂ => ?_⟩
        rw [hfirst] at hs₂
        cases hs₂
        refine (ih hj₁ (hstep.mpr hone) hrest).mp fun n s' hs' => ?_
        exact hall (n + 1) s' (runs_cons_eq_some.mpr ⟨s₁, hfirst, hs'⟩)
      · intro hmeet n s' hs' hquiet
        cases n with
        | zero =>
            simp only [List.take_zero, runs_nil, Option.some.injEq] at hs'
            exact hs' ▸ hp
        | succ n =>
            obtain ⟨s₂, hs₂, hs'⟩ := runs_cons_eq_some.mp hs'
            rw [hfirst] at hs₂
            cases hs₂
            exact (ih hj₁ (hstep.mpr hmeet.1) hrest).mpr (hmeet.2 s₁ hfirst) n s' hs' hquiet

/-- What the condition gives wherever an invariant of the conditioned steps holds. -/
theorem AllSteps.imp {step : S → A → Option S} {C D : S → A → Prop} {J : S → Prop}
    (hJ : ∀ s a s', J s → C s a → step s a = some s' → J s') (himp : ∀ s a, J s → C s a → D s a)
    {s : S} (hj : J s) {as : List A} (h : AllSteps step C s as) : AllSteps step D s as := by
  induction as generalizing s with
  | nil => trivial
  | cons a as ih =>
      obtain ⟨hc, hrest⟩ := h
      exact ⟨himp s a hj hc, fun s' hstep => ih (hJ s a s' hj hc hstep) (hrest s' hstep)⟩

/-- Conditions that agree wherever an invariant holds are met by the same runs. -/
theorem allSteps_congr {step : S → A → Option S} {C D : S → A → Prop} {J : S → Prop}
    (hJ : ∀ s a s', J s → D s a → step s a = some s' → J s')
    (hiff : ∀ s a, J s → (C s a ↔ D s a)) {s : S} (hj : J s) (as : List A) :
    AllSteps step C s as ↔ AllSteps step D s as := by
  constructor
  · refine AllSteps.imp (fun s a s' hs hc => ?_) (fun s a hs => (hiff s a hs).mp) hj
    exact hJ s a s' hs ((hiff s a hs).mp hc)
  · exact AllSteps.imp hJ (fun s a hs => (hiff s a hs).mpr) hj

theorem allSteps_of_forall {step : S → A → Option S} {C : S → A → Prop} {as : List A}
    (h : ∀ s, ∀ a ∈ as, C s a) (s : S) : AllSteps step C s as := by
  induction as generalizing s with
  | nil => trivial
  | cons a as ih =>
      refine ⟨h s a (List.mem_cons_self ..), fun s' _ => ?_⟩
      exact ih (fun s b hb => h s b (List.mem_cons_of_mem _ hb)) s'

theorem allSteps_and {step : S → A → Option S} {C D : S → A → Prop} {s : S} {as : List A} :
    AllSteps step (fun s a => C s a ∧ D s a) s as ↔ AllSteps step C s as ∧ AllSteps step D s as := by
  induction as generalizing s with
  | nil => exact ⟨fun _ => ⟨trivial, trivial⟩, fun _ => trivial⟩
  | cons a as ih =>
      constructor
      · rintro ⟨⟨hc, hd⟩, hrest⟩
        exact ⟨⟨hc, fun s' hs' => (ih.mp (hrest s' hs')).1⟩,
          ⟨hd, fun s' hs' => (ih.mp (hrest s' hs')).2⟩⟩
      · rintro ⟨⟨hc, hcs⟩, hd, hds⟩
        exact ⟨⟨hc, hd⟩, fun s' hs' => ih.mpr ⟨hcs s' hs', hds s' hs'⟩⟩

/-- The steps of two runs, one after the other. -/
theorem allSteps_append {step : S → A → Option S} {C : S → A → Prop} {s : S} (as bs : List A) :
    AllSteps step C s (as ++ bs) ↔
      AllSteps step C s as ∧ ∀ s', runs step s as = some s' → AllSteps step C s' bs := by
  induction as generalizing s with
  | nil =>
      refine ⟨fun h => ⟨trivial, ?_⟩, fun h => h.2 s rfl⟩
      intro s' hs'
      cases hs'
      exact h
  | cons a as ih =>
      constructor
      · rintro ⟨hc, hrest⟩
        refine ⟨⟨hc, fun s' hs' => (ih.mp (hrest s' hs')).1⟩, fun t ht => ?_⟩
        obtain ⟨s', hs', ht⟩ := runs_cons_eq_some.mp ht
        exact (ih.mp (hrest s' hs')).2 t ht
      · rintro ⟨⟨hc, hrest⟩, hlast⟩
        refine ⟨hc, fun s' hs' => ih.mpr ⟨hrest s' hs', fun t ht => ?_⟩⟩
        exact hlast t (runs_cons_eq_some.mpr ⟨s', hs', ht⟩)

/-- A property of every state reached is one of the first state and of where each step leads. -/
theorem prefixes_iff_allSteps {step : S → A → Option S} {P : S → Prop} {s : S} (as : List A) :
    (∀ n s', runs step s (as.take n) = some s' → P s') ↔
      P s ∧ AllSteps step (fun s a => ∀ s', step s a = some s' → P s') s as := by
  induction as generalizing s with
  | nil =>
      refine ⟨fun h => ⟨h 0 s rfl, trivial⟩, fun h n s' hs' => ?_⟩
      rw [List.take_nil] at hs'
      cases hs'
      exact h.1
  | cons a as ih =>
      constructor
      · intro h
        refine ⟨h 0 s rfl, fun s' hs' => ?_, fun s' hs' => ?_⟩
        · exact h 1 s' (runs_cons_eq_some.mpr ⟨s', hs', rfl⟩)
        · refine (ih.mp fun n t ht => ?_).2
          exact h (n + 1) t (runs_cons_eq_some.mpr ⟨s', hs', ht⟩)
      · rintro ⟨hp, hfirst, hrest⟩ n t ht
        cases n with
        | zero =>
            cases ht
            exact hp
        | succ n =>
            obtain ⟨s', hs', ht⟩ := runs_cons_eq_some.mp ht
            exact ih.mpr ⟨hfirst s' hs', hrest s' hs'⟩ n t ht

/-! ### Calls that may fail -/

/-- A call returns something with property `P`, or ends in an allowed fault. -/
def Outcome {F α : Type} (allowed : F → Prop) (P : α → Prop) : Except F α → Prop
  | .ok x => P x
  | .error f => allowed f

@[simp] theorem ok_bind {F α β : Type} (a : α) (f : α → Except F β) :
    (Except.ok a >>= f) = f a := rfl

/-- A call that returns goes through its parts. -/
theorem bind_eq_ok {F α β : Type} {x : Except F α} {f : α → Except F β} {b : β}
    (h : (x >>= f) = .ok b) : ∃ a, x = .ok a ∧ f a = .ok b := by
  cases x with
  | ok a => exact ⟨a, rfl, h⟩
  | error e => cases h

section Outcome

variable {F α β : Type} {allowed allowed' : F → Prop} {P : α → Prop} {Q : β → Prop}

theorem Outcome.bind {x : Except F α} {f : α → Except F β} (hx : Outcome allowed P x)
    (hf : ∀ a, P a → Outcome allowed Q (f a)) : Outcome allowed Q (x >>= f) := by
  cases x with
  | ok a => exact hf a hx
  | error e => exact hx

theorem Outcome.map {x : Except F α} {f : α → β} (hx : Outcome allowed P x)
    (hf : ∀ a, P a → Q (f a)) : Outcome allowed Q (x.map f) := by
  cases x with
  | ok a => exact hf a hx
  | error e => exact hx

theorem Outcome.mono {P' : α → Prop} {x : Except F α} (hx : Outcome allowed P x)
    (hP : ∀ a, P a → P' a) : Outcome allowed P' x := by
  cases x with
  | ok a => exact hP a hx
  | error e => exact hx

theorem Outcome.weaken {x : Except F α} (hx : Outcome allowed P x)
    (hallowed : ∀ f, allowed f → allowed' f) : Outcome allowed' P x := by
  cases x with
  | ok a => exact hx
  | error e => exact hallowed e hx

theorem Outcome.foldlM {l : List β} {f : α → β → Except F α}
    (hf : ∀ a, ∀ b ∈ l, P a → Outcome allowed P (f a b)) {a : α} (ha : P a) :
    Outcome allowed P (l.foldlM f a) := by
  induction l generalizing a with
  | nil => exact ha
  | cons b l ih =>
      rw [List.foldlM_cons]
      refine Outcome.bind (hf a b (List.mem_cons_self ..) ha) fun a' ha' => ?_
      exact ih (fun a b hb => hf a b (List.mem_cons_of_mem _ hb)) ha'

end Outcome

/-- A loop whose rounds succeed and keep an invariant does so, too. -/
theorem foldlM_eq_some {α β : Type} {P : α → Prop} {l : List β} {f : α → β → Option α}
    (hf : ∀ a, ∀ b ∈ l, P a → ∃ a', f a b = some a' ∧ P a') {a : α} (ha : P a) :
    ∃ a', l.foldlM f a = some a' ∧ P a' := by
  induction l generalizing a with
  | nil => exact ⟨a, rfl, ha⟩
  | cons b l ih =>
      obtain ⟨a', hab, ha'⟩ := hf a b (List.mem_cons_self ..) ha
      rw [List.foldlM_cons, hab]
      exact ih (fun a b hb => hf a b (List.mem_cons_of_mem _ hb)) ha'

/-- What every round of a loop keeps holds after the loop. -/
theorem foldlM_keeps {α β : Type} {P : α → Prop} {l : List β} {f : α → β → Option α}
    (hf : ∀ a b a', P a → f a b = some a' → P a') {a a' : α} (ha : P a)
    (h : l.foldlM f a = some a') : P a' := by
  induction l generalizing a with
  | nil =>
      cases h
      exact ha
  | cons b l ih =>
      rw [List.foldlM_cons] at h
      obtain ⟨a₁, hab, h⟩ := Option.bind_eq_some_iff.mp h
      exact ih (hf a b a₁ ha hab) h

end Transition
