import VeriTxn.Serial

/-!
# Serial orders fixed before the outcome

A transaction takes its place in the serial order at a moment of its choice and
learns later whether it commits in that place or gives it up.  What it has read
is tied to the place one row at a time: a row is guarded once the copy is known to
be the one its place asks for.

Rows carry versions.  A place that is still reserved keeps everybody behind it
away from the rows it is going to write, and a row that somebody behind it has
written carries a version above the one it has seen.
-/

namespace Serial

variable {K R D : Type*}

/-- An access that has been made: what it returned and the version it came with. -/
structure Seen (R D : Type*) where
  op : Op R D
  version : Nat

/-- A place in the order. -/
inductive Place (K R D : Type*) where
  /-- `k` has taken the place and has not decided yet -/
  | reserved (k : K)
  /-- a committed observation -/
  | taken (c : Program R D × List (Op R D))

/-- The rows with every committed write in them, and what the transactions under
    way have seen and guarded. -/
structure View (K R D : Type*) where
  store : R → D
  version : R → Nat
  seen : K → List (Seen R D)
  guarded : K → R → Prop

/-- `k` is going to write the row. -/
def View.Writes (v : View K R D) (k : K) (r : R) : Prop :=
  ∃ a ∈ v.seen k, a.op.writes = true ∧ a.op.row = r

/-- The rows the outcome at a place depends on. -/
def View.Uses (v : View K R D) : Place K R D → R → Prop
  | .reserved k, r => v.guarded k r
  | .taken c, r => r ∈ c.2.map Op.row

/-- The rows a place has changed. -/
def Place.Changes : Place K R D → R → Prop
  | .reserved _, _ => False
  | .taken c, r => r ∈ (c.1.writeSet c.2).map Prod.fst

/-- What a place that is still reserved may ask of a later one. -/
def View.Apart (v : View K R D) : Place K R D → Place K R D → Prop
  | .reserved k, later =>
      later ≠ .reserved k ∧ (∀ r, v.Writes k r → ¬ v.Uses later r) ∧
        ∀ a ∈ v.seen k, later.Changes a.op.row → a.version < v.version a.op.row
  | .taken _, _ => True

/-- The committed observations, in the order of their places. -/
def committedOf (order : List (Place K R D)) : List (Program R D × List (Op R D)) :=
  order.filterMap fun
    | .reserved _ => none
    | .taken c => some c

@[simp] theorem committedOf_nil : committedOf ([] : List (Place K R D)) = [] := rfl

@[simp] theorem committedOf_append (order order' : List (Place K R D)) :
    committedOf (order ++ order') = committedOf order ++ committedOf order' :=
  List.filterMap_append

@[simp] theorem committedOf_reserved (k : K) (order : List (Place K R D)) :
    committedOf (.reserved k :: order) = committedOf order := rfl

@[simp] theorem committedOf_taken (c : Program R D × List (Op R D)) (order : List (Place K R D)) :
    committedOf (.taken c :: order) = c :: committedOf order := rfl

/-- A place writes rows of its own accesses only. -/
theorem writesFrom_rows {p : Program R D} {values : List D} {i : Nat} {ops : List (Op R D)} {r : R}
    (h : r ∈ (p.writesFrom values i ops).map Prod.fst) :
    ∃ o ∈ ops, o.writes = true ∧ o.row = r := by
  induction ops generalizing i with
  | nil => cases h
  | cons o ops ih =>
      unfold Program.writesFrom at h
      split at h
      next hwrites =>
        rcases List.mem_cons.mp h with hr | hr
        · exact ⟨o, List.mem_cons_self .., hwrites, hr.symm⟩
        · obtain ⟨o', ho', hrest⟩ := ih hr
          exact ⟨o', List.mem_cons_of_mem _ ho', hrest⟩
      next =>
        obtain ⟨o', ho', hrest⟩ := ih h
        exact ⟨o', List.mem_cons_of_mem _ ho', hrest⟩

theorem Program.writeSet_rows {p : Program R D} {ops : List (Op R D)} {r : R}
    (h : r ∈ (p.writeSet ops).map Prod.fst) : ∃ o ∈ ops, o.writes = true ∧ o.row = r :=
  writesFrom_rows h

theorem View.uses_of_changes (v : View K R D) {p : Place K R D} {r : R} (h : p.Changes r) :
    v.Uses p r := by
  cases p with
  | reserved k => cases h
  | taken c =>
      obtain ⟨o, ho, -, rfl⟩ := Program.writeSet_rows h
      exact List.mem_map_of_mem ho

variable [DecidableEq R]

/-- The store behind a list of places. -/
def after (store : R → D) : List (Place K R D) → R → D
  | [] => store
  | .reserved _ :: order => after store order
  | .taken c :: order => after (install store (c.1.writeSet c.2)) order

/-- Every place has read what its predecessors left: a committed one in all its rows, a
    reserved one in the rows it guards. -/
def View.Fits (v : View K R D) : (R → D) → List (Place K R D) → Prop
  | _, [] => True
  | store, .reserved k :: order =>
      (∀ a ∈ v.seen k, v.guarded k a.op.row → a.op.value = store a.op.row) ∧ v.Fits store order
  | store, .taken c :: order =>
      c.1.Observes c.2 ∧ (∀ o ∈ c.2, o.value = store o.row) ∧
        v.Fits (install store (c.1.writeSet c.2)) order

/-- The order accounts for the view, from the store `base` on. -/
structure View.Placed (v : View K R D) (base : R → D) (order : List (Place K R D)) : Prop where
  fits : v.Fits base order
  apart : order.Pairwise v.Apart
  settled : after base order = v.store
  current : ∀ k, ∀ a ∈ v.seen k, a.version ≤ v.version a.op.row ∧
    (a.version = v.version a.op.row → a.op.value = v.store a.op.row)

/-! ### Stores behind places -/

theorem install_congr {store store' : R → D} {r : R} (h : store r = store' r)
    (writes : List (R × D)) : install store writes r = install store' writes r := by
  induction writes generalizing store store' with
  | nil => exact h
  | cons w writes ih =>
      rw [install_cons, install_cons]
      refine ih ?_
      by_cases hr : r = w.1
      · rw [hr, Function.update_self, Function.update_self]
      · rw [Function.update_of_ne hr, Function.update_of_ne hr, h]

/-- A row that is written ends as written, wherever the writes start. -/
theorem install_eq_of_mem (store store' : R → D) {writes : List (R × D)} {r : R}
    (h : r ∈ writes.map Prod.fst) : install store writes r = install store' writes r := by
  induction writes generalizing store store' with
  | nil => cases h
  | cons w writes ih =>
      rw [install_cons, install_cons]
      by_cases hr : r ∈ writes.map Prod.fst
      · exact ih _ _ hr
      · rcases List.mem_cons.mp h with rfl | hmem
        · exact install_congr (by rw [Function.update_self, Function.update_self]) writes
        · exact absurd hmem hr

theorem after_append (store : R → D) (order order' : List (Place K R D)) :
    after store (order ++ order') = after (after store order) order' := by
  induction order generalizing store with
  | nil => rfl
  | cons p order ih =>
      cases p with
      | reserved k => exact ih store
      | taken c => exact ih _

theorem after_congr {store store' : R → D} {r : R} (h : store r = store' r)
    (order : List (Place K R D)) : after store order r = after store' order r := by
  induction order generalizing store store' with
  | nil => exact h
  | cons p order ih =>
      cases p with
      | reserved k => exact ih h
      | taken c => exact ih (install_congr h _)

theorem after_of_unchanged {store : R → D} {r : R} {order : List (Place K R D)}
    (h : ∀ p ∈ order, ¬ p.Changes r) : after store order r = store r := by
  induction order generalizing store with
  | nil => rfl
  | cons p order ih =>
      have hrest := fun q hq => h q (List.mem_cons_of_mem _ hq)
      cases p with
      | reserved k => exact ih hrest
      | taken c => exact (ih hrest).trans (install_of_not_mem (h _ (List.mem_cons_self ..)))

/-! ### Fitting orders -/

variable {v v' : View K R D} {base st st' : R → D} {order pre post : List (Place K R D)} {k : K}

theorem View.fits_append :
    v.Fits st (pre ++ post) ↔ v.Fits st pre ∧ v.Fits (after st pre) post := by
  induction pre generalizing st with
  | nil => exact ⟨fun h => ⟨trivial, h⟩, And.right⟩
  | cons p pre ih =>
      cases p with
      | reserved k => exact (and_congr_right fun _ => ih).trans and_assoc.symm
      | taken c =>
          refine (and_congr_right fun _ => (and_congr_right fun _ => ih).trans and_assoc.symm).trans ?_
          exact and_assoc.symm

/-- Only what the reserved places have seen and guard matters. -/
theorem View.Fits.view (h : v.Fits st order)
    (hsame : ∀ k, Place.reserved k ∈ order →
      v'.seen k = v.seen k ∧ ∀ r, v'.guarded k r → v.guarded k r) : v'.Fits st order := by
  induction order generalizing st with
  | nil => trivial
  | cons p order ih =>
      have hrest := fun k hk => hsame k (List.mem_cons_of_mem _ hk)
      cases p with
      | reserved k =>
          obtain ⟨hseen, hguarded⟩ := hsame k (List.mem_cons_self ..)
          refine ⟨fun a ha hr => ?_, ih h.2 hrest⟩
          rw [hseen] at ha
          exact h.1 a ha (hguarded _ hr)
      | taken c => exact ⟨h.1, h.2.1, ih h.2.2 hrest⟩

/-- Only the rows that the places use matter. -/
theorem View.Fits.store (h : v.Fits st order)
    (hsame : ∀ p ∈ order, ∀ r, v.Uses p r → st' r = st r) : v.Fits st' order := by
  induction order generalizing st st' with
  | nil => trivial
  | cons p order ih =>
      have hfirst := hsame p (List.mem_cons_self ..)
      have hrest := fun q hq => hsame q (List.mem_cons_of_mem _ hq)
      cases p with
      | reserved k =>
          refine ⟨fun a ha hr => ?_, ih h.2 hrest⟩
          rw [hfirst _ hr]
          exact h.1 a ha hr
      | taken c =>
          refine ⟨h.1, fun o ho => ?_, ih h.2.2 fun q hq r hr => install_congr (hrest q hq r hr) _⟩
          rw [hfirst _ (List.mem_map_of_mem ho)]
          exact h.2.1 o ho

/-- The committed places of a fitting order are a serial history. -/
theorem View.Fits.serial (h : v.Fits st order) :
    SerialHistory (committedOf order) st (after st order) := by
  induction order generalizing st with
  | nil => rfl
  | cons p order ih =>
      cases p with
      | reserved k => exact ih h.2
      | taken c => exact ⟨_, ⟨h.1, h.2.1, rfl⟩, ih h.2.2⟩

theorem View.Placed.serial (h : v.Placed base order) :
    SerialHistory (committedOf order) base v.store :=
  h.settled ▸ h.fits.serial

omit [DecidableEq R] in
theorem View.Apart.mono {p q : Place K R D} (h : v.Apart p q)
    (hseen : ∀ k, p = .reserved k → v'.seen k = v.seen k)
    (huses : ∀ r, v'.Uses q r → v.Uses q r) (hversion : ∀ r, v.version r ≤ v'.version r) :
    v'.Apart p q := by
  cases p with
  | taken c => trivial
  | reserved k =>
      have hsame := hseen k rfl
      refine ⟨h.1, fun r hr hu => h.2.1 r ?_ (huses r hu), fun a ha hq => ?_⟩
      · rwa [View.Writes, ← hsame]
      · rw [hsame] at ha
        exact Nat.lt_of_lt_of_le (h.2.2 a ha hq) (hversion _)

omit [DecidableEq R] in
/-- A reserved place occurs once. -/
theorem View.reserved_once (h : (pre ++ .reserved k :: post).Pairwise v.Apart) :
    Place.reserved k ∉ pre ∧ Place.reserved k ∉ post := by
  obtain ⟨-, hpost, hcross⟩ := List.pairwise_append.mp h
  constructor
  · intro hmem
    exact (hcross _ hmem _ (List.mem_cons_self ..)).1 rfl
  · intro hmem
    exact ((List.pairwise_cons.mp hpost).1 _ hmem).1 rfl

/-! ### What a transaction may do -/

/-- Transactions without a place come, go, and make accesses of the rows as they are. -/
theorem View.Placed.view (h : v.Placed base order) (hstore : v'.store = v.store)
    (hversion : v'.version = v.version)
    (hsame : ∀ k, Place.reserved k ∈ order → v'.seen k = v.seen k ∧ v'.guarded k = v.guarded k)
    (hseen : ∀ k, ∀ a ∈ v'.seen k, a ∈ v.seen k ∨ a.op.value = v.store a.op.row ∧
      a.version = v.version a.op.row) : v'.Placed base order where
  fits := h.fits.view fun k hk => ⟨(hsame k hk).1, fun r hr => (hsame k hk).2 ▸ hr⟩
  apart := by
    refine h.apart.imp_of_mem fun {p q} hp hq hpq => hpq.mono ?_ ?_ ?_
    · rintro k rfl
      exact (hsame k hp).1
    · intro r hr
      cases q with
      | taken c => exact hr
      | reserved k => exact (congrFun (hsame k hq).2 r).mp hr
    · intro r
      exact Nat.le_of_eq (congrFun hversion r).symm
  settled := hstore ▸ h.settled
  current := by
    intro k a ha
    rw [hversion, hstore]
    rcases hseen k a ha with hmem | ⟨hvalue, hver⟩
    · exact h.current k a hmem
    · exact ⟨Nat.le_of_eq hver, fun _ => hvalue⟩

/-- Taking the last place, with the guarded rows unchanged since they were seen and nobody
    else about to write them. -/
theorem View.Placed.reserve (h : v.Placed base order) (hnew : Place.reserved k ∉ order)
    (hsame : ∀ a ∈ v.seen k, v.guarded k a.op.row → a.version = v.version a.op.row)
    (hfree : ∀ u, Place.reserved u ∈ order → ∀ r, v.Writes u r → ¬ v.guarded k r) :
    v.Placed base (order ++ [.reserved k]) where
  fits := by
    refine View.fits_append.mpr ⟨h.fits, fun a ha hr => ?_, trivial⟩
    rw [h.settled]
    exact (h.current k a ha).2 (hsame a ha hr)
  apart := by
    refine List.pairwise_append.mpr ⟨h.apart, List.pairwise_singleton .., fun p hp q hq => ?_⟩
    rw [List.mem_singleton.mp hq]
    cases p with
    | taken c => trivial
    | reserved u =>
        refine ⟨fun heq => hnew (heq ▸ hp), hfree u hp, fun a ha hno => ?_⟩
        cases hno
  settled := (after_append ..).trans h.settled
  current := h.current

/-- A place may be given up. -/
theorem View.Placed.giveUp (h : v.Placed base (pre ++ .reserved k :: post)) :
    v.Placed base (pre ++ post) where
  fits := by
    have hfits := View.fits_append.mp h.fits
    exact View.fits_append.mpr ⟨hfits.1, hfits.2.2⟩
  apart := h.apart.sublist ((List.sublist_cons_self ..).append_left pre)
  settled := by
    rw [← h.settled, after_append, after_append]
    rfl
  current := h.current

/-- A row that is as it was seen has not been changed behind the place. -/
theorem View.Placed.after_eq (h : v.Placed base (pre ++ .reserved k :: post)) {a : Seen R D}
    (ha : a ∈ v.seen k) (hsame : a.version = v.version a.op.row) :
    a.op.value = after base pre a.op.row := by
  have hapart := (List.pairwise_cons.mp (List.pairwise_append.mp h.apart).2.1).1
  have hbehind : ∀ p ∈ post, ¬ p.Changes a.op.row := by
    intro p hp hchanges
    have hlt := (hapart p hp).2.2 a ha hchanges
    omega
  have hstore : after base pre a.op.row = v.store a.op.row := by
    rw [← h.settled, after_append]
    exact (after_of_unchanged hbehind).symm
  rw [hstore]
  exact (h.current k a ha).2 hsame

/-- Guarding more rows, each as it was seen and with nobody about to write it. -/
theorem View.Placed.guard (h : v.Placed base (pre ++ .reserved k :: post))
    (hstore : v'.store = v.store) (hversion : v'.version = v.version) (hseen : v'.seen = v.seen)
    (hother : ∀ u, u ≠ k → v'.guarded u = v.guarded u)
    (hsame : ∀ a ∈ v.seen k, v'.guarded k a.op.row →
      v.guarded k a.op.row ∨ a.version = v.version a.op.row)
    (hfree : ∀ u, Place.reserved u ∈ pre → ∀ r, v'.guarded k r →
      v.guarded k r ∨ ¬ v.Writes u r) :
    v'.Placed base (pre ++ .reserved k :: post) where
  fits := by
    obtain ⟨hpre, hplace, hpost⟩ := View.fits_append.mp h.fits
    obtain ⟨hnotPre, hnotPost⟩ := View.reserved_once h.apart
    have hframe : ∀ {l : List (Place K R D)}, Place.reserved k ∉ l → ∀ u, Place.reserved u ∈ l →
        v'.seen u = v.seen u ∧ ∀ r, v'.guarded u r → v.guarded u r := by
      intro l hl u hu
      have hne : u ≠ k := fun heq => hl (heq ▸ hu)
      exact ⟨by rw [hseen], fun r hr => hother u hne ▸ hr⟩
    refine View.fits_append.mpr ⟨hpre.view (hframe hnotPre), fun a ha hr => ?_,
      hpost.view (hframe hnotPost)⟩
    rw [hseen] at ha
    rcases hsame a ha hr with hold | hver
    · exact hplace a ha hold
    · exact h.after_eq ha hver
  apart := by
    obtain ⟨hnotPre, hnotPost⟩ := View.reserved_once h.apart
    have hmono : ∀ {p q : Place K R D}, q ≠ .reserved k → v.Apart p q → v'.Apart p q := by
      intro p q hq hpq
      refine hpq.mono (fun u _ => by rw [hseen]) (fun r hr => ?_) fun r =>
        Nat.le_of_eq (by rw [hversion])
      cases q with
      | taken c => exact hr
      | reserved u =>
          have hne : u ≠ k := fun heq => hq (heq ▸ rfl)
          exact (congrFun (hother u hne) r).mp hr
    obtain ⟨hpre, hpost, hcross⟩ := List.pairwise_append.mp h.apart
    obtain ⟨hplace, hpost⟩ := List.pairwise_cons.mp hpost
    have hne : ∀ {l : List (Place K R D)}, Place.reserved k ∉ l → ∀ q ∈ l, q ≠ .reserved k :=
      fun hl q hq heq => hl (heq ▸ hq)
    refine List.pairwise_append.mpr ⟨hpre.imp_of_mem fun _ hq => hmono (hne hnotPre _ hq),
      List.pairwise_cons.mpr ⟨fun q hq => hmono (hne hnotPost q hq) (hplace q hq),
        hpost.imp_of_mem fun _ hq => hmono (hne hnotPost _ hq)⟩, fun p hp q hq => ?_⟩
    rcases List.mem_cons.mp hq with rfl | hq
    · have hpk := hcross p hp _ (List.mem_cons_self ..)
      cases p with
      | taken c => trivial
      | reserved u =>
          refine ⟨hpk.1, fun r hr hg => ?_, fun a _ hno => by cases hno⟩
          have hwrites : v.Writes u r := by rwa [View.Writes, ← hseen]
          rcases hfree u hp r hg with hold | hno
          · exact hpk.2.1 r hwrites hold
          · exact hno hwrites
    · exact hmono (hne hnotPost q hq) (hcross p hp q (List.mem_cons_of_mem _ hq))
  settled := hstore ▸ h.settled
  current := by
    rw [hseen, hversion, hstore]
    exact h.current

/-- Committing in the reserved place, once all rows are guarded.  The rows written get new
    versions. -/
theorem View.Placed.commit {c : Program R D × List (Op R D)}
    (h : v.Placed base (pre ++ .reserved k :: post)) (hobserves : c.1.Observes c.2)
    (hops : c.2 = (v.seen k).map Seen.op) (hguarded : ∀ a ∈ v.seen k, v.guarded k a.op.row)
    (hstore : v'.store = install v.store (c.1.writeSet c.2))
    (hversion : ∀ r, v.version r ≤ v'.version r)
    (hnewer : ∀ r ∈ (c.1.writeSet c.2).map Prod.fst, v.version r < v'.version r)
    (hdone : v'.seen k = []) (hother : ∀ u, u ≠ k → v'.seen u = v.seen u ∧
      v'.guarded u = v.guarded u) : v'.Placed base (pre ++ .taken c :: post) := by
  obtain ⟨hnotPre, hnotPost⟩ := View.reserved_once h.apart
  obtain ⟨hpre, hpostAll, hcross⟩ := List.pairwise_append.mp h.apart
  obtain ⟨hplace, hpost⟩ := List.pairwise_cons.mp hpostAll
  have hwrites : ∀ r ∈ (c.1.writeSet c.2).map Prod.fst, v.Writes k r := by
    intro r hr
    obtain ⟨o, ho, hwr, rfl⟩ := Program.writeSet_rows hr
    rw [hops] at ho
    obtain ⟨a, ha, rfl⟩ := List.mem_map.mp ho
    exact ⟨a, ha, hwr, rfl⟩
  have hbehind : ∀ p ∈ post, ∀ r, v.Uses p r → r ∉ (c.1.writeSet c.2).map Prod.fst :=
    fun p hp r hr hmem => (hplace p hp).2.1 r (hwrites r hmem) hr
  have hframe : ∀ {l : List (Place K R D)}, Place.reserved k ∉ l → ∀ u, Place.reserved u ∈ l →
      v'.seen u = v.seen u ∧ ∀ r, v'.guarded u r → v.guarded u r := by
    intro l hl u hu
    obtain ⟨hs, hg⟩ := hother u fun heq => hl (heq ▸ hu)
    exact ⟨hs, fun r hr => hg ▸ hr⟩
  have hmono : ∀ {l l' : List (Place K R D)}, Place.reserved k ∉ l → Place.reserved k ∉ l' →
      ∀ p ∈ l, ∀ q ∈ l', v.Apart p q → v'.Apart p q := by
    intro l l' hl hl' p hp q hq hpq
    refine hpq.mono (fun u hu => (hframe hl u (hu ▸ hp)).1) (fun r hr => ?_) hversion
    cases q with
    | taken c => exact hr
    | reserved u => exact (hframe hl' u hq).2 r hr
  constructor
  · obtain ⟨hfitsPre, hfitsPlace, hfitsPost⟩ := View.fits_append.mp h.fits
    refine View.fits_append.mpr ⟨hfitsPre.view (hframe hnotPre), hobserves, fun o ho => ?_, ?_⟩
    · rw [hops] at ho
      obtain ⟨a, ha, rfl⟩ := List.mem_map.mp ho
      exact hfitsPlace a ha (hguarded a ha)
    · refine View.Fits.view (View.Fits.store hfitsPost fun p hp r hr => ?_) (hframe hnotPost)
      exact install_of_not_mem (hbehind p hp r hr)
  · refine List.pairwise_append.mpr ⟨hpre.imp_of_mem fun hp hq => hmono hnotPre hnotPre _ hp _ hq,
      List.pairwise_cons.mpr ⟨fun _ _ => trivial,
        hpost.imp_of_mem fun hp hq => hmono hnotPost hnotPost _ hp _ hq⟩, fun p hp q hq => ?_⟩
    rcases List.mem_cons.mp hq with rfl | hq
    · have hpk := hcross p hp _ (List.mem_cons_self ..)
      cases p with
      | taken c => trivial
      | reserved u =>
          have hsame := (hframe hnotPre u hp).1
          refine ⟨by simp, fun r hr hu => ?_, fun a ha hchanges => ?_⟩
          · rw [View.Uses, hops, List.map_map] at hu
            obtain ⟨a, ha, rfl⟩ := List.mem_map.mp hu
            exact hpk.2.1 _ (by rwa [View.Writes, ← hsame]) (hguarded a ha)
          · rw [hsame] at ha
            exact Nat.lt_of_le_of_lt (h.current u a ha).1 (hnewer _ hchanges)
    · exact hmono hnotPre hnotPost p hp q hq (hcross p hp q (List.mem_cons_of_mem _ hq))
  · rw [hstore, ← h.settled, after_append, after_append]
    funext r
    by_cases hr : r ∈ (c.1.writeSet c.2).map Prod.fst
    · have hlast : ∀ p ∈ post, ¬ p.Changes r :=
        fun p hp hchanges => hbehind p hp r (v.uses_of_changes hchanges) hr
      exact (after_of_unchanged hlast).trans (install_eq_of_mem _ _ hr)
    · rw [install_of_not_mem hr]
      exact after_congr (install_of_not_mem hr) post
  · intro u a ha
    by_cases hu : u = k
    · rw [hu, hdone] at ha
      cases ha
    · rw [(hother u hu).1] at ha
      obtain ⟨hle, hvalue⟩ := h.current u a ha
      have hlater := hversion a.op.row
      refine ⟨Nat.le_trans hle hlater, fun heq => ?_⟩
      have hnot : a.op.row ∉ (c.1.writeSet c.2).map Prod.fst := by
        intro hmem
        have hlt := hnewer _ hmem
        omega
      rw [hstore, install_of_not_mem hnot]
      exact hvalue (by omega)

end Serial
