import VeriTxn.LogBuffer

/-!
# Positions handed out by `serialLogTxn`

`serialLogTxn` asks for a fetch-and-add only under SILO and NO_WAIT.  Under every other scheme
`logTxn` reads `*_lsn` and writes it back later, on the assumption that the callers exclude each
other; nobody does.
-/

namespace VeriTxn.LogBuffer

open Bytes Transition

/-- `CC_ALG`. -/
inductive CcAlg where
  | noWait | waitDie | dlDetect | timestamp | mvcc | hstore | occ | tictoc | silo | vll | hekaton
deriving DecidableEq, Repr

/-- The `sync` that `serialLogTxn` passes. -/
def CcAlg.sync : CcAlg → Bool
  | .silo => true
  | .noWait => true
  | _ => false

variable {cfg : LogConfig} {s s' : Logger cfg} {t : Fin cfg.threadCnt}

/-- At the read of `*_lsn` that gives the position. -/
def Worker.TakesPosition : Worker → Prop
  | .alloc _ => True
  | _ => False

/-- Between that read and the write behind it. -/
def Worker.InSection : Worker → Prop
  | .bump _ _ | .store _ _ _ => True
  | _ => False

instance : DecidablePred Worker.TakesPosition := fun w =>
  match w with
  | .alloc _ => .isTrue trivial
  | .idle | .checkLsn _ | .checkPersistent _ _ | .readMark _ | .writeMark _ _ | .bump _ _
  | .store _ _ _ | .copy _ _ | .copyRest _ _ | .fill _ _ => .isFalse id

instance : DecidablePred Worker.InSection := fun w =>
  match w with
  | .bump _ _ | .store _ _ _ => .isTrue trivial
  | .idle | .checkLsn _ | .checkPersistent _ _ | .readMark _ | .writeMark _ _ | .alloc _
  | .copy _ _ | .copyRest _ _ | .fill _ _ => .isFalse id

/-- Without fetch-and-add, no call reads its position while another one has still to write
    `*_lsn`. -/
def Exclusive (cc : CcAlg) (s : Logger cfg) : Action cfg → Prop
  | .work t => cc.sync = true ∨
      ((s.workers t).TakesPosition → ∀ u, u ≠ t → ¬ (s.workers u).InSection)
  | .logTxn _ _ | .tryFlush | .flush _ => True

instance (cc : CcAlg) (s : Logger cfg) (a : Action cfg) : Decidable (Exclusive cc s a) :=
  match a with
  | .work t => inferInstanceAs (Decidable (cc.sync = true ∨
      ((s.workers t).TakesPosition → ∀ u, u ≠ t → ¬ (s.workers u).InSection)))
  | .logTxn _ _ | .tryFlush | .flush _ => .isTrue trivial

/-- The positions up to `top` are given away; a call that has still to write `*_lsn` holds it at
    its own position, the last one. -/
structure Handed (s : Logger cfg) (top : Nat) : Prop where
  tiled : Tiled s.granted top
  lsn : (∀ t, ¬ (s.workers t).InSection) → s.lsn = top
  bump : ∀ t entry lsn, s.workers t = .bump entry lsn →
    s.lsn = lsn ∧ top = lsn + aligned entry.length
  store : ∀ t entry lsn value, s.workers t = .store entry lsn value →
    s.lsn = lsn ∧ value = lsn ∧ top = lsn + aligned entry.length
  alone : ∀ t u, (s.workers t).InSection → (s.workers u).InSection → t = u

/-- A step outside the section, of a call that is not in it. -/
theorem Handed.frame {top : Nat} (h : Handed s top) (hgranted : s'.granted = s.granted)
    (hlsn : s'.lsn = s.lsn) (hthis : ¬ (s.workers t).InSection ∧ ¬ (s'.workers t).InSection)
    (hothers : ∀ u, u ≠ t → s'.workers u = s.workers u) : Handed s' top := by
  have hsame : ∀ u, (s'.workers u).InSection → s'.workers u = s.workers u := by
    intro u hu
    by_cases hut : u = t
    · exact absurd (hut ▸ hu) hthis.2
    · exact hothers u hut
  constructor
  · rw [hgranted]
    exact h.tiled
  · intro hnone
    rw [hlsn]
    refine h.lsn fun u hu => ?_
    by_cases hut : u = t
    · exact hthis.1 (hut ▸ hu)
    · exact hnone u (hothers u hut ▸ hu)
  · intro u entry lsn hu
    rw [hlsn]
    refine h.bump u entry lsn ?_
    rw [← hsame u (by rw [hu]; trivial)]
    exact hu
  · intro u entry lsn value hu
    rw [hlsn]
    refine h.store u entry lsn value ?_
    rw [← hsame u (by rw [hu]; trivial)]
    exact hu
  · intro u u' hu hu'
    exact h.alone u u' (hsame u hu ▸ hu) (hsame u' hu' ▸ hu')

/-- The section of a call: its position is the last one, and it is alone. -/
theorem Handed.inSection {top : Nat} {w : Worker} (hgranted : Tiled s.granted top)
    (halone : ∀ u, u ≠ t → ¬ (s.workers u).InSection)
    (hbump : ∀ entry lsn, w = .bump entry lsn → s.lsn = lsn ∧ top = lsn + aligned entry.length)
    (hstore : ∀ entry lsn value, w = .store entry lsn value →
      s.lsn = lsn ∧ value = lsn ∧ top = lsn + aligned entry.length)
    (hin : w.InSection) : Handed (s.goto t w) top := by
  have hthis : ∀ u, ((s.goto t w).workers u).InSection → u = t := by
    intro u hu
    by_contra hne
    rw [Logger.goto_of_ne hne] at hu
    exact halone u hne hu
  have hself := s.goto_self t w
  constructor
  · exact hgranted
  · intro hnone
    exact absurd (hself.symm ▸ hin) (hnone t)
  · intro u entry lsn hu
    obtain rfl := hthis u (by rw [hu]; trivial)
    exact hbump entry lsn (hself.symm.trans hu)
  · intro u entry lsn value hu
    obtain rfl := hthis u (by rw [hu]; trivial)
    exact hstore entry lsn value (hself.symm.trans hu)
  · intro u u' hu hu'
    rw [hthis u hu, hthis u' hu']

/-- The call that is in the section leaves it with its write. -/
theorem Handed.leave {top : Nat} {entry : List Byte} {lsn value : Nat} (h : Handed s top)
    (hcall : s.workers t = .store entry lsn value) :
    Handed { s.goto t (.copy entry lsn) with lsn := value + aligned entry.length } top := by
  obtain ⟨-, rfl, htop⟩ := h.store t entry lsn value hcall
  have hnone : ∀ u, ¬ ((s.goto t (.copy entry value)).workers u).InSection := by
    intro u hu
    by_cases hut : u = t
    · subst hut
      rw [Logger.goto_self] at hu
      exact hu
    · rw [Logger.goto_of_ne hut] at hu
      exact hut (h.alone u t hu (by rw [hcall]; trivial))
  have hno : ∀ {u w}, (s.goto t (.copy entry value)).workers u = w → w.InSection → False :=
    fun hu hin => hnone _ (hu ▸ hin)
  exact ⟨h.tiled, fun _ => htop.symm, fun u e l hu => (hno hu trivial).elim,
    fun u e l v hu => (hno hu trivial).elim, fun u u' hu _ => (hnone u hu).elim⟩

/-- With `sync` nobody is in the section. -/
def Apart (cc : CcAlg) (s : Logger cfg) : Prop :=
  (∃ top, Handed s top) ∧ (cc.sync = true → ∀ u, ¬ (s.workers u).InSection)

/-- No call enters the section. -/
theorem outside_goto {w : Worker} (hw : ¬ w.InSection)
    (hothers : ∀ u, u ≠ t → ¬ (s.workers u).InSection) (u : Fin cfg.threadCnt) :
    ¬ ((s.goto t w).workers u).InSection := by
  by_cases hut : u = t
  · subst hut
    rwa [Logger.goto_self]
  · rw [Logger.goto_of_ne hut]
    exact hothers u hut

/-- A step that neither takes a position nor writes `*_lsn`. -/
theorem Apart.quiet {cc : CcAlg} (h : Apart cc s) {w : Worker}
    (hbefore : ¬ (s.workers t).InSection) (hafter : ¬ w.InSection)
    (hgranted : s'.granted = s.granted) (hlsn : s'.lsn = s.lsn)
    (hworkers : s'.workers = (s.goto t w).workers) : Apart cc s' := by
  obtain ⟨⟨top, hhanded⟩, hsync⟩ := h
  refine ⟨⟨top, hhanded.frame (t := t) hgranted hlsn ⟨hbefore, ?_⟩ fun u hu => ?_⟩, fun hcc u => ?_⟩
  · rwa [hworkers, Logger.goto_self]
  · rw [hworkers, Logger.goto_of_ne hu]
  · rw [hworkers]
    exact outside_goto hafter (fun u _ => hsync hcc u) u

/-- A position is taken: with a fetch-and-add, or by entering the section. -/
theorem Apart.alloc {cc : CcAlg} (h : Apart cc s) {entry : List Byte}
    (hcall : s.workers t = .alloc entry) (hmeet : Exclusive cc s (.work t))
    (hstep : s.work cc.sync t = some s') : Apart cc s' := by
  obtain ⟨⟨top, hhanded⟩, hsync⟩ := h
  have halone : ∀ u, u ≠ t → ¬ (s.workers u).InSection := by
    rcases hmeet with hcc | hmeet
    · exact fun u _ => hsync hcc u
    · exact hmeet (by rw [hcall]; trivial)
  have hnone : ∀ u, ¬ (s.workers u).InSection := by
    intro u
    by_cases hut : u = t
    · rw [hut, hcall]
      exact id
    · exact halone u hut
  have htiled : Tiled (s.granted ++ [(s.lsn, entry)]) (s.lsn + aligned entry.length) := by
    have hsnoc := Tiled.snoc entry hhanded.tiled
    rwa [← hhanded.lsn hnone] at hsnoc
  simp only [Logger.work, hcall] at hstep
  split at hstep
  · cases hstep
    have hout := outside_goto (w := .copy entry s.lsn) id halone
    have hno : ∀ {u w}, (s.goto t (.copy entry s.lsn)).workers u = w → w.InSection → False :=
      fun hu hin => hout _ (hu ▸ hin)
    exact ⟨⟨_, htiled, fun _ => rfl, fun u e l hu => (hno hu trivial).elim,
      fun u e l v hu => (hno hu trivial).elim, fun u u' hu _ => (hout u hu).elim⟩, fun _ => hout⟩
  · rename_i hcc
    cases hstep
    refine ⟨⟨_, Handed.inSection htiled halone ?_ (by simp) trivial⟩, ?_⟩
    · intro e l hw
      cases hw
      exact ⟨rfl, rfl⟩
    · exact fun h => absurd h hcc

/-- Every step of `logTxn` that meets the condition keeps the positions apart. -/
theorem Apart.work {cc : CcAlg} (h : Apart cc s) (hmeet : Exclusive cc s (.work t))
    (hstep : s.work cc.sync t = some s') : Apart cc s' := by
  cases hcall : s.workers t with
  | alloc entry => exact h.alloc hcall hmeet hstep
  | bump entry lsn =>
      obtain ⟨⟨top, hhanded⟩, hsync⟩ := h
      simp only [Logger.work, hcall, Option.some.injEq] at hstep
      subst hstep
      obtain ⟨hlsn, htop⟩ := hhanded.bump t entry lsn hcall
      have hin : (s.workers t).InSection := by rw [hcall]; trivial
      refine ⟨⟨top, Handed.inSection hhanded.tiled ?_ (by simp) ?_ trivial⟩, ?_⟩
      · exact fun u hu hu' => hu (hhanded.alone u t hu' hin)
      · intro e l v hw
        cases hw
        exact ⟨hlsn, hlsn, htop⟩
      · exact fun hcc => absurd hin (hsync hcc t)
  | store entry lsn value =>
      obtain ⟨⟨top, hhanded⟩, hsync⟩ := h
      simp only [Logger.work, hcall, Option.some.injEq] at hstep
      subst hstep
      exact ⟨⟨top, hhanded.leave hcall⟩, fun hcc => outside_goto id fun u _ => hsync hcc u⟩
  | idle =>
      simp only [Logger.work, hcall] at hstep
      cases hstep
  | checkPersistent entry lsn =>
      simp only [Logger.work, hcall] at hstep
      split at hstep
      · cases hstep
        exact h.quiet (w := .idle) (by rw [hcall]; exact id) id rfl rfl rfl
      · cases hstep
        split
        · exact h.quiet (w := .alloc entry) (by rw [hcall]; exact id) id rfl rfl rfl
        · exact h.quiet (w := .readMark entry) (by rw [hcall]; exact id) id rfl rfl rfl
  | copy entry lsn =>
      simp only [Logger.work, hcall, Option.some.injEq] at hstep
      subst hstep
      split
      · exact h.quiet (w := .copyRest entry lsn) (by rw [hcall]; exact id) id rfl rfl rfl
      · exact h.quiet (w := .fill entry lsn) (by rw [hcall]; exact id) id rfl rfl rfl
  | checkLsn entry =>
      simp only [Logger.work, hcall, Option.some.injEq] at hstep
      subst hstep
      exact h.quiet (t := t) (by rw [hcall]; exact id) id rfl rfl rfl
  | readMark entry =>
      simp only [Logger.work, hcall, Option.some.injEq] at hstep
      subst hstep
      exact h.quiet (t := t) (by rw [hcall]; exact id) id rfl rfl rfl
  | writeMark entry mark =>
      simp only [Logger.work, hcall, Option.some.injEq] at hstep
      subst hstep
      exact h.quiet (w := .alloc entry) (by rw [hcall]; exact id) id rfl rfl rfl
  | copyRest entry lsn =>
      simp only [Logger.work, hcall, Option.some.injEq] at hstep
      subst hstep
      exact h.quiet (w := .fill entry lsn) (by rw [hcall]; exact id) id rfl rfl rfl
  | fill entry lsn =>
      simp only [Logger.work, hcall, Option.some.injEq] at hstep
      subst hstep
      exact h.quiet (w := .idle) (by rw [hcall]; exact id) id rfl rfl rfl

/-- The flusher takes no positions and leaves the buffer and the calls alone. -/
theorem flush_quiet {late : Bool} (hstep : s.flush late = some s') :
    s'.granted = s.granted ∧ s'.lsn = s.lsn ∧ s'.workers = s.workers ∧
      s'.filledLsn = s.filledLsn ∧ s'.buffer = s.buffer := by
  cases hflusher : s.flusher with
  | idle =>
      simp only [Logger.flush, hflusher] at hstep
      cases hstep
  | failed =>
      simp only [Logger.flush, hflusher] at hstep
      cases hstep
  | scan ready i | scanMark ready i filled =>
      simp only [Logger.flush, hflusher] at hstep
      split at hstep <;> cases hstep <;> exact ⟨rfl, rfl, rfl, rfl, rfl⟩
  | test ready =>
      simp only [Logger.flush, hflusher] at hstep
      split_ifs at hstep <;> cases hstep <;> exact ⟨rfl, rfl, rfl, rfl, rfl⟩
  | write start fin =>
      simp only [Logger.flush, hflusher] at hstep
      split at hstep <;> cases hstep <;> exact ⟨rfl, rfl, rfl, rfl, rfl⟩
  | readLsn | writeRest start fin | persist fin =>
      simp only [Logger.flush, hflusher] at hstep
      cases hstep
      exact ⟨rfl, rfl, rfl, rfl, rfl⟩

/-- A step of the flusher. -/
theorem Apart.frame {cc : CcAlg} (h : Apart cc s) (hgranted : s'.granted = s.granted)
    (hlsn : s'.lsn = s.lsn) (hworkers : s'.workers = s.workers) : Apart cc s' := by
  obtain ⟨⟨top, hhanded⟩, hsync⟩ := h
  refine ⟨⟨top, ?_, ?_, ?_, ?_, ?_⟩, ?_⟩
  · rw [hgranted]
    exact hhanded.tiled
  · rw [hworkers, hlsn]
    exact hhanded.lsn
  · rw [hworkers, hlsn]
    exact hhanded.bump
  · rw [hworkers, hlsn]
    exact hhanded.store
  · rw [hworkers]
    exact hhanded.alone
  · rw [hworkers]
    exact hsync

theorem Apart.step {cc : CcAlg} (h : Apart cc s) {a : Action cfg} (hmeet : Exclusive cc s a)
    (hstep : s.step cc.sync a = some s') : Apart cc s' := by
  cases a with
  | logTxn t entry =>
      simp only [Logger.step] at hstep
      split at hstep
      · rename_i hidle
        cases hstep
        exact h.quiet (w := .checkLsn entry) (by rw [hidle]; exact id) id rfl rfl rfl
      · cases hstep
  | work t => exact h.work hmeet hstep
  | tryFlush =>
      simp only [Logger.step] at hstep
      split at hstep
      · cases hstep
        exact h.frame rfl rfl rfl
      · cases hstep
  | flush late =>
      obtain ⟨hgranted, hlsn, hworkers, -, -⟩ := flush_quiet hstep
      exact h.frame hgranted hlsn hworkers

theorem Apart.init (cc : CcAlg) (buffer : Nat → Byte) :
    Apart cc (Logger.init buffer : Logger cfg) := by
  have hnone : ∀ t, ¬ ((Logger.init buffer : Logger cfg).workers t).InSection := fun t => id
  refine ⟨⟨0, .nil, fun _ => rfl, ?_, ?_, ?_⟩, fun _ => hnone⟩
  · exact fun t entry lsn hcall => nomatch hcall
  · exact fun t entry lsn value hcall => nomatch hcall
  · exact fun t u ht => (hnone t ht).elim

/-- Where positions are apart, `*_lsn` never moves back and the file stays inside the log. -/
theorem extent_step {cc : CcAlg} {a : Action cfg} (hapart : Apart cc s) (h : Extent s)
    (hstep : s.step cc.sync a = some s') : Extent s' := by
  cases a with
  | logTxn t entry =>
      simp only [Logger.step] at hstep
      split at hstep
      · cases hstep
        exact h.frame rfl rfl rfl (Nat.le_refl _)
      · cases hstep
  | work t =>
      obtain ⟨hflusher, hpersistent, hfile, hlsn⟩ := work_frame hstep
      refine h.frame hflusher hpersistent hfile ?_
      rcases hlsn with hlsn | ⟨entry, lsn, value, hcall, hlsn⟩
      · exact hlsn
      · obtain ⟨⟨top, hhanded⟩, -⟩ := hapart
        obtain ⟨hthis, hvalue, -⟩ := hhanded.store t entry lsn value hcall
        omega
  | tryFlush =>
      simp only [Logger.step] at hstep
      split at hstep
      · rename_i hidle
        cases hstep
        obtain ⟨hle, hwhole, hwithin⟩ := h
        rw [hidle] at hwithin
        exact ⟨hle, hwhole, hwithin⟩
      · cases hstep
  | flush late => exact h.flush hstep

/-- The ranges handed out lie apart, and once no call is under way `*_lsn` is the sum of their
    sizes, in every run in which the calls exclude each other where they do not fetch and add. -/
theorem ranges_apart_of_exclusive (cc : CcAlg) (buffer : Nat → Byte) {as : List (Action cfg)}
    (hmeet : AllSteps (Logger.step cc.sync) (Exclusive cc) (Logger.init buffer) as)
    (hrun : runs (Logger.step cc.sync) (Logger.init buffer) as = some s) :
    (s.granted.Pairwise fun g g' => g.1 + aligned g.2.length ≤ g'.1) ∧
      ((∀ t, s.workers t = .idle) → s.lsn = (s.granted.map fun g => aligned g.2.length).sum) := by
  have hapart : Apart cc s := runs_invariant (fun _ _ _ h hc hstep => Apart.step h hc hstep)
    (Apart.init cc buffer) hmeet hrun
  obtain ⟨⟨top, hhanded⟩, -⟩ := hapart
  refine ⟨hhanded.tiled.pairwise, fun hidle => ?_⟩
  have hnone : ∀ t, ¬ (s.workers t).InSection := by
    intro t
    rw [hidle t]
    exact id
  rw [hhanded.lsn hnone]
  exact hhanded.tiled.top_eq

/-- Two committing OCC transactions, the second after the first has moved `*_lsn`. -/
theorem ranges_apart_of_exclusive_two :
    ∃ s : Logger twoThreads,
      runs (Logger.step CcAlg.occ.sync) (Logger.init fun _ => 0)
        (call first [0xef, 0xbe] 9 ++ call second [0xef, 0xbe, 0, 0] 9) = some s ∧
      s.granted.map Prod.fst = [0, 64] ∧ s.lsn = 128 ∧
      s.granted.Pairwise fun g g' => g.1 + aligned g.2.length ≤ g'.1 := by
  have hsome : ((runs (Logger.step CcAlg.occ.sync) (Logger.init fun _ => 0 : Logger twoThreads)
      (call first [0xef, 0xbe] 9 ++ call second [0xef, 0xbe, 0, 0] 9)).map fun s =>
        (s.granted.map Prod.fst, s.lsn)) = some ([0, 64], 128) := by
    decide
  obtain ⟨s, hrun, hs⟩ := Option.map_eq_some_iff.mp hsome
  obtain ⟨hgranted, hlsn⟩ := Prod.mk.inj hs
  refine ⟨s, hrun, hgranted, hlsn, (ranges_apart_of_exclusive .occ (fun _ => 0) ?_ hrun).1⟩
  decide

/-- Two committing OCC transactions read the same position before one of them has moved it. -/
theorem occ_ranges_overlap :
    ¬ ∀ (cc : CcAlg) (as : List (Action twoThreads)) (s : Logger twoThreads),
      runs (Logger.step cc.sync) (Logger.init fun _ => 0) as = some s →
      (s.granted.Pairwise fun g g' => g.1 + aligned g.2.length ≤ g'.1) ∧
        ((∀ t, s.workers t = .idle) →
          s.lsn = (s.granted.map fun g => aligned g.2.length).sum) := by
  intro h
  have hsome : ((runs (Logger.step CcAlg.occ.sync) (Logger.init fun _ => 0 : Logger twoThreads)
      (call first [0xef, 0xbe] 5 ++ call second [0xef, 0xbe, 0, 0] 9 ++
        List.replicate 4 (.work first))).map fun s => s.granted) =
      some [(0, [0xef, 0xbe]), (0, [0xef, 0xbe, 0, 0])] := by
    decide
  obtain ⟨s, hrun, hs⟩ := Option.map_eq_some_iff.mp hsome
  have hapart := (h .occ _ s hrun).1
  rw [hs] at hapart
  revert hapart
  decide

end VeriTxn.LogBuffer
