import Mathlib.Data.Finset.Card
import Mathlib.Data.Fintype.Fin
import VeriTxn.LogAllocation

/-!
# Flushing the log buffer while it is written

`tryFlush` goes no further than the smallest marker of a call that may still be copying.  A call
reads the marker from `*_lsn` and publishes it in a separate step: when the flusher overtakes it in
between, the marker appears behind `*_persistent_lsn`, and the next `tryFlush` fails its assertion.
Where no marker comes that late, the file is always what was logged.
-/

namespace VeriTxn.LogBuffer

open Bytes Transition

variable {cfg : LogConfig} {s s' : Logger cfg} {t : Fin cfg.threadCnt}

/-- An entry the callers may log. -/
def Fits (cfg : LogConfig) (entry : List Byte) : Prop :=
  entry.head? ≠ some 0x7f ∧ aligned entry.length ≤ cfg.maxLogEntrySize

instance (cfg : LogConfig) (entry : List Byte) : Decidable (Fits cfg entry) :=
  inferInstanceAs (Decidable (_ ∧ _))

/-- Where the flush under way may end without another look at the markers of thread `t`. -/
def Flusher.target (cfg : LogConfig) (persistent t : Nat) : Flusher → Nat
  | .idle | .readLsn | .failed => 0
  | .scan ready i | .scanMark ready i _ => if t < i then flushEnd cfg persistent ready else 0
  | .test ready => flushEnd cfg persistent ready
  | .write _ fin | .writeRest _ fin | .persist fin => fin

/-- The marker a call is about to publish. -/
def Worker.published : Worker → Option Nat
  | .writeMark _ mark => some mark
  | _ => none

/-- No call publishes a marker that the flusher has passed or is about to pass. -/
def Timely (s : Logger cfg) : Action cfg → Prop
  | .work t => ∀ mark ∈ (s.workers t).published,
      s.persistentLsn ≤ mark ∧ s.flusher.target cfg s.persistentLsn t ≤ mark
  | .logTxn _ _ | .tryFlush | .flush _ => True

instance (s : Logger cfg) (a : Action cfg) : Decidable (Timely s a) :=
  match a with
  | .work t => inferInstanceAs (Decidable (∀ mark ∈ (s.workers t).published,
      s.persistentLsn ≤ mark ∧ s.flusher.target cfg s.persistentLsn t ≤ mark))
  | .logTxn _ _ | .tryFlush | .flush _ => .isTrue trivial

/-! ### The markers of one call -/

/-- Positions from here on are kept free for calls that have passed the test for room. -/
def room (cfg : LogConfig) (persistent : Nat) : Nat :=
  persistent + cfg.logBufferSize - cfg.maxLogEntrySize * cfg.threadCnt

/-- What the markers of a thread say of its call. -/
def Worker.Marked (cfg : LogConfig) (lsn persistent filled mark : Nat)
    (granted : List (Nat × List Byte)) : Worker → Prop
  | .idle => filled ≤ lsn
  | .checkLsn entry => Fits cfg entry ∧ filled ≤ lsn
  | .checkPersistent entry read => Fits cfg entry ∧ filled ≤ read ∧ read ≤ lsn
  | .readMark entry => Fits cfg entry ∧ filled < room cfg persistent ∧ filled ≤ lsn
  | .writeMark entry read =>
      Fits cfg entry ∧ filled < room cfg persistent ∧ filled ≤ read ∧ read ≤ lsn
  | .alloc entry => Fits cfg entry ∧ filled < room cfg persistent ∧ filled ≤ mark ∧ mark ≤ lsn
  | .bump _ _ | .store _ _ _ => False
  | .copy entry l | .copyRest entry l | .fill entry l =>
      filled ≤ mark ∧ mark ≤ l ∧ l + aligned entry.length ≤ lsn ∧ (l, entry) ∈ granted

theorem room_mono (cfg : LogConfig) {persistent persistent' : Nat} (h : persistent ≤ persistent') :
    room cfg persistent ≤ room cfg persistent' :=
  Nat.sub_le_sub_right (Nat.add_le_add_right h _) _

theorem Worker.Marked.mono {lsn lsn' persistent persistent' filled mark : Nat}
    {granted granted' : List (Nat × List Byte)} {w : Worker}
    (h : w.Marked cfg lsn persistent filled mark granted) (hlsn : lsn ≤ lsn')
    (hpersistent : persistent ≤ persistent') (hgranted : ∀ g ∈ granted, g ∈ granted') :
    w.Marked cfg lsn' persistent' filled mark granted' := by
  have hroom := room_mono cfg hpersistent
  cases w with
  | idle => exact h.trans hlsn
  | checkLsn entry => exact ⟨h.1, h.2.trans hlsn⟩
  | checkPersistent entry read => exact ⟨h.1, h.2.1, h.2.2.trans hlsn⟩
  | readMark entry => exact ⟨h.1, h.2.1.trans_le hroom, h.2.2.trans hlsn⟩
  | writeMark entry read | alloc entry =>
      exact ⟨h.1, h.2.1.trans_le hroom, h.2.2.1, h.2.2.2.trans hlsn⟩
  | bump entry l | store entry l value => exact h
  | copy entry l | copyRest entry l | fill entry l =>
      exact ⟨h.1, h.2.1, h.2.2.1.trans hlsn, hgranted _ h.2.2.2⟩

/-! ### Markers and the flusher -/

/-- A flush never falls behind what is persistent; a marker it is about to read that looks taken
    does not, either. -/
def Flusher.Ready (persistent : Nat) (filled mark : Fin cfg.threadCnt → Nat) : Flusher → Prop
  | .idle | .readLsn | .write _ _ | .writeRest _ _ | .persist _ => True
  | .scan ready _ | .test ready => persistent ≤ ready
  | .scanMark ready i read => persistent ≤ ready ∧ ∀ h : i < cfg.threadCnt,
      read ≤ filled ⟨i, h⟩ ∧ (read ≤ mark ⟨i, h⟩ → persistent ≤ mark ⟨i, h⟩)
  | .failed => False

/-- Nothing at or behind an active marker is persistent or about to be. -/
structure Guarded (s : Logger cfg) : Prop where
  marked : ∀ t, (s.workers t).Marked cfg s.lsn s.persistentLsn (s.filledLsn t) (s.allocateLsn t)
    s.granted
  active : ∀ t, s.filledLsn t ≤ s.allocateLsn t → s.persistentLsn ≤ s.allocateLsn t ∧
    s.flusher.target cfg s.persistentLsn t ≤ s.allocateLsn t
  ready : s.flusher.Ready s.persistentLsn s.filledLsn s.allocateLsn

theorem Guarded.init (buffer : Nat → Byte) : Guarded (Logger.init buffer : Logger cfg) :=
  ⟨fun _ => Nat.le_refl _, fun _ _ => ⟨Nat.zero_le _, Nat.zero_le _⟩, trivial⟩

/-- A step of one call: its marker stays or is published in time. -/
theorem Guarded.call (h : Guarded s) (hflusher : s'.flusher = s.flusher)
    (hpersistent : s'.persistentLsn = s.persistentLsn) (hlsn : s.lsn ≤ s'.lsn)
    (hgranted : ∀ g ∈ s.granted, g ∈ s'.granted)
    (hothers : ∀ u, u ≠ t → s'.workers u = s.workers u ∧ s'.filledLsn u = s.filledLsn u ∧
      s'.allocateLsn u = s.allocateLsn u)
    (hfilled : s.filledLsn t ≤ s'.filledLsn t)
    (hmark : s'.allocateLsn t = s.allocateLsn t ∨ s.persistentLsn ≤ s'.allocateLsn t ∧
      s.flusher.target cfg s.persistentLsn t ≤ s'.allocateLsn t)
    (hthis : (s'.workers t).Marked cfg s'.lsn s.persistentLsn (s'.filledLsn t) (s'.allocateLsn t)
      s'.granted) : Guarded s' := by
  constructor
  · intro u
    rw [hpersistent]
    by_cases hut : u = t
    · exact hut ▸ hthis
    · obtain ⟨hworker, hfill, halloc⟩ := hothers u hut
      rw [hworker, hfill, halloc]
      exact (h.marked u).mono hlsn (Nat.le_refl _) hgranted
  · intro u hactive
    rw [hflusher, hpersistent]
    by_cases hut : u = t
    · subst hut
      rcases hmark with hmark | hmark
      · rw [hmark] at hactive ⊢
        exact h.active u (hfilled.trans hactive)
      · exact hmark
    · obtain ⟨-, hfill, halloc⟩ := hothers u hut
      rw [hfill, halloc] at hactive
      rw [halloc]
      exact h.active u hactive
  · have hready := h.ready
    rw [hflusher, hpersistent]
    cases hf : s.flusher with
    | scanMark ready i read =>
        rw [hf] at hready
        refine ⟨hready.1, fun hi => ?_⟩
        obtain ⟨hread, hpast⟩ := hready.2 hi
        by_cases hit : (⟨i, hi⟩ : Fin cfg.threadCnt) = t
        · rw [hit] at hread hpast ⊢
          refine ⟨hread.trans hfilled, fun hle => ?_⟩
          rcases hmark with hmark | hmark
          · rw [hmark] at hle ⊢
            exact hpast hle
          · exact hmark.1
        · obtain ⟨-, hfill, halloc⟩ := hothers _ hit
          rw [hfill, halloc]
          exact ⟨hread, hpast⟩
    | idle | readLsn | write start fin | writeRest start fin | persist fin => trivial
    | scan ready i | test ready | failed =>
        rw [hf] at hready
        exact hready

/-- A step of a call that only goes on. -/
theorem Guarded.goto (h : Guarded s) {w : Worker}
    (hw : w.Marked cfg s.lsn s.persistentLsn (s.filledLsn t) (s.allocateLsn t) s.granted) :
    Guarded (s.goto t w) := by
  refine h.call (t := t) rfl rfl (Nat.le_refl _) (fun _ hg => hg) (fun u hu => ?_) (Nat.le_refl _)
    (.inl rfl) ?_
  · exact ⟨Logger.goto_of_ne hu, rfl, rfl⟩
  · rw [Logger.goto_self]
    exact hw

/-- With room in the buffer, the positions up to the one read are not kept free. -/
theorem lt_room {read size persistent : Nat} (h : ¬ full cfg read size persistent = true) :
    read < room cfg persistent := by
  have hreserve := cfg.reserve_le
  rw [full, Nat.mod_eq_of_lt cfg.reserve_lt, decide_eq_true_iff] at h
  unfold room
  omega

theorem Guarded.work (h : Guarded s) (hmeet : Timely s (.work t))
    (hstep : s.work true t = some s') : Guarded s' := by
  have hmarked := h.marked t
  cases hcall : s.workers t with
  | idle =>
      simp only [Logger.work, hcall] at hstep
      cases hstep
  | bump entry l | store entry l value =>
      rw [hcall] at hmarked
      exact hmarked.elim
  | checkLsn entry =>
      rw [hcall] at hmarked
      simp only [Logger.work, hcall] at hstep
      cases hstep
      exact h.goto ⟨hmarked.1, hmarked.2, Nat.le_refl _⟩
  | checkPersistent entry read =>
      rw [hcall] at hmarked
      obtain ⟨hfits, hfilled, hread⟩ := hmarked
      simp only [Logger.work, hcall, if_neg hfits.1] at hstep
      split at hstep
      · cases hstep
        exact h.goto (hfilled.trans hread)
      · rename_i hroom
        cases hstep
        exact h.goto ⟨hfits, hfilled.trans_lt (lt_room hroom), hfilled.trans hread⟩
  | readMark entry =>
      rw [hcall] at hmarked
      simp only [Logger.work, hcall] at hstep
      cases hstep
      exact h.goto ⟨hmarked.1, hmarked.2.1, hmarked.2.2, Nat.le_refl _⟩
  | writeMark entry mark =>
      rw [hcall] at hmarked
      obtain ⟨hfits, hroom, hfilled, hmark⟩ := hmarked
      simp only [Logger.work, hcall] at hstep
      cases hstep
      refine h.call (t := t) rfl rfl (Nat.le_refl _) (fun _ hg => hg) (fun u hu => ?_)
        (Nat.le_refl _) (.inr ?_) ?_
      · exact ⟨Logger.goto_of_ne hu, rfl, Function.update_of_ne hu _ _⟩
      · dsimp only
        rw [Function.update_self]
        exact hmeet mark (by rw [hcall]; rfl)
      · dsimp only
        rw [Logger.goto_self, Function.update_self]
        exact ⟨hfits, hroom, hfilled, hmark⟩
  | alloc entry =>
      rw [hcall] at hmarked
      obtain ⟨hfits, -, hfilled, hmark⟩ := hmarked
      simp only [Logger.work, hcall, if_true] at hstep
      cases hstep
      refine h.call (t := t) rfl rfl (Nat.le_add_right _ _)
        (fun _ hg => List.mem_append_left _ hg) (fun u hu => ?_) (Nat.le_refl _) (.inl rfl) ?_
      · exact ⟨Logger.goto_of_ne hu, rfl, rfl⟩
      · dsimp only
        rw [Logger.goto_self]
        exact ⟨hfilled, hmark, Nat.le_refl _, List.mem_append_right _ (List.mem_singleton_self _)⟩
  | copy entry l =>
      rw [hcall] at hmarked
      simp only [Logger.work, hcall] at hstep
      cases hstep
      have hgoto : Guarded (s.goto t
          (if wraps cfg l entry.length then .copyRest entry l else .fill entry l)) := by
        apply h.goto
        split <;> exact hmarked
      exact ⟨hgoto.marked, hgoto.active, hgoto.ready⟩
  | copyRest entry l =>
      rw [hcall] at hmarked
      simp only [Logger.work, hcall] at hstep
      cases hstep
      have hgoto : Guarded (s.goto t (.fill entry l)) := h.goto hmarked
      exact ⟨hgoto.marked, hgoto.active, hgoto.ready⟩
  | fill entry l =>
      rw [hcall] at hmarked
      obtain ⟨hfilled, hmark, hlsn, -⟩ := hmarked
      simp only [Logger.work, hcall] at hstep
      cases hstep
      refine h.call (t := t) rfl rfl (Nat.le_refl _) (fun _ hg => hg) (fun u hu => ?_)
        ?_ (.inl rfl) ?_
      · exact ⟨Logger.goto_of_ne hu, Function.update_of_ne hu _ _, rfl⟩
      · dsimp only
        rw [Function.update_self]
        omega
      · dsimp only
        rw [Logger.goto_self, Function.update_self]
        exact hlsn

theorem flushEnd_mono {start ready ready' : Nat} (hstart : 512 ∣ start) (hle : start ≤ ready)
    (hready : ready ≤ ready') : flushEnd cfg start ready ≤ flushEnd cfg start ready' := by
  have hround : start ≤ ready - ready % 512 := by omega
  have hround' : ready - ready % 512 ≤ ready' - ready' % 512 := by omega
  have hsub : sub64 (ready - ready % 512) start = ready - ready % 512 - start := if_pos hround
  have hsub' : sub64 (ready' - ready' % 512) start = ready' - ready' % 512 - start :=
    if_pos (hround.trans hround')
  unfold flushEnd
  dsimp only
  rw [hsub, hsub']
  split <;> split <;> omega

/-- A step of the flusher that leaves `*_persistent_lsn`. -/
theorem Guarded.flusher (h : Guarded s) {f : Flusher}
    (hactive : ∀ t, s.filledLsn t ≤ s.allocateLsn t →
      f.target cfg s.persistentLsn t ≤ s.allocateLsn t)
    (hready : f.Ready s.persistentLsn s.filledLsn s.allocateLsn) {file : List Byte} :
    Guarded { s with flusher := f, file := file } :=
  ⟨h.marked, fun t ht => ⟨(h.active t ht).1, hactive t ht⟩, hready⟩

/-- The markers of one more thread are taken into account. -/
theorem Guarded.scanMark (h : Guarded s) (hextent : Extent s) {ready ready' i read mark : Nat}
    (hflusher : s.flusher = .scanMark ready i read) (hi : i < cfg.threadCnt)
    (hmark : mark = s.allocateLsn ⟨i, hi⟩)
    (hready' : ready' = if read ≤ mark ∧ mark < ready then mark else ready) :
    Guarded { s with flusher := .scan ready' (i + 1) } := by
  have hready := h.ready
  rw [hflusher] at hready
  obtain ⟨hbehind, hthis⟩ := hready
  obtain ⟨hread, hpast⟩ := hthis hi
  rw [← hmark] at hpast
  obtain ⟨hbehind', hle, hlow⟩ : s.persistentLsn ≤ ready' ∧ ready' ≤ ready ∧
      (s.filledLsn ⟨i, hi⟩ ≤ mark → ready' ≤ mark) := by
    rw [hready']
    split
    · rename_i hlow
      exact ⟨hpast hlow.1, hlow.2.le, fun _ => Nat.le_refl _⟩
    · rename_i hlow
      refine ⟨hbehind, Nat.le_refl _, fun hactive => ?_⟩
      by_contra hlt
      exact hlow ⟨hread.trans hactive, Nat.lt_of_not_le hlt⟩
  refine h.flusher (f := .scan ready' (i + 1)) (fun t ht => ?_) hbehind'
  have hspec := flushEnd_spec cfg hextent.whole hbehind'
  dsimp only [Flusher.target]
  split
  · rename_i htle
    rcases Nat.lt_succ_iff_lt_or_eq.mp htle with hlt | heq
    · have htarget := (h.active t ht).2
      rw [hflusher] at htarget
      simp only [Flusher.target, hlt, if_true] at htarget
      exact (flushEnd_mono hextent.whole hbehind' hle).trans htarget
    · have hthis : t = ⟨i, hi⟩ := Fin.ext heq
      rw [hthis, ← hmark] at ht ⊢
      exact hspec.2.1.trans (hlow ht)
  · exact Nat.zero_le _

theorem Guarded.flush (h : Guarded s) (hextent : Extent s) {late : Bool}
    (hstep : s.flush late = some s') : Guarded s' := by
  have hactive := h.active
  have hready := h.ready
  cases hflusher : s.flusher with
  | idle | failed =>
      simp only [Logger.flush, hflusher] at hstep
      cases hstep
  | readLsn =>
      simp only [Logger.flush, hflusher] at hstep
      cases hstep
      refine h.flusher (f := .scan s.lsn 0) (fun t ht => ?_) hextent.le
      exact Nat.zero_le _
  | scan ready i =>
      rw [hflusher] at hready hactive
      simp only [Logger.flush, hflusher] at hstep
      split at hstep
      · rename_i hi
        cases hstep
        refine h.flusher (f := .scanMark ready i _) (fun t ht => (hactive t ht).2)
          ⟨hready, fun hi' => ⟨Nat.le_refl _, ?_⟩⟩
        exact fun hle => (hactive ⟨i, hi⟩ hle).1
      · rename_i hi
        cases hstep
        refine h.flusher (f := .test ready) (fun t ht => ?_) hready
        have htarget := (hactive t ht).2
        simp only [Flusher.target, if_pos (t.isLt.trans_le (Nat.le_of_not_lt hi))] at htarget
        exact htarget
  | scanMark ready i read =>
      simp only [Logger.flush, hflusher] at hstep
      split at hstep
      · rename_i hi
        cases hstep
        exact h.scanMark hextent hflusher hi rfl rfl
      · cases hstep
  | test ready =>
      rw [hflusher] at hready hactive
      simp only [Logger.flush, hflusher] at hstep
      have hspec := flushEnd_spec cfg hextent.whole hready
      have hblock := cfg.block_lt
      split_ifs at hstep with hearly hlate hnone hshort
      · cases hstep
        exact h.flusher (f := .idle) (fun t ht => Nat.zero_le _) trivial
      · exact absurd hready (Nat.not_le_of_lt hlate)
      · cases hstep
        exact h.flusher (f := .persist _) (fun t ht => (hactive t ht).2) trivial
      · cases hstep
        exact h.flusher (f := .write _ _) (fun t ht => (hactive t ht).2) trivial
      · rw [sub64, if_pos hspec.1] at hshort
        omega
  | write start fin =>
      rw [hflusher] at hactive
      simp only [Logger.flush, hflusher] at hstep
      split at hstep
      · cases hstep
        exact h.flusher (f := .writeRest start fin) (fun t ht => (hactive t ht).2) trivial
      · cases hstep
        exact h.flusher (f := .persist fin) (fun t ht => (hactive t ht).2) trivial
  | writeRest start fin =>
      rw [hflusher] at hactive
      simp only [Logger.flush, hflusher] at hstep
      cases hstep
      exact h.flusher (f := .persist fin) (fun t ht => (hactive t ht).2) trivial
  | persist fin =>
      rw [hflusher] at hactive
      simp only [Logger.flush, hflusher] at hstep
      cases hstep
      have hwithin := hextent.within
      rw [hflusher] at hwithin
      refine ⟨fun t => ?_, fun t ht => ⟨(hactive t ht).2, Nat.zero_le _⟩, trivial⟩
      exact (h.marked t).mono (Nat.le_refl _) hwithin.2.1 fun _ hg => hg

/-! ### Room for every entry -/

/-- Where the last entry of a thread ends. -/
def Worker.last (filled : Nat) : Worker → Nat
  | .copy entry l | .copyRest entry l | .fill entry l => l + aligned entry.length
  | _ => filled

/-- The threads whose last entry ends behind `y`. -/
def beyond (s : Logger cfg) (y : Nat) : Finset (Fin cfg.threadCnt) :=
  Finset.univ.filter fun t => y < (s.workers t).last (s.filledLsn t)

/-- Behind the positions kept free, each thread has added at most one entry. -/
def Spaced (s : Logger cfg) : Prop :=
  ∀ y, room cfg s.persistentLsn ≤ y → s.lsn ≤ y + cfg.maxLogEntrySize * (beyond s y).card

theorem Spaced.init (buffer : Nat → Byte) : Spaced (Logger.init buffer : Logger cfg) :=
  fun _ _ => Nat.zero_le _

/-- The log is never longer than what is persistent and the buffer together. -/
theorem Spaced.lsn_le (h : Spaced s) : s.lsn ≤ s.persistentLsn + cfg.logBufferSize := by
  have hreserve := cfg.reserve_le
  have hcard : (beyond s (room cfg s.persistentLsn)).card ≤ cfg.threadCnt :=
    (Finset.card_filter_le _ _).trans_eq (Fintype.card_fin _)
  have hmul := Nat.mul_le_mul_left cfg.maxLogEntrySize hcard
  have hle := h _ (Nat.le_refl _)
  unfold room at hle hmul
  omega

theorem Spaced.frame (h : Spaced s) (hlast : ∀ t, (s'.workers t).last (s'.filledLsn t) =
      (s.workers t).last (s.filledLsn t)) (hlsn : s'.lsn = s.lsn)
    (hpersistent : s.persistentLsn ≤ s'.persistentLsn) : Spaced s' := by
  intro y hy
  have hsame : beyond s' y = beyond s y :=
    Finset.filter_congr fun t _ => by rw [hlast t]
  rw [hsame, hlsn]
  exact h y ((room_mono cfg hpersistent).trans hy)

theorem Spaced.goto (h : Spaced s) {w : Worker}
    (hw : w.last (s.filledLsn t) = (s.workers t).last (s.filledLsn t)) : Spaced (s.goto t w) := by
  refine h.frame (fun u => ?_) rfl (Nat.le_refl _)
  by_cases hut : u = t
  · subst hut
    rw [Logger.goto_self]
    exact hw
  · rw [Logger.goto_of_ne hut]
    rfl

/-- A call that has passed the test takes its range: its thread has added no entry yet. -/
theorem Spaced.alloc (h : Spaced s) (hguarded : Guarded s) {entry : List Byte}
    (hcall : s.workers t = .alloc entry) (hstep : s.work true t = some s') : Spaced s' := by
  have hmarked := hguarded.marked t
  rw [hcall] at hmarked
  obtain ⟨hfits, hroom, -, -⟩ := hmarked
  simp only [Logger.work, hcall, if_true] at hstep
  cases hstep
  intro y hy
  have hle := h y hy
  have hnot : t ∉ beyond s y := by
    rw [beyond, Finset.mem_filter, hcall]
    rintro ⟨-, hlt⟩
    exact absurd (hroom.trans_le hy) (Nat.not_lt_of_lt hlt)
  by_cases hend : y < s.lsn + aligned entry.length
  · have hsub : insert t (beyond s y) ⊆ beyond { s.goto t (.copy entry s.lsn) with
        granted := s.granted ++ [(s.lsn, entry)], lsn := s.lsn + aligned entry.length } y := by
      intro u hu
      rw [beyond, Finset.mem_filter]
      refine ⟨Finset.mem_univ _, ?_⟩
      dsimp only
      rcases Finset.mem_insert.mp hu with rfl | hu
      · rw [Logger.goto_self]
        exact hend
      · have hut : u ≠ t := fun hut => hnot (hut ▸ hu)
        rw [Logger.goto_of_ne hut]
        exact (Finset.mem_filter.mp hu).2
    have hcard := Finset.card_le_card hsub
    rw [Finset.card_insert_of_notMem hnot] at hcard
    have hmul := Nat.mul_le_mul_left cfg.maxLogEntrySize hcard
    have hentry := hfits.2
    rw [Nat.mul_add] at hmul
    refine le_trans ?_ (Nat.add_le_add_left hmul y)
    dsimp only
    omega
  · exact (Nat.le_of_not_lt hend).trans (Nat.le_add_right _ _)

theorem Spaced.work (h : Spaced s) (hguarded : Guarded s) (hstep : s.work true t = some s') :
    Spaced s' := by
  have hmarked := hguarded.marked t
  cases hcall : s.workers t with
  | idle =>
      simp only [Logger.work, hcall] at hstep
      cases hstep
  | bump entry l | store entry l value =>
      rw [hcall] at hmarked
      exact hmarked.elim
  | alloc entry => exact h.alloc hguarded hcall hstep
  | checkPersistent entry read =>
      simp only [Logger.work, hcall] at hstep
      split at hstep
      · cases hstep
        exact h.goto (by rw [hcall]; rfl)
      · cases hstep
        refine h.goto ?_
        rw [hcall]
        split <;> rfl
  | checkLsn entry | readMark entry =>
      simp only [Logger.work, hcall] at hstep
      cases hstep
      exact h.goto (by rw [hcall]; rfl)
  | writeMark entry mark =>
      simp only [Logger.work, hcall] at hstep
      cases hstep
      exact h.goto (w := .alloc entry) (by rw [hcall]; rfl)
  | copy entry l =>
      simp only [Logger.work, hcall] at hstep
      cases hstep
      have hgoto : Spaced (s.goto t
          (if wraps cfg l entry.length then .copyRest entry l else .fill entry l)) := by
        apply h.goto
        rw [hcall]
        split <;> rfl
      exact hgoto
  | copyRest entry l =>
      simp only [Logger.work, hcall] at hstep
      cases hstep
      exact h.goto (w := .fill entry l) (by rw [hcall]; rfl)
  | fill entry l =>
      simp only [Logger.work, hcall] at hstep
      cases hstep
      refine h.frame (fun u => ?_) rfl (Nat.le_refl _)
      dsimp only
      by_cases hut : u = t
      · subst hut
        rw [Logger.goto_self, Function.update_self, hcall]
        rfl
      · rw [Logger.goto_of_ne hut, Function.update_of_ne hut]

/-- `*_persistent_lsn` never decreases. -/
theorem Extent.persistent_mono (h : Extent s) {late : Bool} (hstep : s.flush late = some s') :
    s.persistentLsn ≤ s'.persistentLsn := by
  have hwithin := h.within
  cases hflusher : s.flusher with
  | persist fin =>
      rw [hflusher] at hwithin
      simp only [Logger.flush, hflusher] at hstep
      cases hstep
      exact hwithin.2.1
  | test ready =>
      simp only [Logger.flush, hflusher] at hstep
      split_ifs at hstep <;> cases hstep <;> exact Nat.le_refl _
  | scan ready i | scanMark ready i read | write start fin =>
      simp only [Logger.flush, hflusher] at hstep
      split at hstep <;> cases hstep <;> exact Nat.le_refl _
  | idle | failed | readLsn | writeRest start fin =>
      simp only [Logger.flush, hflusher] at hstep
      cases hstep <;> exact Nat.le_refl _

theorem Spaced.flush (h : Spaced s) (hextent : Extent s) {late : Bool}
    (hstep : s.flush late = some s') : Spaced s' := by
  obtain ⟨-, hlsn, hworkers, hfilled, -⟩ := flush_quiet hstep
  refine h.frame (fun t => ?_) hlsn (hextent.persistent_mono hstep)
  rw [hworkers, hfilled]

/-! ### What the buffer holds -/

/-- Of the first `n` bytes of the entry at `l`, those not yet persistent stand in the buffer. -/
def Copied (cfg : LogConfig) (buffer : Nat → Byte) (persistent l : Nat) (entry : List Byte)
    (n : Nat) : Prop :=
  ∀ k x, k < n → entry[k]? = some x → persistent ≤ l + k →
    buffer ((l + k) % cfg.logBufferSize) = x

/-- Somebody is still copying the entry. -/
def Logger.Copying (s : Logger cfg) (g : Nat × List Byte) : Prop :=
  ∃ t, s.workers t = .copy g.2 g.1 ∨ s.workers t = .copyRest g.2 g.1

/-- Every entry stands in the buffer or is being copied; of one that wraps the first part does. -/
structure Kept (s : Logger cfg) : Prop where
  entries : ∀ g ∈ s.granted,
    Copied cfg s.buffer s.persistentLsn g.1 g.2 g.2.length ∨ s.Copying g
  first : ∀ t entry l, s.workers t = .copyRest entry l → wraps cfg l entry.length = true ∧
    Copied cfg s.buffer s.persistentLsn l entry (tailSize cfg l)

theorem Copied.mono {buffer : Nat → Byte} {persistent persistent' l n : Nat} {entry : List Byte}
    (h : Copied cfg buffer persistent l entry n) (hle : persistent ≤ persistent') :
    Copied cfg buffer persistent' l entry n :=
  fun k x hk hx hnew => h k x hk hx (hle.trans hnew)

/-- Entries of a tiled log are the same one or lie apart. -/
theorem Tiled.apart {gs : List (Nat × List Byte)} {top : Nat} (h : Tiled gs top)
    {g g' : Nat × List Byte} (hg : g ∈ gs) (hg' : g' ∈ gs) (hne : g ≠ g') :
    g.1 + aligned g.2.length ≤ g'.1 ∨ g'.1 + aligned g'.2.length ≤ g.1 := by
  have hsymm : Std.Symm fun g g' : Nat × List Byte =>
      g.1 + aligned g.2.length ≤ g'.1 ∨ g'.1 + aligned g'.2.length ≤ g.1 := ⟨fun _ _ => Or.symm⟩
  have hpairs : gs.Pairwise fun g g' => g.1 + aligned g.2.length ≤ g'.1 ∨
      g'.1 + aligned g'.2.length ≤ g.1 := h.pairwise.imp Or.inl
  exact hpairs.forall hg hg' hne

section Block

variable {buffer : Nat → Byte} {persistent l off : Nat} {entry block : List Byte}

/-- The `memcpy` of a part of an entry: it fits before the end of the ring. -/
structure IsBlock (cfg : LogConfig) (l off : Nat) (entry block : List Byte) : Prop where
  part : ∀ j x, block[j]? = some x → entry[off + j]? = some x
  within : off + block.length ≤ entry.length
  fits : (l + off) % cfg.logBufferSize + block.length ≤ cfg.logBufferSize

/-- It leaves every other unflushed byte alone, since the entries lie apart in one window. -/
theorem Copied.put (hblock : IsBlock cfg l off entry block) {l' n : Nat} {entry' : List Byte}
    (hapart : (l', entry') = (l, entry) ∨ l' + entry'.length ≤ l ∨ l + entry.length ≤ l')
    (hlow : persistent ≤ l) (hhigh : l + entry.length ≤ persistent + cfg.logBufferSize)
    (hhigh' : l' + entry'.length ≤ persistent + cfg.logBufferSize)
    (h : Copied cfg buffer persistent l' entry' n) :
    Copied cfg (Ring.put buffer ((l + off) % cfg.logBufferSize) block) persistent l' entry' n := by
  intro k x hk hx hnew
  have hlt := (List.getElem?_eq_some_iff.mp hx).1
  have hwithin := hblock.within
  have hkeep : l' + k < l + off ∨ l + off + block.length ≤ l' + k →
      Ring.put buffer ((l + off) % cfg.logBufferSize) block ((l' + k) % cfg.logBufferSize) = x := by
    intro hout
    have hlow₁ : persistent ≤ l + off := by omega
    have hhigh₁ : l + off + block.length ≤ persistent + cfg.logBufferSize := by omega
    rw [Ring.put_of_ne hblock.fits hlow₁ hhigh₁ hnew (by omega) hout]
    exact h k x hk hx hnew
  rcases hapart with heq | hapart
  · obtain ⟨rfl, rfl⟩ := Prod.mk.inj heq
    by_cases hin : off ≤ k ∧ k < off + block.length
    · -- the byte is written again
      obtain ⟨j, rfl⟩ := Nat.exists_eq_add_of_le hin.1
      have hj : j < block.length := by omega
      have hself := hblock.part j _ (List.getElem?_eq_getElem hj)
      rw [hx] at hself
      rw [← Nat.add_assoc]
      refine Ring.put_self hblock.fits ?_
      rw [List.getElem?_eq_getElem hj]
      exact hself.symm
    · exact hkeep (by omega)
  · exact hkeep (by omega)

/-- The bytes before the block and those of the block. -/
theorem Copied.extend (hblock : IsBlock cfg l off entry block) (hlow : persistent ≤ l)
    (hhigh : l + entry.length ≤ persistent + cfg.logBufferSize)
    (h : Copied cfg buffer persistent l entry off) :
    Copied cfg (Ring.put buffer ((l + off) % cfg.logBufferSize) block) persistent l entry
      (off + block.length) := by
  intro k x hk hx hnew
  by_cases hin : off ≤ k
  · obtain ⟨j, rfl⟩ := Nat.exists_eq_add_of_le hin
    have hj : j < block.length := by omega
    have hself := hblock.part j _ (List.getElem?_eq_getElem hj)
    rw [hx] at hself
    rw [← Nat.add_assoc]
    refine Ring.put_self hblock.fits ?_
    rw [List.getElem?_eq_getElem hj]
    exact hself.symm
  · exact Copied.put hblock (.inl rfl) hlow hhigh hhigh h k x (Nat.lt_of_not_le hin) hx hnew

end Block

theorem tailSize_le {l size : Nat} (h : wraps cfg l size = true) : tailSize cfg l ≤ size := by
  have hlt : l / cfg.logBufferSize < (l + size) / cfg.logBufferSize := of_decide_eq_true h
  have hmul : cfg.logBufferSize * (l / cfg.logBufferSize + 1) ≤ l + size :=
    (Nat.mul_le_mul_left _ hlt).trans (Nat.mul_div_le _ _)
  have hdiv := Nat.div_add_mod l cfg.logBufferSize
  rw [Nat.mul_add] at hmul
  unfold tailSize
  omega

theorem not_wraps {l size : Nat} (h : ¬ wraps cfg l size = true) :
    l % cfg.logBufferSize + size ≤ cfg.logBufferSize := by
  have hle : (l + size) / cfg.logBufferSize ≤ l / cfg.logBufferSize :=
    Nat.le_of_not_lt fun hlt => h (decide_eq_true hlt)
  have hpos : 0 < cfg.logBufferSize := cfg.block_pos.trans cfg.block_lt
  have hmul := Nat.mul_le_mul_left cfg.logBufferSize hle
  have hdiv := Nat.div_add_mod l cfg.logBufferSize
  have hdiv' := Nat.div_add_mod (l + size) cfg.logBufferSize
  have hmod := Nat.mod_lt (l + size) hpos
  omega

theorem add_tailSize_mod (cfg : LogConfig) (l : Nat) :
    (l + tailSize cfg l) % cfg.logBufferSize = 0 := by
  have hpos : 0 < cfg.logBufferSize := cfg.block_pos.trans cfg.block_lt
  have hmod := Nat.mod_lt l hpos
  have hdiv := Nat.div_add_mod l cfg.logBufferSize
  have hnext : l + tailSize cfg l = cfg.logBufferSize * (l / cfg.logBufferSize + 1) := by
    rw [Nat.mul_add]
    unfold tailSize
    omega
  rw [hnext, Nat.mul_mod_right]

theorem firstBlock_isBlock (l : Nat) (entry : List Byte) :
    IsBlock cfg l 0 entry (firstBlock cfg entry l) := by
  have hpos : 0 < cfg.logBufferSize := cfg.block_pos.trans cfg.block_lt
  have hmod := Nat.mod_lt l hpos
  unfold firstBlock
  split
  · rename_i hwraps
    have htail := tailSize_le hwraps
    refine ⟨fun j x hx => ?_, ?_, ?_⟩
    · rw [List.getElem?_take] at hx
      split at hx
      · rwa [Nat.zero_add]
      · cases hx
    · rw [List.length_take]
      omega
    · rw [List.length_take, Nat.add_zero]
      unfold tailSize at *
      omega
  · rename_i hfits
    refine ⟨fun j x hx => ?_, ?_, ?_⟩
    · rwa [Nat.zero_add]
    · rw [Nat.zero_add]
    · exact not_wraps hfits

theorem restBlock_isBlock {l : Nat} {entry : List Byte} (hwraps : wraps cfg l entry.length = true)
    (hsize : entry.length ≤ cfg.logBufferSize) :
    IsBlock cfg l (tailSize cfg l) entry (entry.drop (tailSize cfg l)) := by
  have htail := tailSize_le hwraps
  refine ⟨fun j x hx => ?_, ?_, ?_⟩
  · rwa [List.getElem?_drop] at hx
  · rw [List.length_drop]
    omega
  · rw [add_tailSize_mod, List.length_drop]
    omega

/-- An entry that is being copied lies in the window between what is persistent and the end of the
    buffer. -/
theorem Guarded.window (h : Guarded s) (hspaced : Spaced s) {entry : List Byte} {l : Nat}
    (hcall : s.workers t = .copy entry l ∨ s.workers t = .copyRest entry l) :
    s.persistentLsn ≤ l ∧ s.flusher.target cfg s.persistentLsn t ≤ l ∧
      l + entry.length ≤ s.persistentLsn + cfg.logBufferSize ∧ (l, entry) ∈ s.granted := by
  have hmarked : s.filledLsn t ≤ s.allocateLsn t ∧ s.allocateLsn t ≤ l ∧
      l + aligned entry.length ≤ s.lsn ∧ (l, entry) ∈ s.granted := by
    have hmarked := h.marked t
    rcases hcall with hcall | hcall
    · rw [hcall] at hmarked
      exact hmarked
    · rw [hcall] at hmarked
      exact hmarked
  obtain ⟨hactive, hle, hend, hmem⟩ := hmarked
  obtain ⟨hlow, htarget⟩ := h.active t hactive
  have hlsn := hspaced.lsn_le
  have hsize := le_aligned entry.length
  exact ⟨hlow.trans hle, htarget.trans hle, by omega, hmem⟩

theorem Tiled.end_le (h : Tiled s.granted s.lsn) (hspaced : Spaced s) {g : Nat × List Byte}
    (hg : g ∈ s.granted) : g.1 + g.2.length ≤ s.persistentLsn + cfg.logBufferSize := by
  have hend := h.le g hg
  have hlsn := hspaced.lsn_le
  have hsize := le_aligned g.2.length
  omega

/-- A `memcpy` adds its block and leaves what is not yet persistent. -/
theorem Kept.copied (h : Kept s) (htiled : Tiled s.granted s.lsn) (hguarded : Guarded s)
    (hspaced : Spaced s) {entry block : List Byte} {l off : Nat} {w : Worker}
    (hcall : s.workers t = .copy entry l ∨ s.workers t = .copyRest entry l)
    (hblock : IsBlock cfg l off entry block)
    (hbefore : Copied cfg s.buffer s.persistentLsn l entry off)
    (hw : w = .copyRest entry l ∧ wraps cfg l entry.length = true ∧
        tailSize cfg l = off + block.length ∨
      w = .fill entry l ∧ entry.length = off + block.length) :
    Kept { s.goto t w with
      buffer := Ring.put s.buffer ((l + off) % cfg.logBufferSize) block } := by
  obtain ⟨hlow, -, hhigh, hmem⟩ := hguarded.window hspaced hcall
  have hbehind := Copied.extend hblock hlow hhigh hbefore
  have hkeep : ∀ g ∈ s.granted, ∀ n, Copied cfg s.buffer s.persistentLsn g.1 g.2 n →
      Copied cfg (Ring.put s.buffer ((l + off) % cfg.logBufferSize) block) s.persistentLsn
        g.1 g.2 n := by
    intro g hg n hcopied
    refine Copied.put hblock ?_ hlow hhigh (htiled.end_le hspaced hg) hcopied
    by_cases heq : g = (l, entry)
    · exact .inl heq
    · have hapart := htiled.apart hg hmem heq
      have hsize := le_aligned g.2.length
      have hsize' := le_aligned entry.length
      dsimp only at hapart
      exact .inr (by omega)
  constructor
  · intro g hg
    by_cases heq : g = (l, entry)
    · subst heq
      rcases hw with ⟨rfl, -, -⟩ | ⟨-, hlen⟩
      · exact .inr ⟨t, .inr (Logger.goto_self ..)⟩
      · left
        dsimp only
        rw [hlen]
        exact hbehind
    · rcases h.entries g hg with hcopied | ⟨u, hu⟩
      · exact .inl (hkeep g hg _ hcopied)
      · right
        have hut : u ≠ t := by
          rintro rfl
          refine heq ?_
          rcases hcall with hcall | hcall <;> rw [hcall] at hu <;> rcases hu with hu | hu <;>
            cases hu <;> rfl
        refine ⟨u, ?_⟩
        dsimp only
        rw [Logger.goto_of_ne hut]
        exact hu
  · intro u entry' l' hu
    dsimp only at hu
    by_cases hut : u = t
    · subst hut
      rw [Logger.goto_self] at hu
      rcases hw with ⟨rfl, hwraps, htail⟩ | ⟨rfl, -⟩
      · cases hu
        exact ⟨hwraps, htail ▸ hbehind⟩
      · cases hu
    · rw [Logger.goto_of_ne hut] at hu
      obtain ⟨hwraps, hcopied⟩ := h.first u entry' l' hu
      obtain ⟨-, -, -, hmem'⟩ := hguarded.window hspaced (.inr hu)
      exact ⟨hwraps, hkeep (l', entry') hmem' _ hcopied⟩

/-- A step of a call that is not copying. -/
theorem Kept.goto (h : Kept s) {w : Worker}
    (hcall : ∀ entry l, s.workers t ≠ .copy entry l ∧ s.workers t ≠ .copyRest entry l)
    (hw : ∀ entry l, w ≠ .copyRest entry l) : Kept (s.goto t w) := by
  constructor
  · intro g hg
    rcases h.entries g hg with hcopied | ⟨u, hu⟩
    · exact .inl hcopied
    · right
      have hut : u ≠ t := by
        rintro rfl
        exact hu.elim (hcall g.2 g.1).1 (hcall g.2 g.1).2
      refine ⟨u, ?_⟩
      rw [Logger.goto_of_ne hut]
      exact hu
  · intro u entry l hu
    by_cases hut : u = t
    · subst hut
      rw [Logger.goto_self] at hu
      exact absurd hu (hw entry l)
    · rw [Logger.goto_of_ne hut] at hu
      exact h.first u entry l hu

theorem Kept.work (h : Kept s) (htiled : Tiled s.granted s.lsn) (hguarded : Guarded s)
    (hspaced : Spaced s) (hstep : s.work true t = some s') : Kept s' := by
  have hmarked := hguarded.marked t
  cases hcall : s.workers t with
  | idle =>
      simp only [Logger.work, hcall] at hstep
      cases hstep
  | bump entry l | store entry l value =>
      rw [hcall] at hmarked
      exact hmarked.elim
  | checkPersistent entry read =>
      simp only [Logger.work, hcall] at hstep
      split at hstep
      · cases hstep
        exact h.goto (by simp [hcall]) (by simp)
      · cases hstep
        refine h.goto (by simp [hcall]) ?_
        split <;> simp
  | checkLsn entry | readMark entry =>
      simp only [Logger.work, hcall] at hstep
      cases hstep
      exact h.goto (by simp [hcall]) (by simp)
  | writeMark entry mark =>
      simp only [Logger.work, hcall] at hstep
      cases hstep
      have hgoto : Kept (s.goto t (.alloc entry)) := h.goto (by simp [hcall]) (by simp)
      exact ⟨hgoto.entries, hgoto.first⟩
  | alloc entry =>
      simp only [Logger.work, hcall, if_true] at hstep
      cases hstep
      have hgoto : Kept (s.goto t (.copy entry s.lsn)) := h.goto (by simp [hcall]) (by simp)
      refine ⟨fun g hg => ?_, hgoto.first⟩
      rcases List.mem_append.mp hg with hg | hg
      · exact hgoto.entries g hg
      · obtain rfl := List.mem_singleton.mp hg
        exact .inr ⟨t, .inl (Logger.goto_self ..)⟩
  | copy entry l =>
      simp only [Logger.work, hcall] at hstep
      cases hstep
      have hnone : Copied cfg s.buffer s.persistentLsn l entry 0 :=
        fun k x hk => absurd hk k.not_lt_zero
      refine h.copied htiled hguarded hspaced (.inl hcall) (firstBlock_isBlock l entry) hnone ?_
      unfold firstBlock
      split
      · rename_i hwraps
        have htail := tailSize_le hwraps
        refine .inl ⟨rfl, hwraps, ?_⟩
        rw [List.length_take]
        omega
      · exact .inr ⟨rfl, (Nat.zero_add _).symm⟩
  | copyRest entry l =>
      simp only [Logger.work, hcall] at hstep
      cases hstep
      obtain ⟨hwraps, hcopied⟩ := h.first t entry l hcall
      obtain ⟨hlow, -, hhigh, -⟩ := hguarded.window hspaced (.inr hcall)
      have hsize : entry.length ≤ cfg.logBufferSize := by omega
      have hblock := restBlock_isBlock hwraps hsize
      have hkept := h.copied htiled hguarded hspaced (.inr hcall) hblock hcopied
        (w := .fill entry l) (.inr ⟨rfl, ?_⟩)
      · rwa [add_tailSize_mod] at hkept
      · have htail := tailSize_le hwraps
        rw [List.length_drop]
        omega
  | fill entry l =>
      simp only [Logger.work, hcall] at hstep
      cases hstep
      have hgoto : Kept (s.goto t .idle) := h.goto (by simp [hcall]) (by simp)
      exact ⟨hgoto.entries, hgoto.first⟩

theorem Kept.flush (h : Kept s) (hextent : Extent s) {late : Bool}
    (hstep : s.flush late = some s') : Kept s' := by
  obtain ⟨hgranted, -, hworkers, -, hbuffer⟩ := flush_quiet hstep
  have hpersistent := hextent.persistent_mono hstep
  constructor
  · rw [hgranted, hbuffer]
    intro g hg
    refine (h.entries g hg).imp (fun hcopied => hcopied.mono hpersistent) fun hcopying => ?_
    unfold Logger.Copying
    rw [hworkers]
    exact hcopying
  · rw [hworkers, hbuffer]
    intro t entry l hcall
    obtain ⟨hwraps, hcopied⟩ := h.first t entry l hcall
    exact ⟨hwraps, hcopied.mono hpersistent⟩

/-! ### What the file holds -/

/-- The file holds the bytes of the entries, as far as it reaches. -/
def Filed (s : Logger cfg) : Prop :=
  ∀ g ∈ s.granted, ∀ k x, g.2[k]? = some x → g.1 + k < s.file.length →
    s.file[g.1 + k]? = some x

/-- A block of the ring is written that only holds entries copied. -/
theorem Filed.write (h : Filed s) (hkept : Kept s) (hguarded : Guarded s) (hspaced : Spaced s)
    {start n fin : Nat} {f : Flusher}
    (hstart : s.file.length = start) (hpersistent : s.persistentLsn ≤ start)
    (hfits : start % cfg.logBufferSize + n ≤ cfg.logBufferSize) (hfin : start + n ≤ fin)
    (htarget : ∀ t, fin ≤ s.flusher.target cfg s.persistentLsn t) :
    Filed { s with
      file := s.file ++ Ring.get s.buffer (start % cfg.logBufferSize) n
      flusher := f } := by
  intro g hg k x hx hlt
  rw [List.length_append, Ring.length_get, hstart] at hlt
  by_cases hold : g.1 + k < s.file.length
  · rw [List.getElem?_append_left hold]
    exact h g hg k x hx hold
  · have hnew : start ≤ g.1 + k := hstart ▸ Nat.le_of_not_lt hold
    obtain ⟨j, hj⟩ := Nat.exists_eq_add_of_le hnew
    dsimp only
    rw [List.getElem?_append_right (by omega), hstart, hj, Nat.add_sub_cancel_left,
      Ring.getElem?_get hfits (by omega), ← hj]
    have hk := (List.getElem?_eq_some_iff.mp hx).1
    rcases hkept.entries g hg with hcopied | ⟨t, hcall⟩
    · exact congrArg some (hcopied k x hk hx (hpersistent.trans hnew))
    · -- an entry still being copied lies behind the block
      obtain ⟨-, hbehind, -, -⟩ := hguarded.window hspaced hcall
      have := htarget t
      omega

theorem Filed.flush (h : Filed s) (hextent : Extent s) (hkept : Kept s) (hguarded : Guarded s)
    (hspaced : Spaced s) {late : Bool} (hstep : s.flush late = some s') : Filed s' := by
  have hwithin := hextent.within
  have hpos : 0 < cfg.logBufferSize := cfg.block_pos.trans cfg.block_lt
  cases hflusher : s.flusher with
  | write start fin =>
      rw [hflusher] at hwithin
      obtain ⟨hlen, hstart, hlt, -, -, -⟩ := hwithin
      have htarget : ∀ t : Nat, fin ≤ s.flusher.target cfg s.persistentLsn t := by
        intro t
        rw [hflusher]
        exact Nat.le_refl _
      have hmod := Nat.mod_lt start hpos
      simp only [Logger.flush, hflusher] at hstep
      split at hstep
      · rename_i hwrap
        cases hstep
        have htail : tailSize cfg start ≤ fin - start := tailSize_le (by
          rw [wraps, Nat.add_sub_cancel' hlt.le]
          exact decide_eq_true hwrap)
        unfold tailSize at htail
        have hend : start + (cfg.logBufferSize - start % cfg.logBufferSize) ≤ fin := by omega
        exact h.write hkept hguarded hspaced (hlen.trans hstart.symm) hstart.ge (by omega) hend
          htarget
      · rename_i hwrap
        cases hstep
        have hfits : start % cfg.logBufferSize + (fin - start) ≤ cfg.logBufferSize := by
          apply not_wraps
          rw [wraps, Nat.add_sub_cancel' hlt.le]
          exact fun hw => hwrap (of_decide_eq_true hw)
        have hend : start + (fin - start) ≤ fin := by omega
        exact h.write hkept hguarded hspaced (hlen.trans hstart.symm) hstart.ge hfits hend htarget
  | writeRest start fin =>
      rw [hflusher] at hwithin
      obtain ⟨hlen, hstart, hwrap, -, -, hshort⟩ := hwithin
      have htarget : ∀ t : Nat, fin ≤ s.flusher.target cfg s.persistentLsn t := by
        intro t
        rw [hflusher]
        exact Nat.le_refl _
      have hend := wrap_end hwrap hshort
      have hmod := Nat.mod_lt fin hpos
      have hcell := add_tailSize_mod cfg start
      simp only [Logger.flush, hflusher] at hstep
      cases hstep
      have hfiled := h.write hkept hguarded hspaced (n := fin % cfg.logBufferSize)
        (f := .persist fin) hlen (by omega) (by rw [← tailSize, hcell]; omega) hend.le htarget
      rwa [← tailSize, hcell] at hfiled
  | test ready =>
      simp only [Logger.flush, hflusher] at hstep
      split_ifs at hstep <;> cases hstep <;> exact h
  | scan ready i | scanMark ready i read =>
      simp only [Logger.flush, hflusher] at hstep
      split at hstep <;> cases hstep <;> exact h
  | idle | failed | readLsn | persist fin =>
      simp only [Logger.flush, hflusher] at hstep
      cases hstep <;> exact h

/-! ### Runs -/

/-- A call takes at most one position in a step, the one at `*_lsn`. -/
theorem granted_work {sync : Bool} (hstep : s.work sync t = some s') :
    s'.granted = s.granted ∨ ∃ entry, s'.granted = s.granted ++ [(s.lsn, entry)] := by
  cases hcall : s.workers t with
  | alloc entry =>
      simp only [Logger.work, hcall] at hstep
      split at hstep <;> cases hstep <;> exact .inr ⟨entry, rfl⟩
  | checkPersistent entry read =>
      simp only [Logger.work, hcall] at hstep
      split at hstep <;> cases hstep <;> exact .inl rfl
  | idle | checkLsn entry | readMark entry | writeMark entry mark | bump entry l
  | store entry l value | copy entry l | copyRest entry l | fill entry l =>
      simp only [Logger.work, hcall] at hstep
      cases hstep <;> exact .inl rfl

/-- The file lies inside the log. -/
theorem Extent.length_le (h : Extent s) : s.file.length ≤ s.lsn := by
  obtain ⟨hle, -, hwithin⟩ := h
  cases hflusher : s.flusher with
  | idle | readLsn | failed =>
      rw [hflusher] at hwithin
      exact hwithin.trans_le hle
  | scan ready i | scanMark ready i read | test ready =>
      rw [hflusher] at hwithin
      exact hwithin.1.trans_le hle
  | write start fin =>
      rw [hflusher] at hwithin
      exact hwithin.1.trans_le hle
  | writeRest start fin =>
      rw [hflusher] at hwithin
      obtain ⟨hlen, -, hwrap, hfin, -, hshort⟩ := hwithin
      have hend := wrap_end hwrap hshort
      omega
  | persist fin =>
      rw [hflusher] at hwithin
      exact hwithin.1.trans_le hwithin.2.2.1

/-- The positions with a fetch-and-add, the file, the markers, the room and the contents. -/
structure Inv (s : Logger cfg) : Prop where
  apart : Apart .silo s
  extent : Extent s
  guarded : Guarded s
  spaced : Spaced s
  kept : Kept s
  filed : Filed s

theorem Inv.init (buffer : Nat → Byte) : Inv (Logger.init buffer : Logger cfg) where
  apart := Apart.init .silo buffer
  extent := Extent.init buffer
  guarded := Guarded.init buffer
  spaced := Spaced.init buffer
  kept := ⟨fun _ hg => (List.not_mem_nil hg).elim, fun _ _ _ hcall => nomatch hcall⟩
  filed := fun _ hg => (List.not_mem_nil hg).elim

theorem Apart.tiled (h : Apart .silo s) : Tiled s.granted s.lsn := by
  obtain ⟨⟨top, hhanded⟩, hsync⟩ := h
  rw [hhanded.lsn (hsync rfl)]
  exact hhanded.tiled

theorem exclusive_silo (s : Logger cfg) (a : Action cfg) : Exclusive .silo s a := by
  cases a with
  | work t => exact .inl rfl
  | logTxn t entry | tryFlush | flush late => trivial

/-- A call starts. -/
theorem Inv.logTxn (h : Inv s) {entry : List Byte} (hfits : Fits cfg entry)
    (hidle : s.workers t = .idle) : Inv (s.goto t (.checkLsn entry)) where
  apart := h.apart.quiet (w := .checkLsn entry) (by rw [hidle]; exact id) id rfl rfl rfl
  extent := h.extent.frame rfl rfl rfl (Nat.le_refl _)
  guarded := by
    have hmarked := h.guarded.marked t
    rw [hidle] at hmarked
    exact h.guarded.goto ⟨hfits, hmarked⟩
  spaced := h.spaced.goto (by rw [hidle]; rfl)
  kept := h.kept.goto (by simp [hidle]) (by simp)
  filed := h.filed

theorem Inv.work (h : Inv s) (hmeet : Timely s (.work t)) (hstep : s.work true t = some s') :
    Inv s' where
  apart := h.apart.work (.inl rfl) hstep
  extent := by
    obtain ⟨hflusher, hpersistent, hfile, hlsn⟩ := work_frame hstep
    refine h.extent.frame hflusher hpersistent hfile ?_
    rcases hlsn with hlsn | ⟨entry, l, value, hcall, -⟩
    · exact hlsn
    · have hmarked := h.guarded.marked t
      rw [hcall] at hmarked
      exact hmarked.elim
  guarded := h.guarded.work hmeet hstep
  spaced := h.spaced.work h.guarded hstep
  kept := h.kept.work h.apart.tiled h.guarded h.spaced hstep
  filed := by
    obtain ⟨-, -, hfile, -⟩ := work_frame hstep
    have hlen := h.extent.length_le
    intro g hg k x hx hlt
    rw [hfile] at hlt ⊢
    rcases granted_work hstep with hgranted | ⟨entry, hgranted⟩
    · exact h.filed g (hgranted ▸ hg) k x hx hlt
    · rw [hgranted] at hg
      rcases List.mem_append.mp hg with hg | hg
      · exact h.filed g hg k x hx hlt
      · obtain rfl := List.mem_singleton.mp hg
        dsimp only at hlt
        omega

theorem Inv.flush (h : Inv s) {late : Bool} (hstep : s.flush late = some s') : Inv s' where
  apart := h.apart.step (a := .flush late) (exclusive_silo _ _) hstep
  extent := h.extent.flush hstep
  guarded := h.guarded.flush h.extent hstep
  spaced := h.spaced.flush h.extent hstep
  kept := h.kept.flush h.extent hstep
  filed := h.filed.flush h.extent h.kept h.guarded h.spaced hstep

theorem Inv.tryFlush (h : Inv s) (hidle : s.flusher = .idle) :
    Inv { s with flusher := .readLsn } where
  apart := h.apart.frame rfl rfl rfl
  extent := by
    have hwithin := h.extent.within
    rw [hidle] at hwithin
    exact ⟨h.extent.le, h.extent.whole, hwithin⟩
  guarded := h.guarded.flusher (f := .readLsn) (fun _ _ => Nat.zero_le _) trivial
  spaced := h.spaced
  kept := ⟨h.kept.entries, h.kept.first⟩
  filed := h.filed

/-- Between the end of a `write` and the store to `*_persistent_lsn`. -/
def Flusher.Writing : Flusher → Prop
  | .writeRest _ _ | .persist _ => True
  | _ => False

/-- The ring keeps every byte until it is in the file, no assertion has failed, and the file is the
    log up to `*_persistent_lsn`. -/
structure Safe (s : Logger cfg) : Prop where
  ring : ∀ g ∈ s.granted, ¬ s.Copying g → ∀ k x, g.2[k]? = some x → s.persistentLsn ≤ g.1 + k →
    s.buffer ((g.1 + k) % cfg.logBufferSize) = x
  window : ∀ t entry l, s.workers t = .copy entry l ∨ s.workers t = .copyRest entry l →
    s.persistentLsn ≤ l ∧ l + entry.length ≤ s.persistentLsn + cfg.logBufferSize
  assertions : s.flusher ≠ .failed
  length_ge : s.persistentLsn ≤ s.file.length
  length_eq : ¬ s.flusher.Writing → s.file.length = s.persistentLsn
  file : Filed s

theorem Inv.safe (h : Inv s) : Safe s where
  ring := by
    intro g hg hdone k x hx hnew
    rcases h.kept.entries g hg with hcopied | hcopying
    · exact hcopied k x (List.getElem?_eq_some_iff.mp hx).1 hx hnew
    · exact absurd hcopying hdone
  window := by
    intro t entry l hcall
    obtain ⟨hlow, -, hhigh, -⟩ := h.guarded.window h.spaced hcall
    exact ⟨hlow, hhigh⟩
  assertions := by
    intro hfailed
    have hready := h.guarded.ready
    rw [hfailed] at hready
    exact hready
  length_ge := by
    have hwithin := h.extent.within
    cases hflusher : s.flusher with
    | idle | readLsn | failed =>
        rw [hflusher] at hwithin
        exact hwithin.ge
    | scan ready i | scanMark ready i read | test ready | write start fin =>
        rw [hflusher] at hwithin
        exact hwithin.1.ge
    | writeRest start fin =>
        rw [hflusher] at hwithin
        rw [hwithin.1, hwithin.2.1]
        exact Nat.le_add_right _ _
    | persist fin =>
        rw [hflusher] at hwithin
        rw [hwithin.1]
        exact hwithin.2.1
  length_eq := by
    intro hquiet
    have hwithin := h.extent.within
    cases hflusher : s.flusher with
    | idle | readLsn | failed =>
        rw [hflusher] at hwithin
        exact hwithin
    | scan ready i | scanMark ready i read | test ready | write start fin =>
        rw [hflusher] at hwithin
        exact hwithin.1
    | writeRest start fin | persist fin =>
        rw [hflusher] at hquiet
        exact absurd trivial hquiet
  file := h.filed

/-- The entries started by an action are ones callers may log. -/
def FitsAction (cfg : LogConfig) : Action cfg → Prop
  | .logTxn _ entry => Fits cfg entry
  | .work _ | .tryFlush | .flush _ => True

instance (cfg : LogConfig) (a : Action cfg) : Decidable (FitsAction cfg a) :=
  match a with
  | .logTxn _ entry => inferInstanceAs (Decidable (Fits cfg entry))
  | .work _ | .tryFlush | .flush _ => .isTrue trivial

theorem Inv.step {a : Action cfg} (h : Inv s) (hmeet : FitsAction cfg a ∧ Timely s a)
    (hstep : s.step true a = some s') : Inv s' ∧ s.persistentLsn ≤ s'.persistentLsn := by
  cases a with
  | logTxn t entry =>
      simp only [Logger.step] at hstep
      split at hstep
      · rename_i hidle
        cases hstep
        exact ⟨h.logTxn hmeet.1 hidle, Nat.le_refl _⟩
      · cases hstep
  | work t =>
      obtain ⟨-, hpersistent, -, -⟩ := work_frame hstep
      exact ⟨h.work hmeet.2 hstep, hpersistent.ge⟩
  | tryFlush =>
      simp only [Logger.step] at hstep
      split at hstep
      · rename_i hidle
        cases hstep
        exact ⟨h.tryFlush hidle, Nat.le_refl _⟩
      · cases hstep
  | flush late => exact ⟨h.flush hstep, h.extent.persistent_mono hstep⟩

/-- In every run in which no marker is published behind the flusher, every state is safe and
    `*_persistent_lsn` never decreases. -/
theorem flush_safe_of_timely {buffer : Nat → Byte} {as : List (Action cfg)}
    (hfits : ∀ a ∈ as, FitsAction cfg a)
    (hmeet : AllSteps (Logger.step true) Timely (Logger.init buffer) as)
    (hrun : runs (Logger.step true) (Logger.init buffer) as = some s) :
    Safe s ∧ ∀ n s₁, runs (Logger.step true) (Logger.init buffer) (as.take n) = some s₁ →
      s₁.persistentLsn ≤ s.persistentLsn := by
  have hall : AllSteps (Logger.step true) (fun s a => FitsAction cfg a ∧ Timely s a)
      (Logger.init buffer) as := allSteps_and.mpr ⟨allSteps_of_forall (fun _ => hfits) _, hmeet⟩
  have hsafe : ∀ {bs : List (Action cfg)} {s₁ s₂ : Logger cfg}, Inv s₁ →
      AllSteps (Logger.step true) (fun s a => FitsAction cfg a ∧ Timely s a) s₁ bs →
      runs (Logger.step true) s₁ bs = some s₂ →
      Inv s₂ ∧ s₁.persistentLsn ≤ s₂.persistentLsn := by
    intro bs s₁ s₂ hinv
    refine runs_invariant (P := fun s => Inv s ∧ s₁.persistentLsn ≤ s.persistentLsn) ?_
      ⟨hinv, Nat.le_refl _⟩
    intro s a s' h hc hstep
    obtain ⟨hinv', hmono⟩ := h.1.step hc hstep
    exact ⟨hinv', h.2.trans hmono⟩
  refine ⟨(hsafe (Inv.init buffer) hall hrun).1.safe, fun n s₁ hs₁ => ?_⟩
  rw [← List.take_append_drop n as] at hall hrun
  obtain ⟨hbefore, hafter⟩ := (allSteps_append _ _).mp hall
  rw [runs_append, hs₁, Option.bind_some] at hrun
  exact (hsafe (hsafe (Inv.init buffer) hbefore hs₁).1 (hafter s₁ hs₁) hrun).2

/-- Two threads, a buffer of two blocks, and entries of at most 64 bytes. -/
def smallLog : LogConfig where
  logBufferSize := 1024
  maxLogEntrySize := 64
  threadCnt := 2
  flushBlocksize := 512
  buffer_aligned := by decide
  block_aligned := by decide
  block_pos := by decide
  block_lt := by decide
  entry_le := by decide
  reserve_lt := by decide
  reserve_le := by decide

/-- So many calls of one thread. -/
def calls (t : Fin cfg.threadCnt) (n : Nat) : List (Action cfg) :=
  (List.replicate n (call t [0xef, 0xbe] 7)).flatten

/-- After eight entries of thread `t` thread `u` publishes its marker; `tryFlush` writes the block
    before it. -/
def markedBlock (t u : Fin cfg.threadCnt) : List (Action cfg) :=
  calls t 8 ++ call u [0xef, 0xbe] 4 ++ calls t 1 ++ .tryFlush :: List.replicate 8 (.flush false)

/-- Then thread `u` enters its entry, and the next block is written up to the end of the buffer. -/
def twoBlocks (t u : Fin cfg.threadCnt) : List (Action cfg) :=
  markedBlock t u ++ .flush false :: List.replicate 3 (.work u) ++ calls t 7 ++
    .tryFlush :: List.replicate 10 (.flush false)

def smallFirst : Fin smallLog.threadCnt := ⟨0, by decide⟩

def smallSecond : Fin smallLog.threadCnt := ⟨1, by decide⟩

theorem flush_safe_of_timely_two_blocks :
    (∃ s : Logger smallLog, runs (Logger.step true) (Logger.init fun _ => 0)
        (markedBlock smallFirst smallSecond) = some s ∧ s.flusher = .persist 512 ∧
      s.file.length = 512 ∧ s.allocateLsn smallSecond = 512 ∧ Safe s) ∧
    ∃ s : Logger smallLog, runs (Logger.step true) (Logger.init fun _ => 0)
        (twoBlocks smallFirst smallSecond) = some s ∧ s.flusher = .idle ∧
      s.persistentLsn = 1024 ∧ Safe s := by
  constructor
  · have hsome : ((runs (Logger.step true) (Logger.init fun _ => 0 : Logger smallLog)
        (markedBlock smallFirst smallSecond)).map fun s =>
          (s.flusher, s.file.length, s.allocateLsn smallSecond)) =
        some (.persist 512, 512, 512) := by
      decide +kernel
    obtain ⟨s, hrun, hs⟩ := Option.map_eq_some_iff.mp hsome
    obtain ⟨hflusher, hs⟩ := Prod.mk.inj hs
    obtain ⟨hfile, hmark⟩ := Prod.mk.inj hs
    refine ⟨s, hrun, hflusher, hfile, hmark, (flush_safe_of_timely ?_ ?_ hrun).1⟩
    · decide
    · decide +kernel
  · have hsome : ((runs (Logger.step true) (Logger.init fun _ => 0 : Logger smallLog)
        (twoBlocks smallFirst smallSecond)).map fun s => (s.flusher, s.persistentLsn)) =
        some (.idle, 1024) := by
      decide +kernel
    obtain ⟨s, hrun, hs⟩ := Option.map_eq_some_iff.mp hsome
    obtain ⟨hflusher, hpersistent⟩ := Prod.mk.inj hs
    refine ⟨s, hrun, hflusher, hpersistent, (flush_safe_of_timely ?_ ?_ hrun).1⟩
    · decide +kernel
    · decide +kernel

/-! ### A marker that comes late -/

/-- A call of `logTxn` without another step in between. -/
theorem call_alone {entry : List Byte} (hidle : s.workers t = .idle)
    (hhead : entry.head? ≠ some 0x7f)
    (hroom : full cfg s.lsn entry.length s.persistentLsn = false)
    (hfits : wraps cfg s.lsn entry.length = false) :
    ∃ s', runs (Logger.step true) s (call t entry 7) = some s' ∧
      s'.lsn = s.lsn + aligned entry.length ∧ s'.persistentLsn = s.persistentLsn ∧
      s'.flusher = s.flusher ∧ s'.workers = s.workers ∧
      s'.filledLsn = Function.update s.filledLsn t (s.lsn + aligned entry.length) ∧
      s'.allocateLsn = Function.update s.allocateLsn t s.lsn := by
  refine ⟨{ s with
    lsn := s.lsn + aligned entry.length
    filledLsn := Function.update s.filledLsn t (s.lsn + aligned entry.length)
    allocateLsn := Function.update s.allocateLsn t s.lsn
    buffer := Ring.put s.buffer (s.lsn % cfg.logBufferSize) entry
    granted := s.granted ++ [(s.lsn, entry)] }, ?_, rfl, rfl, rfl, rfl, rfl, rfl⟩
  have hback : Function.update s.workers t .idle = s.workers := by
    rw [← hidle, Function.update_eq_self]
  simp [call, List.replicate, runs, Logger.step, Logger.work, Logger.goto, hidle, hhead, hroom,
    hfits, firstBlock, hback]

/-- `tryFlush` up to its comparison with `*_persistent_lsn`. -/
theorem scan_alone {s : Logger twoThreads} (hidle : s.flusher = .idle) {mid ready : Nat}
    (hmid : mid = if s.filledLsn first ≤ s.allocateLsn first ∧ s.allocateLsn first < s.lsn then
      s.allocateLsn first else s.lsn)
    (hready : ready = if s.filledLsn second ≤ s.allocateLsn second ∧ s.allocateLsn second < mid then
      s.allocateLsn second else mid) :
    runs (Logger.step true) s (.tryFlush :: List.replicate 6 (.flush false)) =
      some { s with flusher := .test ready } := by
  have hcnt : twoThreads.threadCnt = 2 := rfl
  rw [hready, hmid]
  simp [List.replicate, runs, Logger.step, Logger.flush, hidle, hcnt, first, second]
  rfl

/-- 16384 zero bytes: a 64th of a block. -/
def page : List Byte := List.replicate 16384 0

theorem length_page : page.length = 16384 := List.length_replicate

theorem fits_page : Fits twoThreads page := by
  refine ⟨?_, ?_⟩
  · decide
  · rw [length_page]
    decide

/-- The second thread has read its marker at position 0; the first one logs `n` pages. -/
structure Pages (n : Nat) (s : Logger twoThreads) : Prop where
  lsn : s.lsn = n * 16384
  persistent : s.persistentLsn = 0
  flusher : s.flusher = .idle
  firstIdle : s.workers first = .idle
  secondMark : s.workers second = .writeMark page 0
  firstFilled : s.allocateLsn first < s.filledLsn first ∨ s.lsn ≤ s.allocateLsn first
  secondFilled : s.filledLsn second = 0
  secondAllocate : s.allocateLsn second = 2 ^ 64 - 1

theorem first_ne_second : first ≠ second := by decide

theorem pages_run (n : Nat) (hn : n ≤ 64) :
    ∃ as s, (∀ a ∈ as, FitsAction twoThreads a) ∧
      runs (Logger.step true) (Logger.init fun _ => 0) as = some s ∧ Pages n s := by
  induction n with
  | zero =>
      refine ⟨call second page 3,
        (Logger.init fun _ => 0).goto second (.writeMark page 0), ?_, ?_, ?_⟩
      · intro a ha
        rcases List.mem_cons.mp ha with rfl | ha
        · exact fits_page
        · rw [List.eq_of_mem_replicate ha]
          trivial
      · have hroom : full twoThreads 0 page.length 0 = false := by
          rw [length_page]
          decide
        simp [call, List.replicate, runs, Logger.step, Logger.work, Logger.goto, Logger.init,
          fits_page.1, hroom]
      · refine ⟨rfl, rfl, rfl, ?_, ?_, .inr (Nat.zero_le _), rfl, rfl⟩
        · exact Logger.goto_of_ne first_ne_second
        · exact Logger.goto_self ..
  | succ n ih =>
      obtain ⟨as, s, hfits, hrun, hpages⟩ := ih (by omega)
      have hroom : full twoThreads s.lsn page.length s.persistentLsn = false := by
        rw [length_page, hpages.lsn, hpages.persistent]
        simp only [full, LogConfig.default, decide_eq_false_iff_not]
        omega
      have hwraps : wraps twoThreads s.lsn page.length = false := by
        rw [length_page, hpages.lsn]
        simp only [wraps, LogConfig.default, decide_eq_false_iff_not]
        omega
      obtain ⟨s', hcall, hlsn, hpersistent, hflusher, hworkers, hfilled, hallocate⟩ :=
        call_alone hpages.firstIdle fits_page.1 hroom hwraps
      refine ⟨as ++ call first page 7, s', ?_, ?_, ?_⟩
      · intro a ha
        rcases List.mem_append.mp ha with ha | ha
        · exact hfits a ha
        · rcases List.mem_cons.mp ha with rfl | ha
          · exact fits_page
          · rw [List.eq_of_mem_replicate ha]
            trivial
      · rw [runs_append, hrun, Option.bind_some, hcall]
      · have haligned : aligned page.length = 16384 := by
          rw [length_page]
          decide
        constructor
        · rw [hlsn, hpages.lsn, haligned]
          omega
        · rw [hpersistent, hpages.persistent]
        · rw [hflusher, hpages.flusher]
        · rw [hworkers, hpages.firstIdle]
        · rw [hworkers, hpages.secondMark]
        · left
          rw [hfilled, hallocate, Function.update_self, Function.update_self, haligned]
          omega
        · rw [hfilled, Function.update_of_ne first_ne_second.symm, hpages.secondFilled]
        · rw [hallocate, Function.update_of_ne first_ne_second.symm, hpages.secondAllocate]

/-- The second thread reads its marker; the first one logs a whole block, which is flushed; then
    the second one publishes its marker, and the next `tryFlush` fails its assertion. -/
theorem late_marker_fails :
    ¬ ∀ (as : List (Action twoThreads)) (s : Logger twoThreads),
      (∀ a ∈ as, FitsAction twoThreads a) →
      runs (Logger.step true) (Logger.init fun _ => 0) as = some s → Safe s := by
  intro h
  obtain ⟨as, s, hfits, hrun, hpages⟩ := pages_run 64 (Nat.le_refl _)
  have hlsn : s.lsn = 1048576 := hpages.lsn
  have hmid : s.lsn = if s.filledLsn first ≤ s.allocateLsn first ∧ s.allocateLsn first < s.lsn then
      s.allocateLsn first else s.lsn := by
    have := hpages.firstFilled
    rw [if_neg (by omega)]
  have hscan : runs (Logger.step true) s (.tryFlush :: List.replicate 6 (.flush false)) =
      some { s with flusher := .test s.lsn } := by
    refine scan_alone hpages.flusher hmid ?_
    rw [hpages.secondAllocate, if_neg (by omega)]
  -- it writes the block, and the late marker appears
  obtain ⟨s₁, hflush, hlsn₁, hpersistent₁, hidle₁, hfilled₁, hallocate₁⟩ : ∃ s₁,
      runs (Logger.step true) { s with flusher := .test s.lsn }
        (List.replicate 3 (.flush false) ++ [.work second]) = some s₁ ∧
      s₁.lsn = s.lsn ∧ s₁.persistentLsn = 1048576 ∧ s₁.flusher = .idle ∧
      s₁.filledLsn = s.filledLsn ∧
      s₁.allocateLsn = Function.update s.allocateLsn second 0 := by
    refine ⟨{ s.goto second (.alloc page) with
      persistentLsn := 1048576
      file := s.file ++ Ring.get s.buffer 0 1048576
      flusher := .idle
      allocateLsn := Function.update s.allocateLsn second 0 }, ?_, rfl, rfl, rfl, rfl, rfl⟩
    simp [List.replicate, runs, Logger.step, Logger.flush, Logger.work, flushEnd, sub64, hlsn,
      hpages.persistent, hpages.secondMark, LogConfig.default, Logger.goto]
  -- the second flush takes the marker for its end
  have hscan₁ : runs (Logger.step true) s₁ (.tryFlush :: List.replicate 6 (.flush false)) =
      some { s₁ with flusher := .test 0 } := by
    have hmid₁ : s.lsn = if s₁.filledLsn first ≤ s₁.allocateLsn first ∧
        s₁.allocateLsn first < s₁.lsn then s₁.allocateLsn first else s₁.lsn := by
      rw [hfilled₁, hallocate₁, hlsn₁, Function.update_of_ne first_ne_second]
      exact hmid
    refine scan_alone hidle₁ hmid₁ ?_
    rw [hfilled₁, hallocate₁, Function.update_self, hpages.secondFilled, if_pos (by omega)]
  have hfail : (Logger.step true) { s₁ with flusher := .test 0 } (.flush false) =
      some { s₁ with flusher := .failed } := by
    simp [Logger.step, Logger.flush, sub64, hpersistent₁, LogConfig.default]
  have hall := runs_snoc (show runs (Logger.step true) (Logger.init fun _ => 0)
    (as ++ (.tryFlush :: List.replicate 6 (.flush false)) ++
      (List.replicate 3 (.flush false) ++ [.work second]) ++
      (.tryFlush :: List.replicate 6 (.flush false))) = some { s₁ with flusher := .test 0 } by
    rw [runs_append, runs_append, runs_append, hrun, Option.bind_some, hscan, Option.bind_some,
      hflush, Option.bind_some, hscan₁]) hfail
  refine (h _ _ ?_ hall).assertions rfl
  intro a ha
  simp only [List.mem_append] at ha
  rcases ha with (((ha | ha) | (ha | ha)) | ha) | ha
  · exact hfits a ha
  all_goals
    revert a
    decide

end VeriTxn.LogBuffer
