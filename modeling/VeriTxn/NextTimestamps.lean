import VeriTxn.Timestamps
import VeriTxn.Transition
import Mathlib.Logic.Function.Basic
import Mathlib.Tactic.Ring

/-!
# Timestamps of several threads

Calls of `thread_t::get_next_ts` by any number of threads, with `TS_CAS`.  The only step that the
threads share is the addition to the counter of the manager; with batches it reserves a range of
values for the thread, which ends before the next multiple of the batch size.
-/

namespace VeriTxn.NextTs

open Transition

/-- Where a thread is in `get_next_ts`: outside, before `get_ts`, or behind it with the time. -/
inductive Call where
  | idle
  | drawing
  | drawn (time : Nat)
deriving DecidableEq

/-- The counter, `_curr_ts` of each thread, its call, and the values returned so far with the
    threads that got them, the last one first. -/
structure Sys (T : Type) where
  timestamp : Nat
  currTs : T → Nat
  call : T → Call
  returned : List (T × Nat)

inductive Action (T : Type) where
  | enter (t : T)
  | getTs (t : T) (now : Nat)
  | leave (t : T)

section

variable {T : Type} [DecidableEq T]

def Sys.init : Sys T := ⟨initialTimestamp, fun _ => 0, fun _ => .idle, []⟩

/-- `return _curr_ts - 1` with batches, `return _curr_ts` without. -/
def Sys.ret (s : Sys T) (t : T) (currTs value : Nat) : Sys T :=
  { s with
    currTs := Function.update s.currTs t currTs
    call := Function.update s.call t .idle
    returned := (t, value) :: s.returned }

/-- A step of `get_next_ts`. -/
def step (cfg : TsConfig) (thdId : T → Nat) (s : Sys T) : Action T → Option (Sys T)
  | .enter t =>
      if s.call t ≠ .idle then none
      else if cfg.batchAlloc = true ∧ s.currTs t % cfg.batchNum ≠ 0 then
        let currTs := wrap64 (s.currTs t + 1)
        some (s.ret t currTs (wrap64 (currTs + (2 ^ 64 - 1))))
      else some { s with call := Function.update s.call t .drawing }
  | .getTs t now =>
      if s.call t ≠ .drawing then none
      else (Manager.getTs cfg now (thdId t) s.timestamp).map fun (time, timestamp) =>
        { s with timestamp := timestamp, call := Function.update s.call t (.drawn time) }
  | .leave t =>
      match s.call t with
      | .drawn time =>
          if cfg.batchAlloc then
            let currTs := wrap64 (time + 1)
            some (s.ret t currTs (wrap64 (currTs + (2 ^ 64 - 1))))
          else some (s.ret t time time)
      | _ => none

/-- A call without steps of other threads in between is `getNextTs`. -/
theorem call_alone (cfg : TsConfig) (thdId : T → Nat) (s : Sys T) (t : T) (now : Nat)
    (hidle : s.call t = .idle) :
    (if cfg.batchAlloc = true ∧ s.currTs t % cfg.batchNum ≠ 0 then
      step cfg thdId s (.enter t)
    else runs (step cfg thdId) s [.enter t, .getTs t now, .leave t]) =
      (getNextTs cfg now (thdId t) (s.currTs t) s.timestamp).map fun (value, currTs, timestamp) =>
        { s.ret t currTs value with timestamp := timestamp } := by
  rw [getNextTs]
  by_cases hbatch : cfg.batchAlloc = true
  · by_cases hmod : s.currTs t % cfg.batchNum = 0
    · rw [if_neg (by simp [hmod]), if_pos hbatch, if_pos hmod, runs_cons, step,
        if_neg (by simp [hidle]), if_neg (by simp [hmod]), Option.bind_some, runs_cons, step,
        if_neg (by simp)]
      cases Manager.getTs cfg now (thdId t) s.timestamp with
      | none => rfl
      | some drawn =>
          rw [Option.map_some, Option.bind_some, runs_cons, step]
          simp [hbatch, Sys.ret]
    · rw [if_pos ⟨hbatch, hmod⟩, if_pos hbatch, if_neg hmod, step, if_neg (by simp [hidle]),
        if_pos ⟨hbatch, hmod⟩]
      rfl
  · rw [if_neg (by simp [hbatch]), if_neg hbatch, runs_cons, step, if_neg (by simp [hidle]),
      if_neg (by simp [hbatch]), Option.bind_some, runs_cons, step, if_neg (by simp)]
    cases Manager.getTs cfg now (thdId t) s.timestamp with
    | none => rfl
    | some drawn =>
        rw [Option.map_some, Option.bind_some, runs_cons, step]
        simp [hbatch, Sys.ret]

/-! ### Ranges of values -/

/-- What `get_ts` adds to the counter. -/
def stride (cfg : TsConfig) : Nat := if cfg.batchAlloc then cfg.batchNum else 1

/-- The counter does not overflow. -/
def NoOverflow (cfg : TsConfig) (s : Sys T) : Action T → Prop
  | .getTs _ _ => s.timestamp + stride cfg < 2 ^ 64
  | _ => True

instance (cfg : TsConfig) (s : Sys T) : ∀ a, Decidable (NoOverflow cfg s a)
  | .enter _ => .isTrue trivial
  | .getTs _ _ => inferInstanceAs (Decidable (_ < _))
  | .leave _ => .isTrue trivial

/-- The value that the thread returns next without another `get_ts`. -/
def Sys.next (cfg : TsConfig) (s : Sys T) (t : T) : Option Nat :=
  match s.call t with
  | .drawn time => some time
  | _ => if cfg.batchAlloc = true ∧ s.currTs t % cfg.batchNum ≠ 0 then some (s.currTs t) else none

/-- The range that a value belongs to. -/
def range (cfg : TsConfig) (value : Nat) : Nat := (value - 1) / stride cfg

/-- Every range belongs to one thread, which has returned the values of it in order. -/
structure Inv (cfg : TsConfig) (s : Sys T) : Prop where
  counter : ∃ k, s.timestamp = 1 + k * stride cfg
  fits : s.timestamp < 2 ^ 64
  reserved : ∀ t n, s.next cfg t = some n →
    (1 ≤ n ∧ n < s.timestamp) ∧ (stride cfg = 1 ∨ n % stride cfg ≠ 0)
  apart : ∀ t t' n n', s.next cfg t = some n → s.next cfg t' = some n' →
    range cfg n = range cfg n' → t = t'
  used : ∀ p ∈ s.returned, p.2 < s.timestamp
  below : ∀ t n, s.next cfg t = some n → ∀ p ∈ s.returned,
    p.1 = t ∨ range cfg p.2 = range cfg n → p.2 < n
  distinct : (s.returned.map Prod.snd).Nodup
  rising : ∀ t, ((s.returned.filter (·.1 = t)).map Prod.snd).Pairwise (· > ·)
  drawing : ∀ t, s.call t = .drawing → s.next cfg t = none

variable {cfg : TsConfig} {s : Sys T} {t : T} {n : Nat}

theorem inv_init (cfg : TsConfig) : Inv cfg (Sys.init : Sys T) := by
  have hnext : ∀ t : T, (Sys.init : Sys T).next cfg t = none := by
    intro t
    simp [Sys.next, Sys.init]
  constructor
  · exact ⟨0, by simp [Sys.init, initialTimestamp]⟩
  · simp [Sys.init, initialTimestamp]
  · intro t n h
    rw [hnext] at h
    cases h
  · intro t t' n n' h
    rw [hnext] at h
    cases h
  · simp [Sys.init]
  · simp [Sys.init]
  · simp [Sys.init]
  · simp [Sys.init]
  · intro t _
    exact hnext t

theorem next_of_ne (c : Call) {u : T} (hu : u ≠ t) (currTs : Nat) (timestamp : Nat)
    (returned : List (T × Nat)) :
    Sys.next cfg ⟨timestamp, Function.update s.currTs t currTs, Function.update s.call t c, returned⟩
      u = s.next cfg u := by
  simp only [Sys.next, Function.update_of_ne hu]

/-- The value after one that is not the last of its range is in the same range. -/
theorem range_succ (hpos : 1 ≤ n) (h : n % stride cfg ≠ 0) : range cfg (n + 1) = range cfg n := by
  obtain ⟨m, rfl⟩ := Nat.exists_eq_add_of_le' hpos
  rw [range, range, Nat.add_sub_cancel, Nat.add_sub_cancel]
  exact Nat.succ_div_of_not_dvd fun hdvd => h (Nat.mod_eq_zero_of_dvd hdvd)

/-- A thread returns its next value and keeps the rest of the range, if there is one. -/
theorem Inv.ret (h : Inv cfg s) (hnext : s.next cfg t = some n) (currTs : Nat)
    (hafter : (s.ret t currTs n).next cfg t = none ∨
      (s.ret t currTs n).next cfg t = some (n + 1) ∧ n % stride cfg ≠ 0 ∧
        (n + 1) % stride cfg ≠ 0) : Inv cfg (s.ret t currTs n) := by
  obtain ⟨⟨hpos, hlt⟩, -⟩ := h.reserved t n hnext
  have hother : ∀ u, u ≠ t → (s.ret t currTs n).next cfg u = s.next cfg u := by
    intro u hu
    exact next_of_ne .idle hu currTs _ _
  -- the thread that owns a range still owns it, with the same value or the one after
  have hold : ∀ u m, (s.ret t currTs n).next cfg u = some m →
      u ≠ t ∧ s.next cfg u = some m ∨
        u = t ∧ m = n + 1 ∧ n % stride cfg ≠ 0 ∧ (n + 1) % stride cfg ≠ 0 := by
    intro u m hm
    by_cases hu : u = t
    · subst hu
      rcases hafter with hnone | ⟨hsome, hmods⟩
      · rw [hnone] at hm
        cases hm
      · rw [hsome, Option.some.injEq] at hm
        exact Or.inr ⟨rfl, hm.symm, hmods⟩
    · rw [hother u hu] at hm
      exact Or.inl ⟨hu, hm⟩
  have hfound : ∀ u m, (s.ret t currTs n).next cfg u = some m →
      ∃ m', s.next cfg u = some m' ∧ range cfg m' = range cfg m ∧ m' ≤ m := by
    intro u m hm
    rcases hold u m hm with ⟨-, hm⟩ | ⟨rfl, rfl, hmod, -⟩
    · exact ⟨m, hm, rfl, le_rfl⟩
    · exact ⟨n, hnext, (range_succ hpos hmod).symm, Nat.le_succ n⟩
  have hnew : ∀ p ∈ s.returned, p.2 ≠ n := by
    intro p hp heq
    have := h.below t n hnext p hp (Or.inr (by rw [heq]))
    omega
  constructor
  · exact h.counter
  · exact h.fits
  · intro u m hm
    rcases hold u m hm with ⟨-, hm⟩ | ⟨rfl, rfl, hmod, hmod'⟩
    · exact h.reserved u m hm
    · refine ⟨⟨by omega, ?_⟩, Or.inr hmod'⟩
      -- the counter stands behind a multiple of the stride
      obtain ⟨k, hk⟩ := h.counter
      have hne : n ≠ k * stride cfg := fun heq => hmod (by rw [heq, Nat.mul_mod_left])
      change n + 1 < s.timestamp
      omega
  · intro u u' m m' hm hm' hrange
    obtain ⟨l, hl, hlm, -⟩ := hfound u m hm
    obtain ⟨l', hl', hlm', -⟩ := hfound u' m' hm'
    exact h.apart u u' l l' hl hl' (hlm.trans (hrange.trans hlm'.symm))
  · intro p hp
    rcases List.mem_cons.mp hp with rfl | hp
    · exact hlt
    · exact h.used p hp
  · intro u m hm p hp hcase
    rcases List.mem_cons.mp hp with rfl | hp
    · rcases hold u m hm with ⟨hu, hm⟩ | ⟨-, rfl, -, -⟩
      · rcases hcase with rfl | hrange
        · exact absurd rfl hu
        · exact absurd (h.apart u t m n hm hnext hrange.symm) hu
      · exact Nat.lt_succ_self n
    · obtain ⟨m', hm', hrange', hle⟩ := hfound u m hm
      rw [← hrange'] at hcase
      exact Nat.lt_of_lt_of_le (h.below u m' hm' p hp hcase) hle
  · refine List.nodup_cons.mpr ⟨?_, h.distinct⟩
    intro hmem
    obtain ⟨p, hp, heq⟩ := List.mem_map.mp hmem
    exact hnew p hp heq
  · intro u
    by_cases hu : t = u
    · subst hu
      rw [Sys.ret, List.filter_cons_of_pos (by simp), List.map_cons]
      refine List.pairwise_cons.mpr ⟨?_, h.rising t⟩
      intro v hv
      obtain ⟨p, hp, rfl⟩ := List.mem_map.mp hv
      obtain ⟨hp, hown⟩ := List.mem_filter.mp hp
      exact h.below t n hnext p hp (Or.inl (of_decide_eq_true hown))
    · rw [Sys.ret, List.filter_cons_of_neg (by simpa using hu)]
      exact h.rising u
  · intro u hdraw
    by_cases hu : u = t
    · subst hu
      simp [Sys.ret] at hdraw
    · rw [hother u hu]
      refine h.drawing u ?_
      simpa only [Sys.ret, Function.update_of_ne hu] using hdraw

/-! ### Steps -/

theorem stride_pos (hsize : cfg.batchAlloc = true → 1 ≤ cfg.batchNum) : 1 ≤ stride cfg := by
  rw [stride]
  split
  · exact hsize (by assumption)
  · exact le_rfl

theorem getTs_cas (hcas : cfg.alloc = .cas) (now threadId timestamp : Nat)
    (hfit : timestamp + stride cfg < 2 ^ 64) :
    Manager.getTs cfg now threadId timestamp = some (timestamp, timestamp + stride cfg) := by
  rw [Manager.getTs, drawTs, if_neg (by simp [hcas]), hcas]
  simp only [← stride.eq_1, wrap64, Nat.mod_eq_of_lt hfit]

/-- `_curr_ts - 1` is the value that `_curr_ts` had before the addition. -/
theorem wrap64_pred (h : n + 1 < 2 ^ 64) :
    wrap64 (n + 1) = n + 1 ∧ wrap64 (wrap64 (n + 1) + (2 ^ 64 - 1)) = n := by
  have hone : wrap64 (n + 1) = n + 1 := Nat.mod_eq_of_lt h
  refine ⟨hone, ?_⟩
  rw [hone, wrap64]
  omega

/-- With batches the thread goes on behind the value, up to the next multiple of the size. -/
theorem Inv.retBatch (h : Inv cfg s) (hbatch : cfg.batchAlloc = true)
    (hnext : s.next cfg t = some n) :
    Inv cfg (s.ret t (wrap64 (n + 1)) (wrap64 (wrap64 (n + 1) + (2 ^ 64 - 1)))) := by
  obtain ⟨⟨hpos, hlt⟩, hmod⟩ := h.reserved t n hnext
  have hfits := h.fits
  obtain ⟨hone, hback⟩ := wrap64_pred (n := n) (by omega)
  rw [hback, hone]
  refine h.ret hnext (n + 1) ?_
  have hstride : stride cfg = cfg.batchNum := by rw [stride, if_pos hbatch]
  rw [Sys.next]
  simp only [Sys.ret, Function.update_self]
  by_cases hlast : (n + 1) % cfg.batchNum = 0
  · left
    rw [if_neg (by simp [hlast])]
  · right
    rw [if_pos ⟨hbatch, hlast⟩, hstride]
    refine ⟨rfl, ?_, hlast⟩
    rcases hmod with hone | hmod
    · rw [← hstride, hone, Nat.mod_one] at hlast
      exact absurd rfl hlast
    · rwa [← hstride]

theorem Inv.enter (h : Inv cfg s) (thdId : T → Nat) {s' : Sys T}
    (hstep : step cfg thdId s (.enter t) = some s') : Inv cfg s' := by
  rw [step] at hstep
  split at hstep
  · cases hstep
  rename_i hidle
  rw [not_not] at hidle
  split at hstep
  · rename_i hmid
    cases hstep
    refine h.retBatch hmid.1 ?_
    rw [Sys.next, hidle]
    exact if_pos hmid
  · rename_i hmid
    cases hstep
    have hnext : ∀ u, Sys.next cfg { s with call := Function.update s.call t .drawing } u =
        s.next cfg u := by
      intro u
      by_cases hu : u = t
      · subst hu
        simp only [Sys.next, Function.update_self, hidle]
      · simp only [Sys.next, Function.update_of_ne hu]
    refine ⟨h.counter, h.fits, ?_, ?_, h.used, ?_, h.distinct, h.rising, ?_⟩
    · intro u m hm
      exact h.reserved u m ((hnext u).symm.trans hm)
    · intro u u' m m' hm hm'
      exact h.apart u u' m m' ((hnext u).symm.trans hm) ((hnext u').symm.trans hm')
    · intro u m hm
      exact h.below u m ((hnext u).symm.trans hm)
    · intro u hu
      rw [hnext u]
      by_cases hut : u = t
      · subst hut
        rw [Sys.next, hidle]
        exact if_neg hmid
      · exact h.drawing u (by simpa only [Function.update_of_ne hut] using hu)

/-- The range that `get_ts` reserves is behind all others. -/
theorem Inv.getTs (h : Inv cfg s) (hcas : cfg.alloc = .cas)
    (hsize : cfg.batchAlloc = true → 1 ≤ cfg.batchNum) (thdId : T → Nat) {now : Nat} {s' : Sys T}
    (hfit : s.timestamp + stride cfg < 2 ^ 64)
    (hstep : step cfg thdId s (.getTs t now) = some s') : Inv cfg s' := by
  rw [step] at hstep
  split at hstep
  · cases hstep
  rename_i hdraw
  rw [not_not] at hdraw
  rw [getTs_cas hcas _ _ _ hfit, Option.map_some, Option.some.injEq] at hstep
  subst hstep
  have hpos := stride_pos hsize
  obtain ⟨k, hk⟩ := h.counter
  have hrange : range cfg s.timestamp = k := by
    rw [range, hk, Nat.add_sub_cancel_left]
    exact Nat.mul_div_cancel k hpos
  have hlower : ∀ m, 1 ≤ m → m < s.timestamp → range cfg m < k := by
    intro m hm hlt
    rw [range, Nat.div_lt_iff_lt_mul hpos]
    omega
  have hown : Sys.next cfg ⟨s.timestamp + stride cfg, s.currTs,
      Function.update s.call t (.drawn s.timestamp), s.returned⟩ t = some s.timestamp := by
    simp only [Sys.next, Function.update_self]
  have hother : ∀ u, u ≠ t → Sys.next cfg ⟨s.timestamp + stride cfg, s.currTs,
      Function.update s.call t (.drawn s.timestamp), s.returned⟩ u = s.next cfg u := by
    intro u hu
    simp only [Sys.next, Function.update_of_ne hu]
  refine ⟨⟨k + 1, ?_⟩, hfit, ?_, ?_, ?_, ?_, h.distinct, h.rising, ?_⟩
  · simp only [hk]
    ring
  · intro u m hm
    by_cases hu : u = t
    · subst hu
      rw [hown, Option.some.injEq] at hm
      subst hm
      refine ⟨⟨by omega, Nat.lt_add_of_pos_right hpos⟩, ?_⟩
      by_cases hone : stride cfg = 1
      · exact Or.inl hone
      · right
        rw [hk, Nat.add_mul_mod_self_right, Nat.mod_eq_of_lt (by omega)]
        decide
    · rw [hother u hu] at hm
      obtain ⟨⟨hm₁, hm₂⟩, hmod⟩ := h.reserved u m hm
      exact ⟨⟨hm₁, hm₂.trans (Nat.lt_add_of_pos_right hpos)⟩, hmod⟩
  · intro u u' m m' hm hm' heq
    by_cases hu : u = t
    · by_cases hu' : u' = t
      · rw [hu, hu']
      · rw [hu, hown, Option.some.injEq] at hm
        rw [hother u' hu'] at hm'
        have hin := h.reserved u' m' hm'
        have := hlower m' hin.1.1 hin.1.2
        rw [← hm, hrange] at heq
        omega
    · rw [hother u hu] at hm
      by_cases hu' : u' = t
      · rw [hu', hown, Option.some.injEq] at hm'
        have hin := h.reserved u m hm
        have := hlower m hin.1.1 hin.1.2
        rw [← hm', hrange] at heq
        omega
      · rw [hother u' hu'] at hm'
        exact h.apart u u' m m' hm hm' heq
  · intro p hp
    exact (h.used p hp).trans (Nat.lt_add_of_pos_right hpos)
  · intro u m hm p hp hcase
    by_cases hu : u = t
    · rw [hu, hown, Option.some.injEq] at hm
      rw [← hm]
      exact h.used p hp
    · rw [hother u hu] at hm
      exact h.below u m hm p hp hcase
  · intro u hcall
    by_cases hu : u = t
    · simp [hu] at hcall
    · rw [hother u hu]
      exact h.drawing u (by simpa only [Function.update_of_ne hu] using hcall)

theorem Inv.leave (h : Inv cfg s) (thdId : T → Nat) {s' : Sys T}
    (hstep : step cfg thdId s (.leave t) = some s') : Inv cfg s' := by
  rw [step] at hstep
  split at hstep
  · rename_i time hcall
    have hnext : s.next cfg t = some time := by rw [Sys.next, hcall]
    split at hstep
    · rename_i hbatch
      cases hstep
      exact h.retBatch hbatch hnext
    · rename_i hbatch
      cases hstep
      refine h.ret hnext time (Or.inl ?_)
      simp only [Sys.next, Sys.ret, Function.update_self]
      exact if_neg (by simp [hbatch])
  · cases hstep

theorem inv_step (hcas : cfg.alloc = .cas) (hsize : cfg.batchAlloc = true → 1 ≤ cfg.batchNum)
    (thdId : T → Nat) {s s' : Sys T} {a : Action T} (h : Inv cfg s) (hfit : NoOverflow cfg s a)
    (hstep : step cfg thdId s a = some s') : Inv cfg s' := by
  cases a with
  | enter t => exact h.enter thdId hstep
  | getTs t now => exact h.getTs hcas hsize thdId hfit hstep
  | leave t => exact h.leave thdId hstep

/-- **The values returned to all threads are distinct, and those of a thread increase.**  The last
    value returned is the first of the list. -/
theorem timestamps_unique (cfg : TsConfig) (hcas : cfg.alloc = .cas)
    (hsize : cfg.batchAlloc = true → 1 ≤ cfg.batchNum) (thdId : T → Nat) {as : List (Action T)}
    {s : Sys T} (hfit : AllSteps (step cfg thdId) (NoOverflow cfg) Sys.init as)
    (hrun : runs (step cfg thdId) Sys.init as = some s) :
    (s.returned.map Prod.snd).Nodup ∧
      ∀ t, ((s.returned.filter (·.1 = t)).map Prod.snd).Pairwise (· > ·) := by
  have hinv := runs_invariant (P := Inv cfg)
    (fun _ _ _ h hfit hstep => inv_step hcas hsize thdId h hfit hstep) (inv_init cfg) hfit hrun
  exact ⟨hinv.distinct, hinv.rising⟩

end

/-- Two threads with batches of 3; the second value of thread 0 comes after the first of
    thread 1 and is smaller. -/
theorem timestamps_unique_two_threads :
    ∃ s, runs (step ⟨.cas, true, 3, 2⟩ Bool.toNat) Sys.init
        [.enter false, .enter true, .getTs false 0, .getTs true 0, .leave true, .leave false,
          .enter false] = some s ∧ s.returned.map Prod.snd = [2, 1, 4] ∧
      (s.returned.map Prod.snd).Nodup ∧
      ∀ t, ((s.returned.filter (·.1 = t)).map Prod.snd).Pairwise (· > ·) :=
  ⟨_, rfl, rfl, timestamps_unique ⟨.cas, true, 3, 2⟩ rfl (fun _ => by decide) Bool.toNat
    (by decide) (show runs _ _ [.enter false, .enter true, .getTs false 0, .getTs true 0,
      .leave true, .leave false, .enter false] = some _ from rfl)⟩

end VeriTxn.NextTs
