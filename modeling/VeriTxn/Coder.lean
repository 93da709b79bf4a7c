import VeriTxn.Braces
import VeriTxn.Transition
import Mathlib.Data.List.Induction
import Mathlib.Tactic.Common

/-!
# Lists of pairs as strings

`encode_vec` puts both strings of every pair in braces, and `decode_vec` reads them back
character by character: it counts the depth, collects what stands inside a field, and pairs the
fields up.  Rows, bucket nodes and buckets are encoded by nesting these lists.

The decoder's assertions do not look at everything.  A string may close more braces than it opened
and open them again, and a last field without a partner is found only if something stands in it.
-/

namespace VeriTxn.Coder

open Bytes Braces Transition

abbrev Str := List Byte

/-- `encode_vec` -/
def encodeVec : List (Str × Str) → Str
  | [] => []
  | t :: data => braced t.1 ++ braced t.2 ++ encodeVec data

/-- The variables of the loop of `decode_vec`. -/
structure Scan where
  depth : Int
  isFirst : Bool
  tmp : Str
  fi : Str
  vector : List (Str × Str)

def Scan.init : Scan := ⟨0, true, [], [], []⟩

/-- The end of a field. -/
def Scan.close (s : Scan) : Scan :=
  if s.isFirst then { s with fi := s.tmp, isFirst := false, tmp := [] }
  else { s with vector := s.vector ++ [(s.fi, s.tmp)], fi := [], isFirst := true, tmp := [] }

/-- One round of the loop, with the assertion at its end. -/
def Scan.step (s : Scan) (c : Byte) : Option Scan :=
  let s := if s.depth > 1 ∨ s.depth = 1 ∧ c ≠ rbrace then { s with tmp := s.tmp ++ [c] } else s
  let s := if s.depth = 1 ∧ c = rbrace then s.close else s
  let s :=
    if c = lbrace then { s with depth := s.depth + 1 }
    else if c = rbrace then { s with depth := s.depth - 1 }
    else s
  if s.depth = 0 ∧ ¬ (c = rbrace ∨ c = lbrace) then none else some s

/-- `int(e.size())` -/
def intSize (e : Str) : Int := Int.bmod e.length (2 ^ 32)

/-- `decode_vec`; `none` when an assertion fails. -/
def decodeVec (e : Str) : Option (List (Str × Str)) :=
  let n := intSize e
  if n = 0 then some []
  else if ¬ n > 1 then none
  else
    let read := e.take n.toNat
    if read.head? = some lbrace ∧ read.getLast? = some rbrace then
      match read.foldlM Scan.step Scan.init with
      | none => none
      | some s => if s.depth = 0 ∧ s.fi = [] then some s.vector else none
    else none

/-! ### One round -/

theorem Scan.step_inside {s : Scan} {c : Byte} (h : 1 ≤ s.depth) (hin : 1 ≤ s.depth + delta c) :
    s.step c = some { s with tmp := s.tmp ++ [c], depth := s.depth + delta c } := by
  have hnot : ¬ (s.depth = 1 ∧ c = rbrace) := by
    rintro ⟨hone, rfl⟩
    rw [delta_rbrace] at hin
    omega
  have hpush : s.depth > 1 ∨ s.depth = 1 ∧ c ≠ rbrace := by
    by_cases hone : s.depth = 1
    · exact Or.inr ⟨hone, fun hc => hnot ⟨hone, hc⟩⟩
    · exact Or.inl (by omega)
  unfold Scan.step
  simp only [if_pos hpush, if_neg hnot]
  by_cases hl : c = lbrace
  · subst hl
    simp
  · by_cases hr : c = rbrace
    · subst hr
      simp [Ne.symm lbrace_ne_rbrace, Int.sub_eq_add_neg]
    · have hzero : s.depth ≠ 0 := by omega
      simp [hl, hr, hzero, delta_of_ne hl hr]

theorem Scan.step_close {s : Scan} (h : s.depth = 1) :
    s.step rbrace = some { s.close with depth := 0 } := by
  have hpush : ¬ (s.depth > 1 ∨ s.depth = 1 ∧ rbrace ≠ rbrace) := by
    rintro (hgt | ⟨-, hne⟩)
    · omega
    · exact hne rfl
  have hdepth : s.close.depth = 1 := by
    unfold Scan.close
    split
    · exact h
    · exact h
  unfold Scan.step
  simp only [if_neg hpush]
  simp [Ne.symm lbrace_ne_rbrace, h, hdepth]

theorem Scan.step_outside {s : Scan} {c : Byte} (h : s.depth ≤ 0) :
    s.step c = if s.depth + delta c = 0 ∧ ¬ (c = rbrace ∨ c = lbrace) then none
      else some { s with depth := s.depth + delta c } := by
  have hpush : ¬ (s.depth > 1 ∨ s.depth = 1 ∧ c ≠ rbrace) := by omega
  have hclose : ¬ (s.depth = 1 ∧ c = rbrace) := by omega
  unfold Scan.step
  simp only [if_neg hpush, if_neg hclose]
  by_cases hl : c = lbrace
  · subst hl
    simp
  · by_cases hr : c = rbrace
    · subst hr
      simp [Ne.symm lbrace_ne_rbrace, Int.sub_eq_add_neg]
    · simp [hl, hr, delta_of_ne hl hr]

/-- A round is outside of the fields, inside of one, or at its end. -/
theorem Scan.step_cases (s : Scan) (c : Byte) :
    s.depth ≤ 0 ∨ (1 ≤ s.depth ∧ 1 ≤ s.depth + delta c) ∨ (s.depth = 1 ∧ c = rbrace) := by
  by_cases hout : s.depth ≤ 0
  · exact Or.inl hout
  · by_cases hin : 1 ≤ s.depth + delta c
    · exact Or.inr (Or.inl ⟨by omega, hin⟩)
    · have hr : c = rbrace := by
        by_contra hne
        have hdelta : 0 ≤ delta c := by
          unfold delta
          split
          · decide
          · exact Int.le_refl 0
        omega
      rw [hr, delta_rbrace] at hin
      exact Or.inr (Or.inr ⟨by omega, hr⟩)

/-! ### Round trip -/

/-- A string that stays inside its field is collected as it is. -/
theorem scan_inside {a : Str} {s : Scan} (h : ∀ n, 1 ≤ s.depth + Braces.depth (a.take n)) :
    a.foldlM Scan.step s =
      some { s with tmp := s.tmp ++ a, depth := s.depth + Braces.depth a } := by
  induction a generalizing s with
  | nil => simp
  | cons c a ih =>
      have hnow : 1 ≤ s.depth := by simpa using h 0
      have hnext : 1 ≤ s.depth + delta c := by simpa using h 1
      rw [List.foldlM_cons, Scan.step_inside hnow hnext]
      refine (ih fun n => ?_).trans ?_
      · have hlater := h (n + 1)
        rw [List.take_succ_cons, depth_cons, ← Int.add_assoc] at hlater
        exact hlater
      · simp [Int.add_assoc]

/-- A field is collected and closed. -/
theorem scan_braced {a : Str} (ha : Balanced a) {s : Scan} (hdepth : s.depth = 0)
    (htmp : s.tmp = []) :
    (braced a).foldlM Scan.step s = some (Scan.close { s with tmp := a }) := by
  have hopen : s.step lbrace = some { s with depth := 1 } := by
    rw [Scan.step_outside (by omega), hdepth]
    simp
  have hinside : a.foldlM Scan.step { s with depth := 1 } =
      some { s with depth := 1, tmp := a } := by
    rw [scan_inside fun n => by simpa using ha.above n]
    simp [htmp, ha.closed]
  rw [braced, List.foldlM_append, List.foldlM_cons, hopen]
  change (a.foldlM Scan.step { s with depth := 1 } >>= fun s => [rbrace].foldlM Scan.step s) = _
  rw [hinside]
  change [rbrace].foldlM Scan.step { s with depth := 1, tmp := a } = _
  rw [List.foldlM_cons, Scan.step_close rfl]
  unfold Scan.close
  cases s.isFirst with
  | true => simp [hdepth]
  | false => simp [hdepth]

theorem scan_encodeVec {data : List (Str × Str)}
    (hdata : ∀ t ∈ data, Balanced t.1 ∧ Balanced t.2) (vector : List (Str × Str)) :
    (encodeVec data).foldlM Scan.step ⟨0, true, [], [], vector⟩ =
      some ⟨0, true, [], [], vector ++ data⟩ := by
  induction data generalizing vector with
  | nil => simp [encodeVec]
  | cons t data ih =>
      obtain ⟨hfirst, hsecond⟩ := hdata t (List.mem_cons_self ..)
      rw [encodeVec, List.foldlM_append, List.foldlM_append, scan_braced hfirst rfl rfl]
      change ((braced t.2).foldlM Scan.step ⟨0, false, [], t.1, vector⟩ >>= fun s =>
        (encodeVec data).foldlM Scan.step s) = _
      rw [scan_braced hsecond rfl rfl]
      refine (ih (fun u hu => hdata u (List.mem_cons_of_mem t hu)) (vector ++ [t])).trans ?_
      rw [List.append_assoc]
      rfl

theorem balanced_encodeVec {data : List (Str × Str)}
    (h : ∀ t ∈ data, Balanced t.1 ∧ Balanced t.2) : Balanced (encodeVec data) := by
  induction data with
  | nil => exact balanced_nil
  | cons t data ih =>
      obtain ⟨hfirst, hsecond⟩ := h t (List.mem_cons_self ..)
      have hrest := ih fun u hu => h u (List.mem_cons_of_mem t hu)
      exact (hfirst.braced.append hsecond.braced).append hrest

theorem encodeVec_append (data data' : List (Str × Str)) :
    encodeVec (data ++ data') = encodeVec data ++ encodeVec data' := by
  induction data with
  | nil => rfl
  | cons t data ih => simp only [List.cons_append, encodeVec, ih, List.append_assoc]

/-- An encoding begins and ends with a brace. -/
theorem encodeVec_ends {data : List (Str × Str)} (h : data ≠ []) :
    (encodeVec data).head? = some lbrace ∧ (encodeVec data).getLast? = some rbrace := by
  constructor
  · cases data with
    | nil => exact absurd rfl h
    | cons t data => rfl
  · obtain ⟨front, t, rfl⟩ := List.eq_nil_or_concat data |>.resolve_left h
    have hlast : encodeVec (front.concat t) =
        (encodeVec front ++ braced t.1 ++ lbrace :: t.2) ++ [rbrace] := by
      simp [encodeVec_append, encodeVec, braced]
    rw [hlast, List.getLast?_concat]

theorem intSize_of_lt {e : Str} (h : e.length < 2 ^ 31) : intSize e = e.length := by
  refine Int.bmod_eq_of_le ?_ ?_
  · omega
  · omega

theorem decodeVec_of_short {e : Str} (hsize : e.length < 2 ^ 31) :
    decodeVec e =
      if e = [] then some []
      else if e.length ≤ 1 then none
      else if e.head? = some lbrace ∧ e.getLast? = some rbrace then
        match e.foldlM Scan.step Scan.init with
        | none => none
        | some s => if s.depth = 0 ∧ s.fi = [] then some s.vector else none
      else none := by
  have htake : e.take (intSize e).toNat = e := by
    rw [intSize_of_lt hsize, Int.toNat_natCast, List.take_length]
  have hzero : intSize e = 0 ↔ e = [] := by
    rw [intSize_of_lt hsize, Int.natCast_eq_zero, List.length_eq_zero_iff]
  have hone : (¬ intSize e > 1) ↔ e.length ≤ 1 := by
    rw [intSize_of_lt hsize]
    omega
  unfold decodeVec
  simp only [htake, hzero, hone]

theorem decodeVec_encodeVec {data : List (Str × Str)}
    (hdata : ∀ t ∈ data, Balanced t.1 ∧ Balanced t.2)
    (hsize : (encodeVec data).length < 2 ^ 31) : decodeVec (encodeVec data) = some data := by
  rw [decodeVec_of_short hsize]
  by_cases hnil : data = []
  · rw [hnil]
    rfl
  · obtain ⟨hhead, hlast⟩ := encodeVec_ends hnil
    have hlong : ¬ (encodeVec data).length ≤ 1 := by
      cases data with
      | nil => exact absurd rfl hnil
      | cons t data => simp [encodeVec, braced]
    have hne : encodeVec data ≠ [] := by
      intro heq
      rw [heq] at hlong
      exact hlong (Nat.zero_le 1)
    rw [if_neg hne, if_neg hlong, if_pos ⟨hhead, hlast⟩, Scan.init, scan_encodeVec hdata]
    rfl

/-- What was encoded is decoded, and encodings may be nested. -/
theorem decode_vec_encode_vec {data : List (Str × Str)}
    (hdata : ∀ t ∈ data, Balanced t.1 ∧ Balanced t.2)
    (hsize : (encodeVec data).length < 2 ^ 31) :
    decodeVec (encodeVec data) = some data ∧ Balanced (encodeVec data) :=
  ⟨decodeVec_encodeVec hdata hsize, balanced_encodeVec hdata⟩

/-- Two pairs, with an empty string and with braces. -/
def innerPairs : List (Str × Str) := [([97], [98]), ([], braced [99])]

/-- Three pairs with their encoding inside, at two depths. -/
def nestedPairs : List (Str × Str) :=
  [([107], encodeVec innerPairs), (encodeVec [([120], encodeVec innerPairs)], []), ([100], [101])]

theorem decode_vec_encode_vec_nested :
    decodeVec (encodeVec innerPairs) = some innerPairs ∧
      decodeVec (encodeVec nestedPairs) = some nestedPairs ∧ Balanced (encodeVec nestedPairs) := by
  have hchar : ∀ c : Byte, c ≠ lbrace → c ≠ rbrace → Balanced [c] := fun c hl hr =>
    balanced_of_all (by simp [hl, hr])
  have hinner : ∀ t ∈ innerPairs, Balanced t.1 ∧ Balanced t.2 := by
    rw [innerPairs, List.forall_mem_cons, List.forall_mem_singleton]
    exact ⟨⟨hchar 97 (by decide) (by decide), hchar 98 (by decide) (by decide)⟩, balanced_nil,
      (hchar 99 (by decide) (by decide)).braced⟩
  obtain ⟨hdecoded, hbalanced⟩ := decode_vec_encode_vec hinner (by decide)
  refine ⟨hdecoded, decode_vec_encode_vec ?_ (by decide)⟩
  rw [nestedPairs, List.forall_mem_cons, List.forall_mem_cons, List.forall_mem_singleton]
  refine ⟨⟨hchar 107 (by decide) (by decide), hbalanced⟩, ⟨?_, balanced_nil⟩,
    hchar 100 (by decide) (by decide), hchar 101 (by decide) (by decide)⟩
  refine balanced_encodeVec (List.forall_mem_singleton.mpr ?_)
  exact ⟨hchar 120 (by decide) (by decide), hbalanced⟩

/-! ### What the assertions see -/

/-- Where the depth becomes zero, from `d` on, there stands a brace. -/
def TopBraces (d : Int) : Str → Prop
  | [] => True
  | c :: e => (d + delta c = 0 → c = rbrace ∨ c = lbrace) ∧ TopBraces (d + delta c) e

/-- How often a field is closed, from depth `d` on. -/
def closings (d : Int) : Str → Nat
  | [] => 0
  | c :: e => (if d = 1 ∧ c = rbrace then 1 else 0) + closings (d + delta c) e

/-- As much as the assertions of `decode_vec` look at: braces at both ends and wherever the depth
    is zero, as many of one kind as of the other, and an even number of fields or an empty last one. -/
def Passes (e : Str) : Prop :=
  e = [] ∨ (1 < e.length ∧ e.head? = some lbrace ∧ e.getLast? = some rbrace ∧ TopBraces 0 e ∧
    Braces.depth e = 0 ∧ (Even (closings 0 e) ∨ [lbrace, rbrace] <:+ e))

theorem Scan.step_isSome (s : Scan) (c : Byte) :
    (∃ s', s.step c = some s') ↔ (s.depth + delta c = 0 → c = rbrace ∨ c = lbrace) := by
  rcases s.step_cases c with hout | ⟨hnow, hin⟩ | ⟨hone, rfl⟩
  · rw [Scan.step_outside hout]
    by_cases hbad : s.depth + delta c = 0 ∧ ¬ (c = rbrace ∨ c = lbrace)
    · rw [if_pos hbad]
      refine iff_of_false ?_ fun h => hbad.2 (h hbad.1)
      rintro ⟨s', hs'⟩
      cases hs'
    · rw [if_neg hbad]
      refine iff_of_true ⟨_, rfl⟩ fun hzero => ?_
      by_contra hne
      exact hbad ⟨hzero, hne⟩
  · rw [Scan.step_inside hnow hin]
    exact iff_of_true ⟨_, rfl⟩ fun hzero => by omega
  · rw [Scan.step_close hone]
    exact iff_of_true ⟨_, rfl⟩ fun _ => Or.inl rfl

/-- What a round makes of the depth, of the toggle and of the first string of a pair. -/
theorem Scan.step_spec {s s' : Scan} {c : Byte} (h : s.step c = some s') :
    s'.depth = s.depth + delta c ∧
      s'.isFirst = (s.isFirst ^^ decide (s.depth = 1 ∧ c = rbrace)) ∧
      ((s.isFirst = true → s.fi = []) → s'.isFirst = true → s'.fi = []) := by
  rcases s.step_cases c with hout | ⟨hnow, hin⟩ | ⟨hone, rfl⟩
  · rw [Scan.step_outside hout] at h
    split at h
    · cases h
    · cases h
      have hnot : ¬ (s.depth = 1 ∧ c = rbrace) := by omega
      exact ⟨rfl, by simp [hnot], id⟩
  · rw [Scan.step_inside hnow hin] at h
    cases h
    have hnot : ¬ (s.depth = 1 ∧ c = rbrace) := by
      rintro ⟨hone, rfl⟩
      rw [delta_rbrace] at hin
      omega
    exact ⟨rfl, by simp [hnot], id⟩
  · rw [Scan.step_close hone] at h
    cases h
    refine ⟨by rw [hone, delta_rbrace]; rfl, ?_, fun _ => ?_⟩
    · unfold Scan.close
      cases s.isFirst <;> simp [hone]
    · unfold Scan.close
      cases s.isFirst <;> simp

theorem scan_isSome (e : Str) (s : Scan) :
    (∃ s', e.foldlM Scan.step s = some s') ↔ TopBraces s.depth e := by
  induction e generalizing s with
  | nil => exact iff_of_true ⟨s, rfl⟩ trivial
  | cons c e ih =>
      rw [TopBraces, ← s.step_isSome c, List.foldlM_cons]
      constructor
      · rintro ⟨s', hs'⟩
        obtain ⟨s₁, hfirst, hrest⟩ := Option.bind_eq_some_iff.mp hs'
        refine ⟨⟨s₁, hfirst⟩, ?_⟩
        rw [← (Scan.step_spec hfirst).1]
        exact (ih s₁).mp ⟨s', hrest⟩
      · rintro ⟨⟨s₁, hfirst⟩, hrest⟩
        rw [← (Scan.step_spec hfirst).1] at hrest
        obtain ⟨s', hs'⟩ := (ih s₁).mpr hrest
        exact ⟨s', Option.bind_eq_some_iff.mpr ⟨s₁, hfirst, hs'⟩⟩

theorem scan_depth {e : Str} {s s' : Scan} (h : e.foldlM Scan.step s = some s') :
    s'.depth = s.depth + Braces.depth e := by
  induction e generalizing s with
  | nil =>
      cases h
      simp
  | cons c e ih =>
      rw [List.foldlM_cons] at h
      obtain ⟨s₁, hfirst, hrest⟩ := Option.bind_eq_some_iff.mp h
      rw [ih hrest, (Scan.step_spec hfirst).1, depth_cons, Int.add_assoc]

/-- The toggle tells odd and even numbers of fields apart. -/
theorem scan_isFirst {e : Str} {s s' : Scan} (h : e.foldlM Scan.step s = some s') :
    s'.isFirst = (s.isFirst ^^ decide (closings s.depth e % 2 = 1)) := by
  induction e generalizing s with
  | nil =>
      cases h
      simp [closings]
  | cons c e ih =>
      rw [List.foldlM_cons] at h
      obtain ⟨s₁, hfirst, hrest⟩ := Option.bind_eq_some_iff.mp h
      obtain ⟨hdepth, hflag, -⟩ := Scan.step_spec hfirst
      rw [ih hrest, hflag, hdepth, closings]
      generalize closings (s.depth + delta c) e = m
      by_cases hclose : s.depth = 1 ∧ c = rbrace
      · rw [if_pos hclose, decide_eq_true hclose]
        rcases Nat.mod_two_eq_zero_or_one m with hm | hm
        · simp [hm, show (1 + m) % 2 = 1 by omega]
        · simp [hm, show (1 + m) % 2 = 0 by omega]
      · simp [hclose]

/-- Outside of a field nothing is collected, and a field that has just been opened is the only
    one with nothing in it. -/
structure Scan.Collected (s : Scan) (read : Str) : Prop where
  outside : s.depth ≤ 0 → s.tmp = []
  inside : 1 ≤ s.depth → (s.tmp = [] ↔ [lbrace] <:+ read ∧ s.depth = 1)
  paired : s.isFirst = true → s.fi = []

theorem Scan.Collected.step {s s' : Scan} {read : Str} {c : Byte} (hc : s.Collected read)
    (h : s.step c = some s') : s'.Collected (read ++ [c]) := by
  have hpaired := (Scan.step_spec h).2.2 hc.paired
  rcases s.step_cases c with hout | ⟨hnow, hin⟩ | ⟨hone, rfl⟩
  · rw [Scan.step_outside hout] at h
    split at h
    · cases h
    · cases h
      refine ⟨fun _ => hc.outside hout, fun hnew => ?_, hpaired⟩
      have hl : c = lbrace := by
        by_contra hne
        have hdelta : delta c ≤ 0 := by
          rw [delta, if_neg hne]
          split <;> decide
        simp only at hnew
        omega
      subst hl
      simp only [delta_lbrace] at hnew ⊢
      refine iff_of_true (hc.outside hout) ⟨List.suffix_append .., by omega⟩
  · rw [Scan.step_inside hnow hin] at h
    cases h
    refine ⟨fun hle => ?_, fun _ => iff_of_false (by simp) ?_, hpaired⟩
    · simp only at hle
      omega
    · rintro ⟨hsuffix, hdepth⟩
      obtain ⟨front, hfront⟩ := hsuffix
      have hl : c = lbrace := by
        have hlast := (List.append_inj' hfront rfl).2
        exact (List.cons.inj hlast).1.symm
      simp only [hl, delta_lbrace] at hdepth
      omega
  · rw [Scan.step_close hone] at h
    cases h
    refine ⟨fun _ => ?_, fun hbad => ?_, hpaired⟩
    · simp only [Scan.close]
      split <;> rfl
    · simp only at hbad
      omega

/-- A scan of a longer string goes on from where the shorter one ends. -/
theorem scan_snoc {read : Str} {c : Byte} {s s' : Scan}
    (h : (read ++ [c]).foldlM Scan.step s = some s') :
    ∃ s₁, read.foldlM Scan.step s = some s₁ ∧ s₁.step c = some s' := by
  rw [List.foldlM_append] at h
  obtain ⟨s₁, hread, hlast⟩ := Option.bind_eq_some_iff.mp h
  rw [List.foldlM_cons] at hlast
  obtain ⟨s₂, hstep, hnil⟩ := Option.bind_eq_some_iff.mp hlast
  cases hnil
  exact ⟨s₁, hread, hstep⟩

theorem scan_collected {read : Str} {s : Scan} (h : read.foldlM Scan.step Scan.init = some s) :
    s.Collected read := by
  induction read using List.reverseRecOn generalizing s with
  | nil =>
      cases h
      exact ⟨fun _ => rfl, fun hbad => absurd hbad (by decide), fun _ => rfl⟩
  | append_singleton read c ih =>
      obtain ⟨s₁, hread, hstep⟩ := scan_snoc h
      exact (ih hread).step hstep

theorem even_closings_iff {e : Str} {s : Scan} (h : e.foldlM Scan.step Scan.init = some s) :
    Even (closings 0 e) ↔ s.isFirst = true := by
  rw [scan_isFirst h, Nat.even_iff]
  rcases Nat.mod_two_eq_zero_or_one (closings 0 e) with hm | hm
  · simp [Scan.init, hm]
  · simp [Scan.init, hm]

/-- Whether a first string without a partner is left at the end. -/
theorem fi_eq_nil_iff {e : Str} {s : Scan} (h : e.foldlM Scan.step Scan.init = some s)
    (hlast : e.getLast? = some rbrace) (hdepth : s.depth = 0) :
    s.fi = [] ↔ Even (closings 0 e) ∨ [lbrace, rbrace] <:+ e := by
  obtain ⟨read, rfl⟩ := List.getLast?_eq_some_iff.mp hlast
  obtain ⟨s₁, hread, hstep⟩ := scan_snoc h
  have hone : s₁.depth = 1 := by
    have hback := (Scan.step_spec hstep).1
    rw [hdepth, delta_rbrace] at hback
    omega
  have hempty := (scan_collected hread).inside (by omega)
  have hsuffix : [lbrace, rbrace] <:+ read ++ [rbrace] ↔ [lbrace] <:+ read := by
    constructor
    · rintro ⟨front, hfront⟩
      refine ⟨front, ?_⟩
      have hparts : (front ++ [lbrace]) ++ [rbrace] = read ++ [rbrace] := by simpa using hfront
      exact (List.append_inj' hparts rfl).1
    · rintro ⟨front, rfl⟩
      exact ⟨front, by simp⟩
  rw [even_closings_iff h, hsuffix]
  rw [Scan.step_close hone, Option.some.injEq] at hstep
  subst hstep
  cases hflag : s₁.isFirst with
  | true => simp [Scan.close, hflag, hempty, hone]
  | false => simp [Scan.close, hflag]

theorem decodeVec_isSome_iff {e : Str} (hsize : e.length < 2 ^ 31) :
    (∃ v, decodeVec e = some v) ↔ Passes e := by
  rw [decodeVec_of_short hsize, Passes]
  by_cases hnil : e = []
  · simp [hnil]
  · rw [if_neg hnil, or_iff_right hnil]
    by_cases hshort : e.length ≤ 1
    · rw [if_pos hshort]
      refine iff_of_false (by simp) fun h => ?_
      omega
    · have hlong : 1 < e.length := by omega
      rw [if_neg hshort]
      by_cases hends : e.head? = some lbrace ∧ e.getLast? = some rbrace
      · have htop : TopBraces 0 e ↔ ∃ s', e.foldlM Scan.step Scan.init = some s' :=
          (scan_isSome e Scan.init).symm
        rw [if_pos hends]
        simp only [hlong, hends.1, hends.2, htop, true_and]
        cases hscan : e.foldlM Scan.step Scan.init with
        | none => simp
        | some s =>
            have hdepth : s.depth = Braces.depth e := by
              rw [scan_depth hscan, Scan.init, Int.zero_add]
            simp only [Option.some.injEq, exists_eq', true_and]
            by_cases hzero : s.depth = 0
            · rw [← fi_eq_nil_iff hscan hends.2 hzero, ← hdepth]
              by_cases hfi : s.fi = []
              · simp [hzero, hfi]
              · simp [hzero, hfi]
            · rw [← hdepth]
              simp [hzero]
      · rw [if_neg hends]
        refine iff_of_false (by simp) fun h => hends ⟨h.2.1, h.2.2.1⟩

/-! ### Strings that never close too much -/

/-- What has been read of a string that does not dip: the pairs, a first string without its partner,
    and an open field. -/
structure Scan.Written (s : Scan) (read : Str) : Prop where
  read_eq : read = encodeVec s.vector ++ (if s.isFirst then [] else braced s.fi) ++
    (if s.depth = 0 then [] else lbrace :: s.tmp)
  nonneg : 0 ≤ s.depth
  vector : ∀ t ∈ s.vector, Balanced t.1 ∧ Balanced t.2
  fi : Balanced s.fi
  above : ∀ n, 0 ≤ Braces.depth (s.tmp.take n)
  level : s.depth = 0 ∧ s.tmp = [] ∨ s.depth = Braces.depth s.tmp + 1

theorem Scan.Written.step {s s' : Scan} {read : Str} {c : Byte} (hw : s.Written read)
    (h : s.step c = some s') (hdip : 0 ≤ s.depth + delta c) : s'.Written (read ++ [c]) := by
  have hread := hw.read_eq
  rcases s.step_cases c with hout | ⟨hnow, hin⟩ | ⟨hone, rfl⟩
  · have hzero : s.depth = 0 := Int.le_antisymm hout hw.nonneg
    have htmp : s.tmp = [] := by
      rcases hw.level with hlevel | hlevel
      · exact hlevel.2
      · have habove := hw.above s.tmp.length
        rw [List.take_length] at habove
        omega
    have hl : c = lbrace := by
      by_contra hne
      rw [Scan.step_outside hout] at h
      by_cases hr : c = rbrace
      · rw [hr, delta_rbrace] at hdip
        omega
      · have hbad : s.depth + delta c = 0 ∧ ¬ (c = rbrace ∨ c = lbrace) := by
          refine ⟨by rw [hzero, delta_of_ne hne hr]; rfl, ?_⟩
          rintro (heq | heq)
          · exact hr heq
          · exact hne heq
        rw [if_pos hbad] at h
        cases h
    subst hl
    rw [Scan.step_outside hout, if_neg (by simp)] at h
    cases h
    rw [if_pos hzero, List.append_nil] at hread
    refine ⟨?_, by simp [hzero], hw.vector, hw.fi, hw.above, Or.inr (by simp [hzero, htmp])⟩
    simp [hread, hzero, htmp]
  · rw [Scan.step_inside hnow hin] at h
    cases h
    have hne : s.depth ≠ 0 := by omega
    have hne' : s.depth + delta c ≠ 0 := by omega
    have hlevel : s.depth = Braces.depth s.tmp + 1 := hw.level.resolve_left fun hbad => hne hbad.1
    rw [if_neg hne] at hread
    refine ⟨?_, by simp only; omega, hw.vector, hw.fi, fun n => ?_, Or.inr ?_⟩
    · simp only [if_neg hne']
      rw [hread]
      simp
    · simp only [depth_take_append]
      by_cases hn : n ≤ s.tmp.length
      · rw [Nat.sub_eq_zero_of_le hn, List.take_zero, depth_nil, Int.add_zero]
        exact hw.above n
      · have hlast : [c].take (n - s.tmp.length) = [c] := List.take_of_length_le (by simp; omega)
        rw [hlast, List.take_of_length_le (by omega), depth_cons, depth_nil]
        omega
    · simp only [depth_append, depth_cons, depth_nil]
      omega
  · rw [Scan.step_close hone] at h
    have hne : s.depth ≠ 0 := by omega
    have hlevel : s.depth = Braces.depth s.tmp + 1 := hw.level.resolve_left fun hbad => hne hbad.1
    have hbal : Balanced s.tmp := ⟨hw.above, by omega⟩
    rw [if_neg hne] at hread
    cases h
    cases hflag : s.isFirst with
    | true =>
        simp only [hflag, if_true, List.append_nil] at hread
        simp only [Scan.close, hflag, if_true]
        refine ⟨?_, Int.le_refl 0, hw.vector, hbal, fun n => by simp, Or.inl ⟨rfl, rfl⟩⟩
        simp [hread, braced]
    | false =>
        simp only [hflag, Bool.false_eq_true, if_false] at hread
        simp only [Scan.close, hflag, Bool.false_eq_true, if_false]
        refine ⟨?_, Int.le_refl 0, fun t ht => ?_, balanced_nil, fun n => by simp, Or.inl ⟨rfl, rfl⟩⟩
        · simp [hread, encodeVec_append, encodeVec, braced]
        · rcases List.mem_append.mp ht with ht | ht
          · exact hw.vector t ht
          · rw [List.mem_singleton.mp ht]
            exact ⟨hw.fi, hbal⟩

theorem scan_written {read : Str} {s : Scan} (h : read.foldlM Scan.step Scan.init = some s)
    (hdip : ¬ Dips read) : s.Written read := by
  induction read using List.reverseRecOn generalizing s with
  | nil =>
      cases h
      exact ⟨rfl, Int.le_refl 0, fun t ht => absurd ht List.not_mem_nil, balanced_nil,
        fun n => by simp [Scan.init], Or.inl ⟨rfl, rfl⟩⟩
  | append_singleton read c ih =>
      obtain ⟨s₁, hread, hstep⟩ := scan_snoc h
      have hshorter : ¬ Dips read := by
        rintro ⟨n, hn⟩
        refine hdip ⟨min n read.length, ?_⟩
        rw [List.take_append_of_le_length (Nat.min_le_right ..), ← List.take_take, List.take_length]
        exact hn
      refine (ih hread hshorter).step hstep ?_
      have hnow : ¬ Braces.depth (read ++ [c]) < 0 := by
        intro hlt
        refine hdip ⟨(read ++ [c]).length, ?_⟩
        rw [List.take_length]
        exact hlt
      rw [depth_append, depth_cons, depth_nil] at hnow
      have hdepth : s₁.depth = Braces.depth read := by rw [scan_depth hread, Scan.init, Int.zero_add]
      omega

/-- What `encode_vec` makes of some list of pairs of balanced strings. -/
def IsEncoding (e : Str) : Prop :=
  ∃ data, (∀ t ∈ data, Balanced t.1 ∧ Balanced t.2) ∧ e = encodeVec data

/-- The strings of the encoder: the assertions let them pass, they never close too much, and
    their fields come in pairs. -/
def Paired (e : Str) : Prop := Passes e ∧ ¬ Dips e ∧ Even (closings 0 e)

theorem isEncoding_iff (e : Str) : IsEncoding e ↔ Paired e := by
  constructor
  · rintro ⟨data, hdata, rfl⟩
    have hscan := scan_encodeVec hdata []
    have hbalanced := balanced_encodeVec hdata
    have heven : Even (closings 0 (encodeVec data)) := (even_closings_iff hscan).mpr rfl
    refine ⟨?_, hbalanced.not_dips, heven⟩
    by_cases hnil : data = []
    · exact Or.inl (by rw [hnil]; rfl)
    · obtain ⟨hhead, hlast⟩ := encodeVec_ends hnil
      have htop := (scan_isSome (encodeVec data) Scan.init).mp ⟨_, hscan⟩
      refine Or.inr ⟨?_, hhead, hlast, htop, hbalanced.closed, Or.inl heven⟩
      cases data with
      | nil => exact absurd rfl hnil
      | cons t data => simp [encodeVec, braced]
  · rintro ⟨hpasses, hdips, heven⟩
    rcases hpasses with rfl | ⟨-, -, -, htop, hdepth, -⟩
    · exact ⟨[], fun t ht => absurd ht List.not_mem_nil, rfl⟩
    · obtain ⟨s, hscan⟩ := (scan_isSome e Scan.init).mpr htop
      have hwritten := scan_written hscan hdips
      have hfirst := (even_closings_iff hscan).mp heven
      have hzero : s.depth = 0 := by
        rw [scan_depth hscan, hdepth]
        rfl
      refine ⟨s.vector, hwritten.vector, ?_⟩
      have hread := hwritten.read_eq
      simpa [hfirst, hzero] using hread

/-- The length of what has been collected, with its braces. -/
def Scan.room (s : Scan) : Nat :=
  (encodeVec s.vector).length + (if s.isFirst then 0 else s.fi.length + 2) +
    (if 1 ≤ s.depth then s.tmp.length + 1 else 0)

/-- What is collected takes no more room than what has been read. -/
theorem scan_room {read : Str} {s : Scan} (h : read.foldlM Scan.step Scan.init = some s) :
    s.room ≤ read.length := by
  induction read using List.reverseRecOn generalizing s with
  | nil =>
      cases h
      exact Nat.le_refl 0
  | append_singleton read c ih =>
      obtain ⟨s₁, hread, hstep⟩ := scan_snoc h
      have hroom := ih hread
      have houtside := (scan_collected hread).outside
      rw [List.length_append, List.length_singleton]
      rcases s₁.step_cases c with hout | ⟨hnow, hin⟩ | ⟨hone, rfl⟩
      · rw [Scan.step_outside hout] at hstep
        split at hstep
        · cases hstep
        · cases hstep
          have hnot : ¬ 1 ≤ s₁.depth := by omega
          have hopen : (if 1 ≤ s₁.depth + delta c then 0 + 1 else 0) ≤ 1 := by
            split <;> omega
          simp only [Scan.room, if_neg hnot, houtside hout, List.length_nil] at hroom ⊢
          omega
      · rw [Scan.step_inside hnow hin] at hstep
        cases hstep
        simp only [Scan.room, if_pos hnow, if_pos hin, List.length_append,
          List.length_singleton] at hroom ⊢
        omega
      · rw [Scan.step_close hone] at hstep
        cases hstep
        have hnow : 1 ≤ s₁.depth := by omega
        simp only [Scan.room, if_pos hnow] at hroom ⊢
        cases hflag : s₁.isFirst with
        | true =>
            simp only [hflag, if_true] at hroom
            simp [Scan.close, hflag]
            omega
        | false =>
            simp only [hflag, Bool.false_eq_true, if_false] at hroom
            simp [Scan.close, hflag, encodeVec_append, encodeVec, braced]
            omega

/-! ### Strings of any length -/

theorem intSize_lt (e : Str) : intSize e < 2 ^ 31 := by
  have hlt := Int.bmod_lt (x := (e.length : Int)) (m := 2 ^ 32) (by decide)
  unfold intSize
  omega

theorem intSize_le (e : Str) : intSize e ≤ e.length := by
  have hmod := Int.bmod_def (e.length : Int) (2 ^ 32)
  unfold intSize
  rw [hmod]
  split
  · omega
  · omega

/-- Of a long string the decoder reads as much as the `int` says. -/
theorem decodeVec_eq (e : Str) :
    decodeVec e = if intSize e < 0 then none else decodeVec (e.take (intSize e).toNat) := by
  by_cases hneg : intSize e < 0
  · rw [if_pos hneg]
    unfold decodeVec
    simp only [if_neg (show intSize e ≠ 0 by omega), if_pos (show ¬ intSize e > 1 by omega)]
  · have hle := intSize_le e
    have hlt := intSize_lt e
    have hlength : (e.take (intSize e).toNat).length = (intSize e).toNat := by
      rw [List.length_take]
      omega
    have hsize : intSize (e.take (intSize e).toNat) = intSize e := by
      rw [intSize_of_lt (by omega), hlength]
      omega
    rw [if_neg hneg]
    unfold decodeVec
    simp only [hsize, List.take_take, Nat.min_self]

/-- The strings on which `decode_vec` is right. -/
def Faithful (e : Str) : Prop :=
  ((∃ v, decodeVec e = some v) ↔ IsEncoding e) ∧ ∀ v, decodeVec e = some v → encodeVec v = e

theorem faithful_of_short {e : Str} (hsize : e.length < 2 ^ 31) :
    Faithful e ↔ (Passes e → ¬ Dips e ∧ Even (closings 0 e)) := by
  have haccepts := decodeVec_isSome_iff hsize
  have hencoding := isEncoding_iff e
  constructor
  · rintro ⟨hiff, -⟩ hpasses
    exact (hencoding.mp (hiff.mp (haccepts.mpr hpasses))).2
  · intro hgood
    refine ⟨haccepts.trans ⟨fun hpasses => ?_, fun hdata => ?_⟩, fun v hv => ?_⟩
    · exact hencoding.mpr ⟨hpasses, hgood hpasses⟩
    · exact (hencoding.mp hdata).1
    · have hpasses := haccepts.mp ⟨v, hv⟩
      obtain ⟨data, hdata, rfl⟩ := hencoding.mpr ⟨hpasses, hgood hpasses⟩
      rw [decodeVec_encodeVec hdata hsize, Option.some.injEq] at hv
      rw [hv]

/-- Nothing that is decoded is as long as a string the `int` cannot count. -/
theorem decodeVec_length {e : Str} {v : List (Str × Str)} (h : decodeVec e = some v) :
    (encodeVec v).length < 2 ^ 31 := by
  rw [decodeVec_eq] at h
  split at h
  · cases h
  · have hlt := intSize_lt e
    have hshort : (e.take (intSize e).toNat).length < 2 ^ 31 := by
      rw [List.length_take]
      omega
    generalize e.take (intSize e).toNat = read at h hshort
    rw [decodeVec_of_short hshort] at h
    split at h
    · cases h
      exact Nat.two_pow_pos 31
    · split at h
      · cases h
      · split at h
        · split at h
          · cases h
          next s hscan =>
            split at h
            · cases h
              have hroom := scan_room hscan
              unfold Scan.room at hroom
              omega
            · cases h
        · cases h

theorem Scan.step_vector {s s' : Scan} {c : Byte} (h : s.step c = some s') :
    s.vector <+: s'.vector := by
  rcases s.step_cases c with hout | ⟨hnow, hin⟩ | ⟨hone, rfl⟩
  · rw [Scan.step_outside hout] at h
    split at h
    · cases h
    · cases h
      exact List.prefix_refl _
  · rw [Scan.step_inside hnow hin] at h
    cases h
    exact List.prefix_refl _
  · rw [Scan.step_close hone] at h
    cases h
    unfold Scan.close
    split
    · exact List.prefix_refl _
    · exact List.prefix_append ..

theorem scan_vector {e : Str} {s s' : Scan} (h : e.foldlM Scan.step s = some s') :
    s.vector <+: s'.vector :=
  foldlM_keeps (P := fun s₁ : Scan => s.vector <+: s₁.vector)
    (fun _ _ _ hp hstep => hp.trans (Scan.step_vector hstep)) (List.prefix_refl _) h

/-- Of an encoding that is too long only some of the pairs are found, if anything. -/
theorem decodeVec_of_long {data v : List (Str × Str)}
    (hdata : ∀ t ∈ data, Balanced t.1 ∧ Balanced t.2)
    (hlong : 2 ^ 31 ≤ (encodeVec data).length) (h : decodeVec (encodeVec data) = some v) :
    v.length < data.length := by
  have hpos : 0 < data.length := by
    cases data with
    | nil => exact absurd hlong (by decide)
    | cons t data => exact Nat.succ_pos _
  have hsmall := decodeVec_length h
  rw [decodeVec_eq] at h
  split at h
  · cases h
  · have hlt := intSize_lt (encodeVec data)
    have hsplit := List.take_append_drop (intSize (encodeVec data)).toNat (encodeVec data)
    have hshort : ((encodeVec data).take (intSize (encodeVec data)).toNat).length < 2 ^ 31 := by
      rw [List.length_take]
      omega
    have hwhole := scan_encodeVec hdata []
    rw [← hsplit, List.foldlM_append] at hwhole
    obtain ⟨s, hscan, hrest⟩ := Option.bind_eq_some_iff.mp hwhole
    rw [decodeVec_of_short hshort] at h
    split at h
    · cases h
      exact hpos
    · split at h
      · cases h
      · split at h
        · rw [Scan.init, hscan] at h
          simp only at h
          split at h
          · cases h
            have hstart : s.vector <+: data := scan_vector hrest
            refine Nat.lt_of_le_of_ne hstart.length_le fun heq => ?_
            rw [hstart.eq_of_length heq] at hsmall
            omega
          · cases h
        · cases h

/-- The decoder accepts exactly the encodings, and gives their pairs back, on strings below 2 GiB
    that do not close more than they have opened and have an even number of fields once they pass
    the assertions.  A longer string is judged by the part that the `int` counts: it must be no
    encoding, and that part must not pass. -/
theorem accepts_encodings_iff (e : Str) :
    Faithful e ↔
      if e.length < 2 ^ 31 then Passes e → ¬ Dips e ∧ Even (closings 0 e)
      else ¬ Paired e ∧ (0 ≤ intSize e → ¬ Passes (e.take (intSize e).toNat)) := by
  by_cases hsize : e.length < 2 ^ 31
  · rw [if_pos hsize]
    exact faithful_of_short hsize
  · rw [if_neg hsize]
    have hlt := intSize_lt e
    have hread : (e.take (intSize e).toNat).length < 2 ^ 31 := by
      rw [List.length_take]
      omega
    have haccepts : (∃ v, decodeVec e = some v) ↔
        0 ≤ intSize e ∧ Passes (e.take (intSize e).toNat) := by
      rw [decodeVec_eq]
      by_cases hneg : intSize e < 0
      · rw [if_pos hneg]
        exact iff_of_false (by simp) fun h => by omega
      · rw [if_neg hneg, decodeVec_isSome_iff hread, and_iff_right (by omega)]
    constructor
    · rintro ⟨hiff, hback⟩
      have hrejects : ¬ ∃ v, decodeVec e = some v := by
        rintro ⟨v, hv⟩
        have hlength := decodeVec_length hv
        rw [hback v hv] at hlength
        exact hsize hlength
      refine ⟨fun hpaired => hrejects (hiff.mpr ((isEncoding_iff e).mpr hpaired)), ?_⟩
      exact fun hpos hpasses => hrejects (haccepts.mpr ⟨hpos, hpasses⟩)
    · rintro ⟨hpaired, hwindow⟩
      have hrejects : ¬ ∃ v, decodeVec e = some v :=
        fun hv => hwindow (haccepts.mp hv).1 (haccepts.mp hv).2
      refine ⟨iff_of_false hrejects fun hdata => hpaired ((isEncoding_iff e).mp hdata), ?_⟩
      exact fun v hv => absurd ⟨v, hv⟩ hrejects

/-- One empty field is read as an empty list. -/
theorem unpaired_field_accepted :
    ¬ ∀ e, ((∃ v, decodeVec e = some v) ↔ IsEncoding e) ∧
      ∀ v, decodeVec e = some v → encodeVec v = e := by
  intro h
  have hback := (h [lbrace, rbrace]).2 [] (by decide)
  cases hback

end VeriTxn.Coder
