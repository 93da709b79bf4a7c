import VeriTxn.Serial

/-!
# Serial order by stamps

When every transaction has a stamp, and the contents below a stamp are a function of the stamp, then
the transactions are serial in the order of their stamps as soon as each one reads the contents
below its stamp and its writes are what the contents above its stamp add.  Rows that keep their
versions, each with the stamp of its writer, give such contents.
-/

namespace Serial

variable {K R D : Type*}

/-- The transactions with a stamp below `n`, by their stamps. -/
def byStamp (stamp : K → Nat) (committed : List K) (n : Nat) : List K :=
  (List.range n).filterMap fun τ => committed.find? fun k => decide (stamp k = τ)

section ByStamp

variable {stamp : K → Nat} {committed : List K} {n : Nat}

theorem byStamp_succ : byStamp stamp committed (n + 1) =
    byStamp stamp committed n ++ (committed.find? fun k => decide (stamp k = n)).toList := by
  have hlast : ∀ f : Nat → Option K, [n].filterMap f = (f n).toList := by
    intro f
    cases h : f n with
    | none => simp [h]
    | some k => simp [h]
  rw [byStamp, List.range_succ, List.filterMap_append, hlast]
  rfl

theorem find_stamp
    (hdistinct : ∀ k ∈ committed, ∀ k' ∈ committed, stamp k = stamp k' → k = k') {k : K}
    (hk : k ∈ committed) :
    (committed.find? fun k' => decide (stamp k' = stamp k)) = some k := by
  cases hfind : committed.find? fun k' => decide (stamp k' = stamp k) with
  | none =>
      have := List.find?_eq_none.mp hfind k hk
      simp at this
  | some k' =>
      have hmem := List.mem_of_find?_eq_some hfind
      have heq := List.find?_some hfind
      simp only [decide_eq_true_eq] at heq
      rw [hdistinct k' hmem k hk heq]

theorem mem_byStamp
    (hdistinct : ∀ k ∈ committed, ∀ k' ∈ committed, stamp k = stamp k' → k = k') {k : K} :
    k ∈ byStamp stamp committed n ↔ k ∈ committed ∧ stamp k < n := by
  rw [byStamp, List.mem_filterMap]
  constructor
  · rintro ⟨τ, hτ, hfind⟩
    have heq := List.find?_some hfind
    simp only [decide_eq_true_eq] at heq
    exact ⟨List.mem_of_find?_eq_some hfind, heq ▸ List.mem_range.mp hτ⟩
  · rintro ⟨hk, hlt⟩
    exact ⟨stamp k, List.mem_range.mpr hlt, find_stamp hdistinct hk⟩

theorem byStamp_sorted : (byStamp stamp committed n).Pairwise fun a b => stamp a < stamp b := by
  induction n with
  | zero => exact List.Pairwise.nil
  | succ n ih =>
      rw [byStamp_succ]
      refine List.pairwise_append.mpr ⟨ih, ?_, fun a ha b hb => ?_⟩
      · cases committed.find? fun k => decide (stamp k = n) with
        | none => exact List.Pairwise.nil
        | some k => exact List.pairwise_singleton ..
      · obtain ⟨τ, hτ, hfind⟩ := List.mem_filterMap.mp ha
        have hτn := List.mem_range.mp hτ
        have ha' := List.find?_some hfind
        have hb' := List.find?_some (Option.mem_toList.mp hb)
        simp only [decide_eq_true_eq] at ha' hb'
        omega

theorem byStamp_perm
    (hdistinct : ∀ k ∈ committed, ∀ k' ∈ committed, stamp k = stamp k' → k = k')
    (hnodup : committed.Nodup) (hlt : ∀ k ∈ committed, stamp k < n) :
    (byStamp stamp committed n).Perm committed := by
  refine (List.perm_ext_iff_of_nodup ?_ hnodup).mpr fun k => ?_
  · refine byStamp_sorted.imp ?_
    rintro a b hab rfl
    exact Nat.lt_irrefl _ hab
  · rw [mem_byStamp hdistinct]
    exact ⟨And.left, fun hk => ⟨hk, hlt k hk⟩⟩

end ByStamp

theorem exists_above (stamp : K → Nat) (committed : List K) :
    ∃ n, 0 < n ∧ ∀ k ∈ committed, stamp k < n := by
  induction committed with
  | nil => exact ⟨1, Nat.zero_lt_one, nofun⟩
  | cons k committed ih =>
      obtain ⟨n, hn, hlt⟩ := ih
      refine ⟨max n (stamp k + 1), Nat.lt_of_lt_of_le hn (Nat.le_max_left ..), fun l hl => ?_⟩
      rcases List.mem_cons.mp hl with rfl | hmem
      · exact Nat.le_max_right ..
      · exact Nat.lt_of_lt_of_le (hlt l hmem) (Nat.le_max_left ..)

/-! ### The rows that a transaction writes -/

theorem Program.mem_writesFrom {p : Program R D} {values : List D} {w : R × D} {ops : List (Op R D)}
    {n : Nat} : w ∈ p.writesFrom values n ops ↔
      ∃ i o, ops[i]? = some o ∧ o.writes = true ∧ w = (o.row, p.result values (n + i)) := by
  induction ops generalizing n with
  | nil => simp [Program.writesFrom]
  | cons o ops ih =>
      have hsplit : (∃ i o', (o :: ops)[i]? = some o' ∧ o'.writes = true ∧
          w = (o'.row, p.result values (n + i))) ↔
          (o.writes = true ∧ w = (o.row, p.result values n)) ∨
          ∃ i o', ops[i]? = some o' ∧ o'.writes = true ∧
            w = (o'.row, p.result values (n + 1 + i)) := by
        constructor
        · rintro ⟨i, o', hget, hw, heq⟩
          cases i with
          | zero =>
              cases hget
              exact .inl ⟨hw, heq⟩
          | succ i =>
              exact .inr ⟨i, o', hget, hw, by rw [heq, Nat.add_right_comm, Nat.add_assoc]⟩
        · rintro (⟨hw, heq⟩ | ⟨i, o', hget, hw, heq⟩)
          · exact ⟨0, o, rfl, hw, heq⟩
          · exact ⟨i + 1, o', hget, hw, by rw [heq, Nat.add_right_comm, Nat.add_assoc]⟩
      rw [hsplit, Program.writesFrom]
      cases hw : o.writes
      · simp only [Bool.false_eq_true, if_false, false_and, false_or]
        exact ih
      · simp only [if_true, List.mem_cons, true_and]
        exact or_congr Iff.rfl ih

theorem Program.mem_writeSet {p : Program R D} {ops : List (Op R D)} {w : R × D} :
    w ∈ p.writeSet ops ↔ ∃ i o, ops[i]? = some o ∧ o.writes = true ∧
      w = (o.row, p.result (ops.map Op.value) i) := by
  rw [Program.writeSet, Program.mem_writesFrom]
  simp only [Nat.zero_add]

/-! ### The serial history -/

variable [DecidableEq R]

/-- What every transaction sees and leaves, given the contents below every stamp. -/
structure Stamped (stamp : K → Nat) (run : K → Program R D × List (Op R D)) (committed : List K)
    (content : Nat → R → D) : Prop where
  observes : ∀ k ∈ committed, (run k).1.Observes (run k).2
  reads : ∀ k ∈ committed, ∀ o ∈ (run k).2, o.value = content (stamp k) o.row
  writes : ∀ k ∈ committed,
    content (stamp k + 1) = install (content (stamp k)) ((run k).1.writeSet (run k).2)
  gap : ∀ τ, (∀ k ∈ committed, stamp k ≠ τ) → content (τ + 1) = content τ

theorem Stamped.serial {stamp : K → Nat} {run : K → Program R D × List (Op R D)}
    {committed : List K} {content : Nat → R → D} (h : Stamped stamp run committed content)
    (n : Nat) :
    SerialHistory ((byStamp stamp committed n).map run) (content 0) (content n) := by
  induction n with
  | zero => exact (rfl : content 0 = content 0)
  | succ n ih =>
      rw [byStamp_succ, List.map_append]
      cases hfind : committed.find? fun k => decide (stamp k = n) with
      | none =>
          rw [Option.toList_none, List.map_nil, List.append_nil, h.gap n fun k hk heq => ?_]
          · exact ih
          · have := List.find?_eq_none.mp hfind k hk
            simp [heq] at this
      | some k =>
          have hk := List.mem_of_find?_eq_some hfind
          have heq := List.find?_some hfind
          simp only [decide_eq_true_eq] at heq
          subst heq
          exact ih.snoc ⟨h.observes k hk, h.reads k hk, h.writes k hk⟩

/-- Two stores that agree outside a write set, one of them with the writes, are before and after
    it. -/
theorem install_eq_of_writes {before after : R → D} {writes : List (R × D)}
    (hin : ∀ w ∈ writes, after w.1 = w.2)
    (hout : ∀ r, r ∉ writes.map Prod.fst → after r = before r) : after = install before writes :=
  (install_eq_of_agree (fun w hw => (hin w hw).symm) fun r hr => (hout r hr).symm).symm

/-! ### Versions of rows -/

/-- The newest version below a stamp. -/
def below (versions : List (Nat × D)) (n : Nat) : Option (Nat × D) :=
  versions.find? fun v => decide (v.1 < n)

section Below

variable {versions : List (Nat × D)} {n : Nat} {v : Nat × D}

theorem below_eq (hsorted : versions.Pairwise fun a b => b.1 < a.1) (hv : v ∈ versions)
    (hlt : v.1 < n) (hmax : ∀ u ∈ versions, u.1 < n → u.1 ≤ v.1) :
    below versions n = some v := by
  induction versions with
  | nil => cases hv
  | cons u versions ih =>
      obtain ⟨hhead, htail⟩ := List.pairwise_cons.mp hsorted
      rw [below, List.find?_cons]
      rcases List.mem_cons.mp hv with rfl | hmem
      · rw [decide_eq_true hlt]
      · have hvu := hhead v hmem
        have hnot : ¬ u.1 < n := by
          intro hu
          have := hmax u (List.mem_cons_self ..) hu
          omega
        rw [decide_eq_false hnot]
        exact ih htail hmem fun w hw => hmax w (List.mem_cons_of_mem _ hw)

/-- A later version is not below the stamp. -/
theorem below_cons (hle : n ≤ v.1) : below (v :: versions) n = below versions n := by
  rw [below, List.find?_cons, decide_eq_false (Nat.not_lt.mpr hle)]
  rfl

theorem below_head {rest : List (Nat × D)} (hlt : v.1 < n) : below (v :: rest) n = some v := by
  rw [below, List.find?_cons, decide_eq_true hlt]

theorem below_succ (hsorted : versions.Pairwise fun a b => b.1 < a.1) (hv : v ∈ versions)
    (hn : v.1 = n) : below versions (n + 1) = some v :=
  below_eq hsorted hv (by omega) fun u _ hu => by omega

theorem below_gap (hno : ∀ v ∈ versions, v.1 ≠ n) : below versions (n + 1) = below versions n := by
  induction versions with
  | nil => rfl
  | cons v versions ih =>
      have hv := hno v (List.mem_cons_self ..)
      have hsame : decide (v.1 < n + 1) = decide (v.1 < n) := by
        rw [decide_eq_decide]
        omega
      rw [below, below, List.find?_cons, List.find?_cons, hsame]
      cases decide (v.1 < n) with
      | true => rfl
      | false => exact ih fun u hu => hno u (List.mem_cons_of_mem _ hu)

end Below

/-- A version that a transaction leaves in a row. -/
def Leaves (stamp : K → Nat) (run : K → Program R D × List (Op R D)) (committed : List K) (r : R)
    (v : Nat × D) : Prop :=
  ∃ k ∈ committed, v.1 = stamp k ∧ ∃ i o, (run k).2[i]? = some o ∧ o.row = r ∧ o.writes = true ∧
    v.2 = (run k).1.result ((run k).2.map Op.value) i

/-- The versions of the rows are the base ones, with stamp 0, and those that the transactions leave,
    each with its own stamp; a transaction has read the newest versions below its stamp. -/
structure Versioned (stamp : K → Nat) (run : K → Program R D × List (Op R D)) (committed : List K)
    (base : R → D) (versions : R → List (Nat × D)) : Prop where
  nodup : committed.Nodup
  distinct : ∀ k ∈ committed, ∀ k' ∈ committed, stamp k = stamp k' → k = k'
  pos : ∀ k ∈ committed, 0 < stamp k
  sorted : ∀ r, (versions r).Pairwise fun a b => b.1 < a.1
  first : ∀ r, (0, base r) ∈ versions r
  left : ∀ r, ∀ v ∈ versions r, v = (0, base r) ∨ Leaves stamp run committed r v
  published : ∀ k ∈ committed, ∀ i o, (run k).2[i]? = some o → o.writes = true →
    (stamp k, (run k).1.result ((run k).2.map Op.value) i) ∈ versions o.row
  observes : ∀ k ∈ committed, (run k).1.Observes (run k).2
  reads : ∀ k ∈ committed, ∀ o ∈ (run k).2,
    (below (versions o.row) (stamp k)).map Prod.snd = some o.value

/-- The contents of the rows below a stamp. -/
def content (base : R → D) (versions : R → List (Nat × D)) (n : Nat) (r : R) : D :=
  ((below (versions r) n).map Prod.snd).getD (base r)

/-- The newest contents. -/
def newest (base : R → D) (versions : R → List (Nat × D)) (r : R) : D :=
  ((versions r).head?.map Prod.snd).getD (base r)

omit [DecidableEq R] in
theorem content_zero (base : R → D) (versions : R → List (Nat × D)) :
    content base versions 0 = base := by
  funext r
  have hnone : below (versions r) 0 = none := List.find?_eq_none.mpr fun v _ => by simp
  rw [content, hnone]
  rfl

namespace Versioned

variable {stamp : K → Nat} {run : K → Program R D × List (Op R D)} {committed : List K}
  {base : R → D} {versions : R → List (Nat × D)}

omit [DecidableEq R] in
theorem content_last (h : Versioned stamp run committed base versions) {n : Nat} (hn : 0 < n)
    (hlt : ∀ k ∈ committed, stamp k < n) : content base versions n = newest base versions := by
  funext r
  have hall : ∀ v ∈ versions r, v.1 < n := by
    intro v hv
    rcases h.left r v hv with rfl | ⟨k, hk, hstamp, -⟩
    · exact hn
    · exact hstamp ▸ hlt k hk
  rw [content, newest]
  cases hvs : versions r with
  | nil => rfl
  | cons v rest =>
      rw [below_head (hall v (by rw [hvs]; exact List.mem_cons_self ..)), List.head?_cons]

omit [DecidableEq R] in
theorem content_gap (h : Versioned stamp run committed base versions) {n : Nat} {r : R}
    (hno : ∀ v, Leaves stamp run committed r v → v.1 ≠ n) :
    content base versions (n + 1) r = content base versions n r := by
  cases n with
  | zero =>
      rw [content, below_succ (h.sorted r) (h.first r) rfl, content_zero]
      rfl
  | succ n =>
      rw [content, content, below_gap fun v hv => ?_]
      rcases h.left r v hv with rfl | hleaves
      · exact nofun
      · exact hno v hleaves

theorem stamped (h : Versioned stamp run committed base versions) :
    Stamped stamp run committed (content base versions) where
  observes := h.observes
  reads := fun k hk o ho => by rw [content, h.reads k hk o ho]; rfl
  writes := by
    intro k hk
    refine install_eq_of_writes (fun w hw => ?_) fun r hr => ?_
    · obtain ⟨i, o, hget, hwrites, rfl⟩ := Program.mem_writeSet.mp hw
      show content base versions (stamp k + 1) o.row = _
      rw [content, below_succ (h.sorted o.row) (h.published k hk i o hget hwrites) rfl]
      rfl
    · refine h.content_gap ?_
      rintro v ⟨k', hk', hstamp, i, o, hget, hrow, hwrites, -⟩ heq
      obtain rfl := h.distinct k' hk' k hk (hstamp.symm.trans heq)
      exact hr (List.mem_map.mpr ⟨_, Program.mem_writeSet.mpr ⟨i, o, hget, hwrites, rfl⟩, hrow⟩)
  gap := by
    intro n hno
    funext r
    refine h.content_gap ?_
    rintro v ⟨k, hk, hstamp, -⟩ heq
    exact hno k hk (hstamp.symm.trans heq)

/-- The transactions run alone, in the order of their stamps, read the same values and leave the
    newest versions. -/
theorem serial (h : Versioned stamp run committed base versions) :
    ∃ order : List K, order.Perm committed ∧
      order.Pairwise (fun k k' => stamp k < stamp k') ∧
      SerialHistory (order.map run) base (newest base versions) := by
  obtain ⟨n, hn, hlt⟩ := exists_above stamp committed
  have hserial := h.stamped.serial n
  rw [content_zero, h.content_last hn hlt] at hserial
  exact ⟨_, byStamp_perm h.distinct h.nodup hlt, byStamp_sorted, hserial⟩

end Versioned

end Serial
