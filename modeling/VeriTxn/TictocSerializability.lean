import VeriTxn.TictocInvariant

/-!
# TicToc serializes in the order of commit timestamps

The transactions are serial in the order of `commit_wts`, and of their commits where that is the
same, as long as no renewal shortens a lease.
-/

namespace VeriTxn.Tictoc

open Lease Serial Transition

/-! ### Runs -/

section Runs

variable {Thd R D : Type} {cfg : Config R} {base : R → D} {s s' : Sys Thd R D} {t : Thd}

theorem Inv.init (cfg : Config R) (base : R → D) : Inv cfg base (Sys.init base : Sys Thd R D) where
  wf := fun _ => .init
  ok := fun _ =>
    ⟨wtsOf_le_getRts _, List.pairwise_singleton .., ⟨_, rfl, Nat.zero_le _⟩, nofun⟩
  expects := fun _ _ => .inl (.inr ⟨List.not_mem_nil, rfl⟩)
  good := fun _ => trivial
  pend := nofun
  data := fun _ _ => ⟨_, rfl, rfl⟩
  filling := nofun
  log :=
    { places := List.Pairwise.nil
      bound := nofun
      first := fun _ => List.mem_singleton_self _
      left := fun _ _ hv => .inl (List.mem_singleton.mp hv)
      published := nofun
      observes := nofun
      reads := nofun }

variable [DecidableEq Thd] [DecidableEq R]

/-- A thread goes to the start of the validation. -/
theorem Inv.enter (h : Inv cfg base s) {old : Phase R D} (hold : s.phase t = old) {txn : Txn R D}
    {c : Nat} (htxn : txn.Ready s.lease c) (hcur : old.current = none)
    (hheld : old.heldRows cfg = []) (hunstored : old.unstored = []) (hfills : old.fills = none) :
    Inv cfg base (s.goto t (cfg.enter txn c)) := by
  obtain ⟨hrows, -, hf, hl⟩ := cfg.enter_spec txn c
  refine h.pass hold _ hcur (fun r => ?_) (htxn.enter cfg) (by rw [hunstored]; exact nofun) hfills
    hf fun r v hloaded => ?_
  · rw [hrows, hheld]
  · rw [hl] at hloaded
    cases hloaded

theorem Inv.executing (h : Inv cfg base s) {txn : Txn R D} (hold : s.phase t = .executing txn)
    {r : R} {writes : Bool} (hnext : txn.prog.next txn.values = some (r, writes))
    (hfresh : r ∉ txn.accesses.map Access.origRow)
    (hunlocked : ¬ isLocked (s.rows r).word = true) :
    Inv cfg base (s.goto t (.copying txn r writes (s.rows r).word)) := by
  have hgood := h.good t
  rw [hold] at hgood
  have hlt := (h.wf r).unlocked hunlocked
  refine h.pass hold _ rfl (fun _ => Iff.rfl) ⟨hgood, hnext, hfresh, ?_⟩ nofun rfl rfl ?_
  · exact ⟨hlt, Nat.le_refl _, Nat.le_refl _, fun u hu _ => (h.ok r).sees (h.unlocked hlt).2.1 hu⟩
  · intro q v hl
    cases hl
    exact .inr hlt

theorem Inv.copying (h : Inv cfg base s) {txn : Txn R D} {r : R} {writes : Bool} {v : Nat}
    (hold : s.phase t = .copying txn r writes v) :
    Inv cfg base (s.goto t (.comparing txn r writes v (s.data r))) := by
  have hgood := h.good t
  rw [hold] at hgood
  obtain ⟨htxn, hnext, hfresh, hl⟩ := hgood
  refine h.pass hold _ rfl (fun _ => Iff.rfl) ⟨htxn, hnext, hfresh, hl, fun heq => ?_⟩ nofun rfl rfl
    fun q w hl => .inl hl
  refine h.data r fun u hu => ?_
  -- a row that is being filled has a later write timestamp
  have hlt := h.filling u t r v hu (by rw [hold]; rfl)
  exact Nat.lt_irrefl _ (heq ▸ hlt)

theorem Inv.comparing (h : Inv cfg base s) {txn : Txn R D} {r : R} {writes : Bool} {v : Nat}
    {copy : D} (hold : s.phase t = .comparing txn r writes v copy)
    (hword : (s.rows r).word ||| rtsMask = v ||| rtsMask) :
    Inv cfg base (s.goto t (.executing { txn with accesses := txn.accesses ++
      [⟨if writes then .wr else .rd, r, copy, copy, wtsOf v, getRts v⟩] })) := by
  have hgood := h.good t
  rw [hold] at hgood
  obtain ⟨htxn, hnext, hfresh, hl, hcopy⟩ := hgood
  obtain ⟨-, hwts⟩ := compare_words hl.lt (h.wf r).word_lt hword
  obtain ⟨u, hu, hdata⟩ := hcopy hwts.symm
  refine h.pass hold _ rfl (fun _ => Iff.rfl) ?_ nofun rfl rfl nofun
  exact htxn.access hnext hfresh (hl.sees u hu hwts.symm) hdata

theorem Inv.checking (h : Inv cfg base s) {txn : Txn R D} {held todo : List (Access R D)}
    {a : Access R D} {c : Nat} (hold : s.phase t = .checking txn held a todo c) :
    Inv cfg base (s.goto t (.aborting (held ++ [a]))) ∧
      (wtsOf (s.rows a.origRow).word = a.wts →
        Inv cfg base (s.goto t (.locking txn (held ++ [a]) todo c))) := by
  have hgood := h.good t
  rw [hold] at hgood
  obtain ⟨htxn, hcurrent, happend⟩ := hgood
  have happend' : (held ++ [a]) ++ todo = cfg.writeSet txn := by
    rw [List.append_assoc]
    exact happend
  constructor
  · refine h.pass hold _ rfl (fun _ => Iff.rfl) ?_ nofun rfl rfl nofun
    have hnodup := htxn.nodup_writeSet cfg
    rw [← happend', List.map_append, List.nodup_append] at hnodup
    exact hnodup.1
  · intro hwts
    refine h.pass hold _ rfl (fun _ => Iff.rfl) ⟨htxn, fun b hb => ?_, happend'⟩ nofun rfl rfl nofun
    rcases List.mem_append.mp hb with hb | hb
    · exact hcurrent b hb
    · rw [List.mem_singleton.mp hb]
      exact hwts.symm

theorem Inv.validated (h : Inv cfg base s) {txn : Txn R D} {a : Access R D}
    {todo : List (Access R D)} {c : Nat} (hold : s.phase t = .validating txn (a :: todo) c)
    (hle : ¬ a.rts < c) : Inv cfg base (s.goto t (.validating txn todo c)) := by
  have hgood := h.good t
  rw [hold] at hgood
  obtain ⟨htxn, hcurrent, hbelow, done, hdone, hrenewed⟩ := hgood
  have hmem : a ∈ txn.readSet := hdone ▸ List.mem_append_right _ (List.mem_cons_self ..)
  obtain ⟨u, hu, hvalue⟩ := htxn.sees a (Txn.mem_readSet.mp hmem).1
  refine h.pass hold _ rfl (fun _ => Iff.rfl)
    ⟨htxn, hcurrent, hbelow, done ++ [a], by rw [List.append_assoc]; exact hdone, ?_⟩ nofun rfl rfl
    nofun
  exact hrenewed.snoc (hu.toCovers.mono (Nat.le_of_not_lt hle))
    (Nat.le_trans hu.base (htxn.above a hmem)) hvalue

/-- Every step keeps the invariant, if no renewal shortens a lease. -/
theorem Inv.work (h : Inv cfg base s) (hext : Lengthens s (.work t))
    (hs : s.work cfg t = some s') : Inv cfg base s' := by
  have hgood := h.good t
  cases hold : s.phase t with
  | idle =>
      simp only [Sys.work, hold] at hs
      cases hs
  | executing txn =>
      rw [hold] at hgood
      simp only [Sys.work, hold] at hs
      split at hs
      · rename_i hnext
        cases hs
        exact h.enter hold (hgood.finish hnext) rfl rfl rfl rfl
      · rename_i r writes hnext
        split at hs
        · cases hs
        · rename_i hfree
          cases hs
          simp only [not_or] at hfree
          exact h.executing hold hnext hfree.1 hfree.2
  | copying txn r writes v =>
      simp only [Sys.work, hold] at hs
      cases hs
      exact h.copying hold
  | comparing txn r writes v copy =>
      rw [hold] at hgood
      simp only [Sys.work, hold] at hs
      split at hs
      · rename_i hword
        cases hs
        exact h.comparing hold hword
      · cases hs
        exact h.pass hold _ rfl (fun _ => Iff.rfl) hgood.1 nofun rfl rfl nofun
  | preAborting txn todo c =>
      rw [hold] at hgood
      cases todo with
      | nil =>
          simp only [Sys.work, hold] at hs
          cases hs
          exact h.pass hold _ rfl (fun _ => Iff.rfl) ⟨hgood, nofun, rfl⟩ nofun rfl rfl nofun
      | cons a todo =>
          simp only [Sys.work, hold] at hs
          split at hs
          · cases hs
            exact h.pass hold _ rfl (fun _ => Iff.rfl) List.nodup_nil nofun rfl rfl nofun
          · cases hs
            exact h.pass hold _ rfl (fun _ => Iff.rfl) hgood nofun rfl rfl nofun
  | locking txn held todo c =>
      rw [hold] at hgood
      cases todo with
      | nil =>
          simp only [Sys.work, hold] at hs
          cases hs
          obtain ⟨htxn, hcurrent, happend⟩ := hgood
          rw [List.append_nil] at happend
          refine h.pass hold _ rfl (fun r => ?_) ⟨htxn, happend ▸ hcurrent, [], rfl, nofun⟩ nofun
            rfl rfl nofun
          rw [Phase.heldRows, Phase.heldRows, Phase.held, Phase.held, happend]
      | cons a todo =>
          simp only [Sys.work, hold] at hs
          exact h.lock hold hs
  | checking txn held a todo c =>
      simp only [Sys.work, hold] at hs
      split at hs
      · cases hs
        exact (h.checking hold).1
      · rename_i hwts
        cases hs
        exact (h.checking hold).2 (Decidable.not_not.mp hwts)
  | backingOff txn todo c =>
      rw [hold] at hgood
      cases todo with
      | nil =>
          simp only [Sys.work, hold] at hs
          cases hs
          exact h.enter hold hgood.1 rfl rfl rfl rfl
      | cons a todo =>
          simp only [Sys.work, hold] at hs
          obtain ⟨hfresh, hrest⟩ := List.nodup_cons.mp hgood.2
          exact h.release hold hs rfl rfl rfl hfresh ⟨hgood.1, hrest⟩ rfl rfl rfl rfl rfl
  | raising txn todo c =>
      rw [hold] at hgood
      cases todo with
      | nil =>
          simp only [Sys.work, hold] at hs
          cases hs
          obtain ⟨htxn, hcurrent, done, hdone, hbelow⟩ := hgood
          rw [List.append_nil] at hdone
          exact h.pass hold _ rfl (fun _ => Iff.rfl)
            ⟨htxn, hcurrent, hdone ▸ hbelow, [], rfl, nofun⟩ nofun rfl rfl nofun
      | cons a todo =>
          simp only [Sys.work, hold] at hs
          obtain ⟨row, hstep, hs⟩ := Option.bind_eq_some_iff.mp hs
          cases hs
          refine h.raise hold hstep ?_ ?_ <;> split <;> omega
  | validating txn todo c =>
      cases todo with
      | nil =>
          simp only [Sys.work, hold] at hs
          cases hs
          exact h.commit hold
      | cons a todo =>
          simp only [Sys.work, hold] at hs
          split at hs
          · obtain ⟨row, hstep, hs⟩ := Option.bind_eq_some_iff.mp hs
            cases hs
            exact h.renewBegins hold hstep
          · rename_i hle
            cases hs
            exact h.validated hold hle
  | renewing txn a todo c =>
      simp only [Sys.work, hold] at hs
      simp only [Lengthens, hold] at hext
      exact h.renew hold hext hs
  | writing todo c =>
      cases todo with
      | nil =>
          simp only [Sys.work, hold] at hs
          cases hs
          exact h.pass hold _ rfl (fun _ => Iff.rfl) trivial nofun rfl rfl nofun
      | cons a todo =>
          simp only [Sys.work, hold] at hs
          exact h.write hold hs
  | filling a todo c =>
      simp only [Sys.work, hold] at hs
      cases hs
      exact h.fill hold
  | unlocking a todo c =>
      rw [hold] at hgood
      simp only [Sys.work, hold] at hs
      obtain ⟨hfresh, hrest⟩ := List.nodup_cons.mp hgood.2
      exact h.release hold hs rfl rfl rfl hfresh ⟨hgood.1, hrest⟩ rfl rfl rfl rfl rfl
  | aborting todo =>
      rw [hold] at hgood
      cases todo with
      | nil =>
          simp only [Sys.work, hold] at hs
          cases hs
          exact h.pass hold _ rfl (fun _ => Iff.rfl) trivial nofun rfl rfl nofun
      | cons a todo =>
          simp only [Sys.work, hold] at hs
          obtain ⟨hfresh, hrest⟩ := List.nodup_cons.mp hgood
          exact h.release hold hs rfl rfl rfl hfresh hrest rfl rfl rfl rfl rfl

theorem inv_step (h : Inv cfg base s) {a : TxnAction Thd R D} (hext : Lengthens s a)
    (hs : step cfg s a = some s') : Inv cfg base s' := by
  cases a with
  | start t prog =>
      simp only [Tictoc.step] at hs
      split at hs
      · rename_i hold
        cases hs
        refine h.pass hold _ rfl (fun _ => Iff.rfl) ?_ nofun rfl rfl nofun
        exact ⟨trivial, List.nodup_nil, nofun, nofun⟩
      · cases hs
  | work t => exact h.work hext hs
  | giveUp t =>
      simp only [Tictoc.step] at hs
      split at hs
      · rename_i txn hold
        cases hs
        exact h.pass hold _ rfl (fun _ => Iff.rfl) trivial nofun rfl rfl nofun
      · cases hs

omit [DecidableEq Thd] [DecidableEq R] in
/-- The commits and the versions that they leave, each with one stamp. -/
theorem Inv.versioned (h : Inv cfg base s) {n : Nat} (hn : s.committed.length < n) :
    Versioned (fun k : Commit R D => stampOf n k.wts k.place) (fun k => (k.prog, k.ops))
      s.committed base fun r => (s.lease r).stamped n := by
  have hplaces : ∀ r, ∀ v ∈ (s.lease r).versions, v.place < n := fun r v hv =>
    Nat.lt_of_le_of_lt (h.log.place_le hv) hn
  have hplace : ∀ k ∈ s.committed, k.place < n := fun k hk =>
    Nat.lt_of_le_of_lt (h.log.bound k hk).2 hn
  have hnodup : (s.committed.map Commit.place).Nodup :=
    List.pairwise_map.mpr (h.log.places.imp fun hlt => Nat.ne_of_gt hlt)
  constructor
  · exact List.Nodup.of_map _ hnodup
  · intro k hk l hl heq
    refine List.inj_on_of_nodup_map hnodup hk hl ?_
    rcases Nat.lt_trichotomy k.wts l.wts with hlt | hsame | hlt
    · exact absurd heq (Nat.ne_of_lt (stampOf_lt (hplace k hk) hlt))
    · have heq : stampOf n k.wts k.place = stampOf n l.wts l.place := heq
      rw [hsame] at heq
      exact Nat.add_left_cancel heq
    · exact absurd heq (Nat.ne_of_gt (stampOf_lt (hplace l hl) hlt))
  · intro k hk
    exact Nat.lt_of_lt_of_le (h.log.bound k hk).1 (Nat.le_add_left ..)
  · exact fun r => (h.ok r).stamped_sorted (hplaces r)
  · intro r
    have hmem := Row.mem_versions.mpr (.inr (h.log.first r))
    have hfirst := List.mem_map_of_mem (l := (s.lease r).versions)
      (f := fun v : Version D => (stampOf n v.stamp v.place, v.data)) hmem
    rw [stampOf, Nat.zero_mul] at hfirst
    exact hfirst
  · intro r v hv
    obtain ⟨w, hw, rfl⟩ := List.mem_map.mp hv
    rcases h.log.left r w hw with rfl | ⟨k, hk, hstamp, hpl, i, o, hget, hrow, hwr, hdata⟩
    · left
      show (stampOf n 0 0, base r) = (0, base r)
      rw [stampOf, Nat.zero_mul]
    · right
      refine ⟨k, hk, ?_, i, o, hget, hrow, hwr, hdata⟩
      show stampOf n w.stamp w.place = stampOf n k.wts k.place
      rw [hstamp, hpl]
  · intro k hk i o hget hw
    exact List.mem_map.mpr ⟨_, h.log.published k hk i o hget hw, rfl⟩
  · exact h.log.observes
  · intro k hk o ho
    obtain ⟨u, hu, hvalue⟩ := h.log.reads k hk o ho
    rw [← hvalue]
    exact hu.below (h.ok _) (hplaces _) (hplace k hk)

instance Lengthens.decidable (s : Sys Thd R D) (a : TxnAction Thd R D) :
    Decidable (Lengthens s a) :=
  match a with
  | .work t =>
      match hphase : s.phase t with
      | .renewing _ a _ _ =>
          decidable_of_iff (Extends (s.rows a.origRow) (.work t)) (by simp only [Lengthens, hphase])
      | .idle | .executing _ | .copying _ _ _ _ | .comparing _ _ _ _ _ | .preAborting _ _ _
      | .locking _ _ _ _ | .checking _ _ _ _ _ | .backingOff _ _ _ | .raising _ _ _
      | .validating _ _ _ | .writing _ _ | .filling _ _ _ | .unlocking _ _ _ | .aborting _ =>
          .isTrue (by simp only [Lengthens, hphase])
  | .start _ _ | .giveUp _ => .isTrue trivial

/-- **TicToc is serializable in the order of commit timestamps**, in every run in which no renewal
    shortens the lease that it finds: alone, one after another in that order, the committed
    transactions read the same values and leave the same rows. -/
theorem tictoc_serializable (cfg : Config R) (base : R → D) {as : List (TxnAction Thd R D)}
    (hext : AllSteps (step cfg) Lengthens (Sys.init base) as)
    (hrun : runs (step cfg) (Sys.init base) as = some s) (hidle : ∀ t, s.phase t = .idle) :
    ∃ order : List (Commit R D), order.Perm s.committed ∧
      order.Pairwise (fun k l => k.wts ≤ l.wts) ∧
      SerialHistory (order.map fun k => (k.prog, k.ops)) base s.data := by
  have h : Inv cfg base s :=
    runs_invariant (fun _ _ _ hi hc hs => inv_step hi hc hs) (Inv.init cfg base) hext hrun
  obtain ⟨n, hn⟩ : ∃ n, n = s.committed.length + 1 := ⟨_, rfl⟩
  have hlt : s.committed.length < n := by omega
  have hplace : ∀ k ∈ s.committed, k.place < n := fun k hk =>
    Nat.lt_of_le_of_lt (h.log.bound k hk).2 hlt
  obtain ⟨order, hperm, hsorted, hserial⟩ := (h.versioned hlt).serial
  refine ⟨order, hperm, hsorted.imp_of_mem fun {k l} _ hl hstamps => ?_, ?_⟩
  · by_contra hgt
    have hother : stampOf n l.wts l.place < stampOf n k.wts k.place :=
      stampOf_lt (hplace l (hperm.mem_iff.mp hl)) (Nat.lt_of_not_le hgt)
    exact Nat.lt_asymm hstamps hother
  · have hdata : s.data = newest base fun r => (s.lease r).stamped n := by
      funext r
      obtain ⟨u, hu, hvalue⟩ := h.data r fun t => by rw [hidle t]; exact nofun
      have hpend : s.pend r = none := by
        cases hp : s.pend r with
        | none => rfl
        | some v =>
            obtain ⟨t, ht⟩ := h.pend r v hp
            rw [hidle t] at ht
            cases ht
      have hhead : ((s.lease r).stamped n).head? = some (stampOf n u.stamp u.place, u.data) := by
        rw [Row.stamped, List.head?_map, Row.versions]
        show ((s.pend r).toList ++ s.stored r).head?.map _ = _
        rw [hpend, Option.toList_none, List.nil_append, hu]
        rfl
      rw [newest, hhead, ← hvalue]
      rfl
    rw [hdata]
    exact hserial

/-- Reads one row and leaves its contents, plus one, in the other. -/
def copyProgram : Program Bool Nat where
  next values :=
    match values with
    | [] => some (true, false)
    | [_] => some (false, true)
    | _ => none
  result values _ := values.headD 0 + 1

/-- Overwrites the row that `copyProgram` reads. -/
def setProgram : Program Bool Nat where
  next values := if values = [] then some (true, true) else none
  result _ _ := 50

def twoRows : Config Bool := ⟨true, true, fun r => r.toNat⟩

/-- The first transaction renews its lease up to the commit timestamp that the second one has before
    its locks, and the second one is done first. -/
def overtaking : List (TxnAction Bool Bool Nat) :=
  [.start true setProgram] ++ List.replicate 4 (.work true) ++ [.start false copyProgram] ++
    List.replicate 20 (.work false) ++ List.replicate 18 (.work true) ++
    List.replicate 9 (.work false)

def Phase.isIdle : Phase R D → Bool
  | .idle => true
  | _ => false

omit [DecidableEq R] in
theorem Phase.eq_idle {phase : Phase R D} (h : phase.isIdle = true) : phase = .idle := by
  cases phase with
  | idle => rfl
  | _ => cases h

theorem tictoc_serializable_overtaken :
    ∃ s : Sys Bool Bool Nat,
      runs (step twoRows) (Sys.init fun _ => 7) overtaking = some s ∧
      s.committed.map (fun k => k.wts) = [1, 2] ∧ s.data true = 50 ∧ s.data false = 8 ∧
      ∃ order : List (Commit Bool Nat), order.Perm s.committed ∧
        order.Pairwise (fun k l => k.wts ≤ l.wts) ∧
        SerialHistory (order.map fun k => (k.prog, k.ops)) (fun _ => 7) s.data := by
  have hsome : ((runs (step twoRows) (Sys.init fun _ => 7) overtaking).map fun s =>
      (s.committed.map (fun k => k.wts), s.data true, s.data false, (s.phase true).isIdle,
        (s.phase false).isIdle)) = some ([1, 2], 50, 8, true, true) := by
    decide +kernel
  obtain ⟨s, hrun, hs⟩ := Option.map_eq_some_iff.mp hsome
  simp only [Prod.mk.injEq] at hs
  obtain ⟨hstamps, htrue, hfalse, hidle, hidle'⟩ := hs
  have hext : AllSteps (step twoRows) Lengthens (Sys.init fun _ => 7) overtaking := by
    decide +kernel
  refine ⟨s, hrun, hstamps, htrue, hfalse,
    tictoc_serializable twoRows (fun _ => 7) hext hrun fun t => ?_⟩
  cases t with
  | true => exact Phase.eq_idle hidle
  | false => exact Phase.eq_idle hidle'

end Runs

end VeriTxn.Tictoc
