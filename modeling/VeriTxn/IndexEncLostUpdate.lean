import VeriTxn.IndexEncThreads

/-!
# When the hash index loses an update

The invariant of the threads says where the contents last written to each bucket
are: in the page in the cache, in the page a thread has evicted, or in the origin
bucket.  Every step keeps it, `load_and_swap` under the condition that the bucket
whose slot it fills is not in flight.  Pins keep the pages that threads hold in the
cache.
-/

namespace VeriTxn.HashIndex

open Bytes Transition

namespace Sys

variable {T : Type}


/-- The pins on a slot. -/
def pinsOf (held : List (T × PageId × Nat)) (p : PageId) : Nat := held.countP fun h => h.2.1 = p

/-- Where the contents of every bucket are, at every point of every thread. -/
structure Inv (s : Sys T) : Prop where
  accounts : s.index.cache.Accounts (pinsOf s.held)
  loaded : ∀ p a, s.index.cache.value p = some a → s.index.pages a = some ⟨p, s.written p⟩
  kept : ∀ t p a, (t, p, a) ∈ s.held → s.index.cache.value p = some a
  flying : ∀ t v x, (s.pc t).flying = some (v, x) →
    s.index.cache.value v = none ∧ s.index.pages x = some ⟨v, s.written v⟩
  alone : ∀ t t' v x x', (s.pc t).flying = some (v, x) → (s.pc t').flying = some (v, x') → t = t'
  stored : ∀ p, s.index.cache.value p = none → ¬ s.InFlight p → s.index.buckets p = s.written p
  latched : ∀ t p, (s.pc t).latching = some p → s.index.locked p = true
  owner : ∀ t t' p, (s.pc t).latching = some p → (s.pc t').latching = some p → t = t'
  copied : ∀ t p a, s.pc t = .copied p a → ∃ nodes, s.index.pages a = some ⟨p, nodes⟩ ∧
    (s.index.cache.value p = none → ¬ s.InFlight p → nodes = s.written p)
  spare : ∀ t a, (s.pc t).spare = some a → a < s.index.nextAddr ∧
    (∀ q, s.index.cache.value q ≠ some a) ∧ (∀ v, ¬ ∃ t', (s.pc t').flying = some (v, a)) ∧
    ∀ t', (s.pc t').spare = some a → t' = t
  fresh : ∀ a, s.index.nextAddr ≤ a → s.index.pages a = none

theorem inv_init (contents : PageId → Bucket) (bucketCnt partCnt siz : Nat) :
    (init contents bucketCnt partCnt siz : Sys T).Inv where
  accounts := LruCache.accounts_init bucketCnt partCnt siz
  loaded := by
    intro p a h
    cases h
  kept := by
    intro t p a h
    cases h
  flying := by
    intro t v x h
    cases h
  alone := by
    intro t t' v x x' h
    cases h
  stored := fun _ _ _ => rfl
  latched := by
    intro t p h
    cases h
  owner := by
    intro t t' p h
    cases h
  copied := by
    intro t p a h
    cases h
  spare := by
    intro t a h
    cases h
  fresh := fun _ _ => rfl

theorem Inv.current {s : Sys T} (h : s.Inv) : s.Current := by
  constructor
  · intro t p a hheld
    have hvalue := h.kept t p a hheld
    exact ⟨hvalue, h.loaded p a hvalue⟩
  · rintro p ⟨t, x, hfly⟩
    exact (h.flying t p x hfly).1

/-- Pages at addresses in use are not the next one. -/
theorem Inv.lt_nextAddr {s : Sys T} (h : s.Inv) {a : Nat} {page : Page}
    (hpage : s.index.pages a = some page) : a < s.index.nextAddr := by
  by_contra hle
  rw [h.fresh a (Nat.le_of_not_lt hle)] at hpage
  cases hpage

theorem pinsOf_cons (held : List (T × PageId × Nat)) (t : T) (p : PageId) (a : Nat) :
    pinsOf ((t, p, a) :: held) = Function.update (pinsOf held) p (pinsOf held p + 1) := by
  funext q
  by_cases hq : q = p
  · subst hq
    simp [pinsOf]
  · have hq' : ¬ p = q := fun h => hq h.symm
    simp [pinsOf, Function.update_of_ne hq, hq']

theorem pinsOf_pos {held : List (T × PageId × Nat)} {t : T} {p : PageId} {a : Nat}
    (h : (t, p, a) ∈ held) : 0 < pinsOf held p :=
  List.countP_pos_iff.mpr ⟨(t, p, a), h, by simp⟩

/-- A step that moves no contents: the cache's values, the pages and what the
    program counters stand for stay. -/
theorem Inv.transfer {s s' : Sys T} (h : s.Inv)
    (hvalues : ∀ q, s'.index.cache.value q = s.index.cache.value q)
    (hpages : s'.index.pages = s.index.pages) (hnext : s'.index.nextAddr = s.index.nextAddr)
    (hbuckets : s'.index.buckets = s.index.buckets) (hlocked : s'.index.locked = s.index.locked)
    (hwritten : s'.written = s.written) (hfly : ∀ t, (s'.pc t).flying = (s.pc t).flying)
    (hlatch : ∀ t, (s'.pc t).latching = (s.pc t).latching)
    (hspare : ∀ t, (s'.pc t).spare = (s.pc t).spare)
    (hcopied : ∀ t p a, s'.pc t = .copied p a → s.pc t = .copied p a)
    (haccounts : s'.index.cache.Accounts (pinsOf s'.held))
    (hkept : ∀ t p a, (t, p, a) ∈ s'.held → s.index.cache.value p = some a) : s'.Inv := by
  have hflight : ∀ p, s'.InFlight p ↔ s.InFlight p := by
    intro p
    simp only [InFlight, hfly]
  constructor
  · exact haccounts
  · simpa only [hvalues, hpages, hwritten] using h.loaded
  · simpa only [hvalues] using hkept
  · simpa only [hvalues, hpages, hwritten, hfly] using h.flying
  · simpa only [hfly] using h.alone
  · simpa only [hvalues, hflight, hbuckets, hwritten] using h.stored
  · simpa only [hlatch, hlocked] using h.latched
  · simpa only [hlatch] using h.owner
  · intro t p a hpc
    simpa only [hvalues, hflight, hpages, hwritten] using h.copied t p a (hcopied t p a hpc)
  · simpa only [hspare, hvalues, hfly, hnext] using h.spare
  · simpa only [hnext, hpages] using h.fresh

/-- A change of a row of a page that is in the cache. -/
theorem Inv.writeRow {s s' : Sys T} (h : s.Inv) {p : PageId} {a : Nat} {key : IdxKey} {i : Nat}
    {data : List Byte} (hvalue : s.index.cache.value p = some a)
    (hstep : s.writeRow p a key i data = some s') : s'.Inv := by
  have hpage := h.loaded p a hvalue
  simp only [Sys.writeRow, hpage, Option.map_some, Option.some.injEq] at hstep
  subst hstep
  have hkeep : ∀ b q nodes, s.index.pages b = some ⟨q, nodes⟩ → q ≠ p →
      Function.update s.index.pages a (some ⟨p, setData key i data (s.written p)⟩) b =
        some ⟨q, nodes⟩ := by
    intro b q nodes hb hq
    have hba : b ≠ a := by
      rintro rfl
      rw [hpage] at hb
      cases hb
      exact hq rfl
    rw [Function.update_of_ne hba, hb]
  have hother : ∀ q, s.index.cache.value q = none → q ≠ p := by
    rintro q hq rfl
    rw [hvalue] at hq
    cases hq
  constructor
  · exact h.accounts
  · intro q b hq
    by_cases hqp : q = p
    · subst hqp
      have hb : some a = some b := hvalue.symm.trans hq
      cases hb
      simp
    · simp only [Function.update_of_ne hqp]
      exact hkeep b q _ (h.loaded q b hq) hqp
  · exact h.kept
  · intro t v x hx
    obtain ⟨hnone, hpage'⟩ := h.flying t v x hx
    have hv := hother v hnone
    refine ⟨hnone, ?_⟩
    simp only [Function.update_of_ne hv]
    exact hkeep x v _ hpage' hv
  · exact h.alone
  · intro q hq hnot
    simp only [Function.update_of_ne (hother q hq)]
    exact h.stored q hq hnot
  · exact h.latched
  · exact h.owner
  · intro t q b hb
    obtain ⟨nodes, hnodes, hsame⟩ := h.copied t q b hb
    have hba : b ≠ a := by
      rintro rfl
      exact (h.spare t b (by rw [hb]; rfl)).2.1 p hvalue
    refine ⟨nodes, (Function.update_of_ne hba _ _).trans hnodes, fun hnone hnot => ?_⟩
    simp only [Function.update_of_ne (hother q hnone)]
    exact hsame hnone hnot
  · exact h.spare
  · intro b hb
    have hba : b ≠ a := by
      rintro rfl
      rw [h.fresh b hb] at hpage
      cases hpage
    exact (Function.update_of_ne hba _ _).trans (h.fresh b hb)

variable [DecidableEq T]

theorem pinsOf_erase {held : List (T × PageId × Nat)} {t : T} {p : PageId} {a : Nat}
    (h : (t, p, a) ∈ held) :
    pinsOf (held.erase (t, p, a)) = Function.update (pinsOf held) p (pinsOf held p - 1) := by
  have hperm : pinsOf held = pinsOf ((t, p, a) :: held.erase (t, p, a)) := by
    funext q
    exact (List.perm_cons_erase h).countP_eq _
  rw [hperm, pinsOf_cons]
  simp

/-- A projection of the program counters that a thread's move does not change. -/
theorem proj_update {α : Type} (f : Pc → α) {pc : T → Pc} {t : T} {new : Pc}
    (h : f new = f (pc t)) (t' : T) : f (Function.update pc t new t') = f (pc t') := by
  by_cases ht : t' = t
  · subst ht
    rw [Function.update_self, h]
  · rw [Function.update_of_ne ht]

theorem not_copied_update {pc : T → Pc} {t : T} {new : Pc} (hnew : ∀ p a, new ≠ .copied p a)
    (t' : T) (p : PageId) (a : Nat) (h : Function.update pc t new t' = .copied p a) :
    pc t' = .copied p a := by
  by_cases ht : t' = t
  · subst ht
    rw [Function.update_self] at h
    exact absurd h (hnew p a)
  · rwa [Function.update_of_ne ht] at h

theorem Inv.load {s s' : Sys T} (h : s.Inv) {t : T} {p : PageId}
    (hclock : s.index.cache.timestamp + 1 < 2 ^ 64) (hstep : s.load t p = some s') : s'.Inv := by
  unfold Sys.load at hstep
  split at hstep
  case h_1 cache cur hpc hload =>
    cases hstep
    obtain ⟨hcur, hvalues⟩ := LruCache.tryLoad_values hload
    refine h.transfer hvalues rfl rfl rfl rfl rfl (fun _ => rfl) (fun _ => rfl) (fun _ => rfl)
      (fun _ _ _ hpc => hpc) ?_ ?_
    · rw [pinsOf_cons]
      exact h.accounts.tryLoad hclock hload
    · intro t' q a hheld
      rcases List.mem_cons.mp hheld with hnew | hold
      · cases hnew
        exact hcur.symm
      · exact h.kept t' q a hold
  case h_2 cache hpc hload =>
    cases hstep
    obtain ⟨-, hvalues⟩ := LruCache.tryLoad_values hload
    refine h.transfer hvalues rfl rfl rfl rfl rfl ?_ ?_ ?_ ?_ (h.accounts.tryLoad_miss hload) h.kept
    · exact proj_update Pc.flying (by rw [hpc]; rfl)
    · exact proj_update Pc.latching (by rw [hpc]; rfl)
    · exact proj_update Pc.spare (by rw [hpc]; rfl)
    · exact not_copied_update (by simp)
  case h_3 => cases hstep

theorem Inv.copy {s s' : Sys T} (h : s.Inv) {t : T} (hstep : s.copy t = some s') : s'.Inv := by
  unfold Sys.copy at hstep
  split at hstep
  case h_2 => cases hstep
  case h_1 p hpc =>
    split at hstep
    case h_2 => cases hstep
    case h_1 index a hcopy =>
      obtain ⟨hfree, rfl, rfl⟩ := IndexEnc.copyIn_ok hcopy
      cases hstep
      have hfly : ∀ t', (Function.update s.pc t (.copied p s.index.nextAddr) t').flying =
          (s.pc t').flying := proj_update Pc.flying (by rw [hpc]; rfl)
      have hflight : ∀ q, InFlight (s.goto t (.copied p s.index.nextAddr) s.index) q ↔
          s.InFlight q := by
        intro q
        simp only [InFlight, goto, hfly]
      have hold : ∀ b page, s.index.pages b = some page →
          Function.update s.index.pages s.index.nextAddr (some ⟨p, s.index.buckets p⟩) b =
            some page := by
        intro b page hb
        rw [Function.update_of_ne (Nat.ne_of_lt (h.lt_nextAddr hb)), hb]
      -- no other thread can have the latch that was free
      have hother : ∀ t', (s.pc t').latching ≠ some p := by
        intro t' hlatch
        rw [h.latched t' p hlatch] at hfree
        cases hfree
      constructor
      · exact h.accounts
      · exact fun q b hq => hold b _ (h.loaded q b hq)
      · exact h.kept
      · intro t' v x hx
        obtain ⟨hnone, hpage⟩ := h.flying t' v x ((hfly t').symm.trans hx)
        exact ⟨hnone, hold x _ hpage⟩
      · intro t₁ t₂ v x x' h₁ h₂
        exact h.alone t₁ t₂ v x x' ((hfly t₁).symm.trans h₁) ((hfly t₂).symm.trans h₂)
      · exact fun q hq hnot => h.stored q hq fun hq' => hnot ((hflight q).mpr hq')
      · intro t' q hq
        by_cases hqp : q = p
        · subst hqp
          exact Function.update_self ..
        · refine (Function.update_of_ne hqp _ _).trans (h.latched t' q ?_)
          by_cases ht : t' = t
          · subst ht
            simp only [goto, Function.update_self] at hq
            exact absurd (Option.some.inj hq).symm hqp
          · simpa only [goto, Function.update_of_ne ht] using hq
      · intro t₁ t₂ q h₁ h₂
        by_cases ht₁ : t₁ = t
        · by_cases ht₂ : t₂ = t
          · rw [ht₁, ht₂]
          · subst ht₁
            simp only [goto, Function.update_self, Function.update_of_ne ht₂] at h₁ h₂
            cases h₁
            exact absurd h₂ (hother t₂)
        · by_cases ht₂ : t₂ = t
          · subst ht₂
            simp only [goto, Function.update_self, Function.update_of_ne ht₁] at h₁ h₂
            cases h₂
            exact absurd h₁ (hother t₁)
          · simp only [goto, Function.update_of_ne ht₁, Function.update_of_ne ht₂] at h₁ h₂
            exact h.owner t₁ t₂ q h₁ h₂
      · intro t' q b hb
        by_cases ht : t' = t
        · subst ht
          simp only [goto, Function.update_self] at hb
          cases hb
          refine ⟨s.index.buckets p, Function.update_self .., fun hnone hnot => ?_⟩
          exact h.stored p hnone fun hp => hnot ((hflight p).mpr hp)
        · simp only [goto, Function.update_of_ne ht] at hb
          obtain ⟨nodes, hnodes, hsame⟩ := h.copied t' q b hb
          exact ⟨nodes, hold b _ hnodes, fun hnone hnot =>
            hsame hnone fun hq => hnot ((hflight q).mpr hq)⟩
      · have hnew : ∀ t' b, (s.pc t').spare = some b → b ≠ s.index.nextAddr :=
          fun t' b hb => Nat.ne_of_lt (h.spare t' b hb).1
        intro t' b hb
        by_cases ht : t' = t
        · subst ht
          simp only [goto, Function.update_self] at hb
          cases hb
          refine ⟨Nat.lt_succ_self _, fun q hq => ?_, fun v hv => ?_, fun t'' ht'' => ?_⟩
          · exact absurd (h.lt_nextAddr (h.loaded q _ hq)) (lt_irrefl _)
          · obtain ⟨t'', hx⟩ := hv
            have hx' := (hfly t'').symm.trans hx
            exact absurd (h.lt_nextAddr (h.flying t'' v _ hx').2) (lt_irrefl _)
          · by_contra hne
            simp only [goto, Function.update_of_ne hne] at ht''
            exact hnew t'' _ ht'' rfl
        · simp only [goto, Function.update_of_ne ht] at hb
          obtain ⟨hlt, hvalue, hflying, hunique⟩ := h.spare t' b hb
          refine ⟨Nat.lt_succ_of_lt hlt, hvalue, fun v hv => ?_, fun t'' ht'' => ?_⟩
          · obtain ⟨t'', hx⟩ := hv
            exact hflying v ⟨t'', (hfly t'').symm.trans hx⟩
          · by_cases ht' : t'' = t
            · subst ht'
              simp only [goto, Function.update_self] at ht''
              exact absurd (Option.some.inj ht'').symm (hnew t' b hb)
            · simp only [goto, Function.update_of_ne ht'] at ht''
              exact hunique t'' ht''
      · intro b hb
        have hb' : s.index.nextAddr + 1 ≤ b := hb
        exact (Function.update_of_ne (by omega) _ _).trans (h.fresh b (by omega))

/-- `load_and_swap` has put the copy at `a` into the empty slot `p`, and taken out the victim. -/
structure Inserts (s : Sys T) (t : T) (p : PageId) (a : Nat) (victim : Option (PageId × Nat))
    (cache : LruCache Nat) : Prop where
  pc : s.pc t = .copied p a
  miss : s.index.cache.value p = none
  landed : ¬ s.InFlight p
  unpinned : ∀ v x, victim = some (v, x) →
    v ≠ p ∧ s.index.cache.value v = some x ∧ pinsOf s.held v = 0
  inserted : cache.value p = some a
  values : ∀ q, q ≠ p → cache.value q =
    if victim.map Prod.fst = some q then none else s.index.cache.value q

/-- The state after it. -/
def afterInsert (s : Sys T) (t : T) (p : PageId) (a : Nat) (victim : Option (PageId × Nat))
    (cache : LruCache Nat) : Sys T :=
  { s.goto t (.swapped p a ⟨victim, a⟩) { s.index with cache := cache } with
    held := (t, p, a) :: s.held }

section Inserts

variable {s : Sys T} {t : T} {p : PageId} {a : Nat} {victim : Option (PageId × Nat)}
  {cache : LruCache Nat}

omit [DecidableEq T] in
theorem Inserts.flying (hs : s.Inserts t p a victim cache) : (s.pc t).flying = none := by
  rw [hs.pc]
  rfl

theorem afterInsert_flying :
    ((s.afterInsert t p a victim cache).pc t).flying = victim := by
  simp only [afterInsert, goto, Function.update_self, Pc.flying]

theorem afterInsert_pc {t' : T} (ht : t' ≠ t) :
    (s.afterInsert t p a victim cache).pc t' = s.pc t' := Function.update_of_ne ht _ _

omit [DecidableEq T] in
theorem Inserts.before (hs : s.Inserts t p a victim cache) {q : PageId} {b : Nat} (hq : q ≠ p)
    (hb : cache.value q = some b) : s.index.cache.value q = some b := by
  rw [hs.values q hq] at hb
  split at hb
  · cases hb
  · exact hb

/-- A bucket that is nowhere now was nowhere before. -/
theorem Inserts.gone (hs : s.Inserts t p a victim cache) {q : PageId}
    (hq : cache.value q = none) (hnot : ¬ (s.afterInsert t p a victim cache).InFlight q) :
    s.index.cache.value q = none ∧ ¬ s.InFlight q := by
  have hqp : q ≠ p := by
    rintro rfl
    rw [hs.inserted] at hq
    cases hq
  constructor
  · rw [hs.values q hqp] at hq
    split at hq
    · next hmap =>
        obtain ⟨⟨v, x⟩, hx, rfl⟩ := Option.map_eq_some_iff.mp hmap
        exact absurd ⟨t, x, afterInsert_flying.trans hx⟩ hnot
    · exact hq
  · rintro ⟨t', x, hx⟩
    have ht : t' ≠ t := by
      rintro rfl
      rw [hs.flying] at hx
      cases hx
    exact hnot ⟨t', x, by rw [afterInsert_pc ht]; exact hx⟩

/-- What is held is not the victim. -/
theorem Inserts.kept (hs : s.Inserts t p a victim cache) (h : s.Inv) {t' : T} {q : PageId} {b : Nat}
    (hheld : (t', q, b) ∈ (s.afterInsert t p a victim cache).held) : cache.value q = some b := by
  rcases List.mem_cons.mp hheld with hnew | hold
  · cases hnew
    exact hs.inserted
  · have hold' := h.kept t' q b hold
    have hqp : q ≠ p := by
      rintro rfl
      rw [hs.miss] at hold'
      cases hold'
    refine (hs.values q hqp).trans ?_
    rw [if_neg, hold']
    intro hmap
    obtain ⟨⟨v, x⟩, hx, rfl⟩ := Option.map_eq_some_iff.mp hmap
    exact absurd (hs.unpinned v x hx).2.2 (Nat.ne_of_gt (pinsOf_pos hold))

/-- The victim, and what was in flight before, is out of the cache. -/
theorem Inserts.evicted (hs : s.Inserts t p a victim cache) (h : s.Inv) {t' : T} {v : PageId}
    {x : Nat} (hx : ((s.afterInsert t p a victim cache).pc t').flying = some (v, x)) :
    cache.value v = none ∧ s.index.pages x = some ⟨v, s.written v⟩ := by
  by_cases ht : t' = t
  · subst ht
    rw [afterInsert_flying] at hx
    obtain ⟨hvp, hvalue, -⟩ := hs.unpinned v x hx
    refine ⟨?_, h.loaded v x hvalue⟩
    exact (hs.values v hvp).trans (if_pos (by rw [hx]; rfl))
  · rw [afterInsert_pc ht] at hx
    obtain ⟨hnone, hpage⟩ := h.flying t' v x hx
    have hvp : v ≠ p := by
      rintro rfl
      exact hs.landed ⟨t', x, hx⟩
    refine ⟨(hs.values v hvp).trans ?_, hpage⟩
    split
    · rfl
    · exact hnone

theorem Inserts.alone (hs : s.Inserts t p a victim cache) (h : s.Inv) {t₁ t₂ : T} {v : PageId}
    {x x' : Nat} (h₁ : ((s.afterInsert t p a victim cache).pc t₁).flying = some (v, x))
    (h₂ : ((s.afterInsert t p a victim cache).pc t₂).flying = some (v, x')) : t₁ = t₂ := by
  -- the victim was in the cache, so that no other thread had it in flight
  have hfirst : ∀ {u : T} {y y' : Nat}, u ≠ t → victim = some (v, y) →
      (s.pc u).flying ≠ some (v, y') := by
    intro u y y' hu hy hy'
    have hvalue := (hs.unpinned v y hy).2.1
    rw [(h.flying u v y' hy').1] at hvalue
    cases hvalue
  by_cases ht₁ : t₁ = t
  · by_cases ht₂ : t₂ = t
    · rw [ht₁, ht₂]
    · subst ht₁
      rw [afterInsert_flying] at h₁
      rw [afterInsert_pc ht₂] at h₂
      exact absurd h₂ (hfirst ht₂ h₁)
  · rw [afterInsert_pc ht₁] at h₁
    by_cases ht₂ : t₂ = t
    · subst ht₂
      rw [afterInsert_flying] at h₂
      exact absurd h₁ (hfirst ht₁ h₂)
    · rw [afterInsert_pc ht₂] at h₂
      exact h.alone t₁ t₂ v x x' h₁ h₂

/-- The copies that other threads have made are theirs still. -/
theorem Inserts.spare (hs : s.Inserts t p a victim cache) (h : s.Inv) {t' : T} {b : Nat}
    (hb : ((s.afterInsert t p a victim cache).pc t').spare = some b) :
    b < s.index.nextAddr ∧ (∀ q, cache.value q ≠ some b) ∧
      (∀ v, ¬ ∃ u, ((s.afterInsert t p a victim cache).pc u).flying = some (v, b)) ∧
      ∀ u, ((s.afterInsert t p a victim cache).pc u).spare = some b → u = t' := by
  have hother : ∀ {u : T}, ((s.afterInsert t p a victim cache).pc u).spare = some b → u ≠ t := by
    rintro u hu rfl
    simp only [afterInsert, goto, Function.update_self, Pc.spare, if_true] at hu
    cases hu
  have ht := hother hb
  rw [afterInsert_pc ht] at hb
  obtain ⟨hlt, hvalue, hflying, hunique⟩ := h.spare t' b hb
  refine ⟨hlt, fun q hq => ?_, fun v hv => ?_, fun u hu => ?_⟩
  · by_cases hqp : q = p
    · subst hqp
      have hba : some a = some b := hs.inserted.symm.trans hq
      cases hba
      exact ht (hunique t (by rw [hs.pc]; rfl)).symm
    · exact hvalue q (hs.before hqp hq)
  · obtain ⟨u, hx⟩ := hv
    by_cases hut : u = t
    · subst hut
      rw [afterInsert_flying] at hx
      exact hvalue v (hs.unpinned v b hx).2.1
    · rw [afterInsert_pc hut] at hx
      exact hflying v ⟨u, hx⟩
  · rw [afterInsert_pc (hother hu)] at hu
    exact hunique u hu

/-- An insertion into an empty slot keeps the invariant. -/
theorem Inv.inserted (h : s.Inv) (hs : s.Inserts t p a victim cache)
    (haccounts : cache.Accounts (pinsOf ((t, p, a) :: s.held))) :
    (s.afterInsert t p a victim cache).Inv := by
  have hlatch : ∀ t', (Function.update s.pc t (.swapped p a ⟨victim, a⟩) t').latching =
      (s.pc t').latching := proj_update Pc.latching (by rw [hs.pc]; rfl)
  constructor
  · exact haccounts
  · intro q b hq
    by_cases hqp : q = p
    · subst hqp
      have hb : some a = some b := hs.inserted.symm.trans hq
      cases hb
      obtain ⟨nodes, hnodes, hsame⟩ := h.copied t q a hs.pc
      rw [hsame hs.miss hs.landed] at hnodes
      exact hnodes
    · exact h.loaded q b (hs.before hqp hq)
  · exact fun t' q b hheld => hs.kept h hheld
  · exact fun t' v x hx => hs.evicted h hx
  · exact fun t₁ t₂ v x x' h₁ h₂ => hs.alone h h₁ h₂
  · intro q hq hnot
    obtain ⟨hnone, hnot'⟩ := hs.gone hq hnot
    exact h.stored q hnone hnot'
  · exact fun t' q hq => h.latched t' q ((hlatch t').symm.trans hq)
  · intro t₁ t₂ q h₁ h₂
    exact h.owner t₁ t₂ q ((hlatch t₁).symm.trans h₁) ((hlatch t₂).symm.trans h₂)
  · intro t' q b hb
    obtain ⟨nodes, hnodes, hsame⟩ := h.copied t' q b (not_copied_update (by simp) t' q b hb)
    refine ⟨nodes, hnodes, fun hnone hnot => ?_⟩
    obtain ⟨hnone', hnot'⟩ := hs.gone hnone hnot
    exact hsame hnone' hnot'
  · exact fun t' b hb => hs.spare h hb
  · exact h.fresh

end Inserts

theorem Inv.swap {s s' : Sys T} (h : s.Inv) {t : T} (hcareful : s.Careful (.swap t))
    (hstep : s.swap t = some s') : s'.Inv := by
  obtain ⟨hclock, hcareful⟩ := hcareful
  unfold Sys.swap at hstep
  split at hstep
  case h_2 => cases hstep
  case h_1 p a hpc =>
    split at hstep
    case h_3 => cases hstep
    case h_1 index hswap =>
      obtain ⟨page, cache, -, hload, rfl⟩ := IndexEnc.swapIn_ok hswap
      cases hstep
      have hvalues : ∀ q, cache.value q = s.index.cache.value q := by
        rcases LruCache.loadAndSwap_values hload with ⟨x, -, hr, -⟩ | ⟨-, -, hv⟩ | ⟨-, hr, -⟩ |
          ⟨v, x, -, -, -, hr, -⟩
        · cases hr
        · exact hv
        · cases hr
        · cases hr
      exact h.transfer hvalues rfl rfl rfl rfl rfl (fun _ => rfl) (fun _ => rfl) (fun _ => rfl)
        (fun _ _ _ hpc => hpc) (h.accounts.loadAndSwap_abort hload) h.kept
    case h_2 index swap hswap =>
      obtain ⟨page, cache, -, hload, rfl⟩ := IndexEnc.swapIn_ok hswap
      cases hstep
      obtain ⟨haccounts, hunpinned⟩ := h.accounts.loadAndSwap hclock hload
      rw [← pinsOf_cons s.held t p swap.res] at haccounts
      have hspare := h.spare t a (by rw [hpc]; rfl)
      rcases LruCache.loadAndSwap_values hload with ⟨x, hx, hr, hvalues⟩ | ⟨-, hr, -⟩ |
        ⟨hmiss, hr, hvalues⟩ | ⟨v, x, hmiss, hv, hx, hr, hvalues⟩ <;> cases hr
      · -- another thread has loaded the bucket meanwhile
        have hne : x ≠ a := by
          rintro rfl
          exact hspare.2.1 p hx
        refine h.transfer hvalues rfl rfl rfl rfl rfl ?_ ?_ ?_ ?_ haccounts ?_
        · exact proj_update Pc.flying (by rw [hpc]; rfl)
        · exact proj_update Pc.latching (by rw [hpc]; rfl)
        · exact proj_update Pc.spare (by rw [hpc]; simp [Pc.spare, hne])
        · exact not_copied_update (by simp)
        · intro t' q b hheld
          rcases List.mem_cons.mp hheld with hnew | hold
          · cases hnew
            exact hx
          · exact h.kept t' q b hold
      · have hlanded := hcareful p (by rw [hpc]; rfl) hmiss
        have hs : s.Inserts t p a none cache := by
          refine ⟨hpc, hmiss, hlanded, by simp, ?_, ?_⟩
          · rw [hvalues, if_pos rfl]
          · intro q hq
            rw [hvalues, if_neg hq]
            simp
        exact h.inserted hs haccounts
      · have hlanded := hcareful p (by rw [hpc]; rfl) hmiss
        have hs : s.Inserts t p a (some (v, x)) cache := by
          refine ⟨hpc, hmiss, hlanded, ?_, ?_, ?_⟩
          · intro v' x' hx'
            cases hx'
            exact ⟨hv, hx, hunpinned v x rfl⟩
          · rw [hvalues, if_pos rfl]
          · intro q hq
            rw [hvalues, if_neg hq]
            simp [eq_comm]
        exact h.inserted hs haccounts

theorem Inv.unlatch {s s' : Sys T} (h : s.Inv) {t : T} (hstep : s.unlatch t = some s') :
    s'.Inv := by
  unfold Sys.unlatch at hstep
  split at hstep
  case h_2 => cases hstep
  case h_1 p a swap hpc =>
    cases hstep
    have hfly : ∀ t', (Function.update s.pc t (.unlatched p a swap) t').flying =
        (s.pc t').flying := proj_update Pc.flying (by rw [hpc]; rfl)
    have hspare : ∀ t', (Function.update s.pc t (.unlatched p a swap) t').spare =
        (s.pc t').spare := proj_update Pc.spare (by rw [hpc]; rfl)
    have hlatch : ∀ t' q, (Function.update s.pc t (.unlatched p a swap) t').latching = some q →
        (s.pc t').latching = some q ∧ q ≠ p := by
      intro t' q hq
      by_cases ht : t' = t
      · subst ht
        simp [Pc.latching] at hq
      · rw [Function.update_of_ne ht] at hq
        refine ⟨hq, ?_⟩
        rintro rfl
        exact ht (h.owner t' t q hq (by rw [hpc]; rfl))
    constructor
    · exact h.accounts
    · exact h.loaded
    · exact h.kept
    · exact fun t' v x hx => h.flying t' v x ((hfly t').symm.trans hx)
    · intro t₁ t₂ v x x' h₁ h₂
      exact h.alone t₁ t₂ v x x' ((hfly t₁).symm.trans h₁) ((hfly t₂).symm.trans h₂)
    · intro q hq hnot
      refine h.stored q hq ?_
      rintro ⟨t', x, hx⟩
      exact hnot ⟨t', x, (hfly t').trans hx⟩
    · intro t' q hq
      obtain ⟨hq', hqp⟩ := hlatch t' q hq
      exact (Function.update_of_ne hqp _ _).trans (h.latched t' q hq')
    · exact fun t₁ t₂ q h₁ h₂ => h.owner t₁ t₂ q (hlatch t₁ q h₁).1 (hlatch t₂ q h₂).1
    · intro t' q b hb
      obtain ⟨nodes, hnodes, hsame⟩ := h.copied t' q b (not_copied_update (by simp) t' q b hb)
      refine ⟨nodes, hnodes, fun hnone hnot => hsame hnone ?_⟩
      rintro ⟨t'', x, hx⟩
      exact hnot ⟨t'', x, (hfly t'').trans hx⟩
    · intro t' b hb
      obtain ⟨hlt, hvalue, hflying, hunique⟩ := h.spare t' b ((hspare t').symm.trans hb)
      refine ⟨hlt, hvalue, ?_, fun t'' ht'' => hunique t'' ((hspare t'').symm.trans ht'')⟩
      rintro v ⟨t'', hx⟩
      exact hflying v ⟨t'', (hfly t'').symm.trans hx⟩
    · exact h.fresh

theorem Inv.refresh {clock : Clock} {s s' : Sys T} (h : s.Inv) {t : T}
    (hstep : s.refresh clock t = some s') : s'.Inv := by
  unfold Sys.refresh at hstep
  split at hstep
  case h_2 => cases hstep
  case h_1 p a sw x res hpc =>
    split at hstep
    case h_2 => cases hstep
    case h_1 index hrefresh =>
      obtain ⟨chain, rfl⟩ := IndexEnc.refreshTail_ok hrefresh
      cases hstep
      refine h.transfer (fun _ => rfl) rfl rfl rfl rfl rfl ?_ ?_ ?_ ?_ h.accounts h.kept
      · exact proj_update Pc.flying (by rw [hpc]; rfl)
      · exact proj_update Pc.latching (by rw [hpc]; rfl)
      · exact proj_update Pc.spare (by rw [hpc]; rfl)
      · exact not_copied_update (by simp)

/-- `flush_out` ends the flight: the origin bucket has the contents again. -/
theorem Inv.flush {s s' : Sys T} (h : s.Inv) {t : T} (hstep : s.flush t = some s') : s'.Inv := by
  unfold Sys.flush at hstep
  split at hstep
  case h_2 => cases hstep
  case h_1 p a sw x res hpc =>
    split at hstep
    case h_2 => cases hstep
    case h_1 index hflush =>
      obtain ⟨page, hpage, hfree, rfl⟩ := IndexEnc.flushOut_ok hflush
      cases hstep
      have hflyt : (s.pc t).flying = some (sw, x) := by rw [hpc]; rfl
      obtain ⟨hnone, hpage'⟩ := h.flying t sw x hflyt
      rw [hpage'] at hpage
      cases hpage
      have hspare : ∀ t', (Function.update s.pc t (.unlatched p a ⟨none, res⟩) t').spare =
          (s.pc t').spare := proj_update Pc.spare (by rw [hpc]; rfl)
      have hlatch : ∀ t', (Function.update s.pc t (.unlatched p a ⟨none, res⟩) t').latching =
          (s.pc t').latching := proj_update Pc.latching (by rw [hpc]; rfl)
      -- what still flies belongs to another thread and another slot
      have hfly : ∀ t' v b, (Function.update s.pc t (.unlatched p a ⟨none, res⟩) t').flying =
          some (v, b) → (s.pc t').flying = some (v, b) ∧ v ≠ sw := by
        intro t' v b hb
        by_cases ht : t' = t
        · subst ht
          simp [Pc.flying] at hb
        · rw [Function.update_of_ne ht] at hb
          refine ⟨hb, ?_⟩
          rintro rfl
          exact ht (h.alone t' t v b x hb hflyt)
      have hflight : ∀ q, q ≠ sw → s.InFlight q →
          InFlight (s.goto t (.unlatched p a ⟨none, res⟩) s.index) q := by
        rintro q hq ⟨t', b, hb⟩
        have ht : t' ≠ t := by
          rintro rfl
          rw [hflyt] at hb
          cases hb
          exact hq rfl
        exact ⟨t', b, by simpa only [goto, Function.update_of_ne ht] using hb⟩
      have hkeep : ∀ b q nodes, s.index.pages b = some ⟨q, nodes⟩ → q ≠ sw →
          Function.update s.index.pages x none b = some ⟨q, nodes⟩ := by
        intro b q nodes hb hq
        have hbx : b ≠ x := by
          rintro rfl
          rw [hpage'] at hb
          cases hb
          exact hq rfl
        rw [Function.update_of_ne hbx, hb]
      have hlocked : ∀ q, s.index.locked q = true → q ≠ sw := by
        rintro q hq rfl
        rw [hfree] at hq
        cases hq
      constructor
      · exact h.accounts
      · intro q b hq
        refine hkeep b q _ (h.loaded q b hq) ?_
        rintro rfl
        have hq' : s.index.cache.value q = some b := hq
        rw [hnone] at hq'
        cases hq'
      · exact h.kept
      · intro t' v b hb
        obtain ⟨hb', hv⟩ := hfly t' v b hb
        obtain ⟨hnone', hpage''⟩ := h.flying t' v b hb'
        exact ⟨hnone', hkeep b v _ hpage'' hv⟩
      · intro t₁ t₂ v b b' h₁ h₂
        exact h.alone t₁ t₂ v b b' (hfly t₁ v b h₁).1 (hfly t₂ v b' h₂).1
      · intro q hq hnot
        by_cases hqsw : q = sw
        · subst hqsw
          exact Function.update_self ..
        · refine (Function.update_of_ne hqsw _ _).trans (h.stored q hq fun hq' => ?_)
          exact hnot (hflight q hqsw hq')
      · intro t' q hq
        have hlocked' := h.latched t' q ((hlatch t').symm.trans hq)
        exact (Function.update_of_ne (hlocked q hlocked') _ _).trans hlocked'
      · intro t₁ t₂ q h₁ h₂
        exact h.owner t₁ t₂ q ((hlatch t₁).symm.trans h₁) ((hlatch t₂).symm.trans h₂)
      · intro t' q b hb
        have hb' := not_copied_update (by simp) t' q b hb
        obtain ⟨nodes, hnodes, hsame⟩ := h.copied t' q b hb'
        have hq : q ≠ sw := hlocked q (h.latched t' q (by rw [hb']; rfl))
        exact ⟨nodes, hkeep b q nodes hnodes hq, fun hnone' hnot =>
          hsame hnone' fun hq' => hnot (hflight q hq hq')⟩
      · intro t' b hb
        obtain ⟨hlt, hvalue, hflying, hunique⟩ := h.spare t' b ((hspare t').symm.trans hb)
        refine ⟨hlt, hvalue, ?_, fun t'' ht'' => hunique t'' ((hspare t'').symm.trans ht'')⟩
        rintro v ⟨t'', hx⟩
        exact hflying v ⟨t'', (hfly t'' v b hx).1⟩
      · intro b hb
        by_cases hbx : b = x
        · subst hbx
          exact Function.update_self ..
        · exact (Function.update_of_ne hbx _ _).trans (h.fresh b hb)

theorem Inv.check {clock : Clock} {s s' : Sys T} (h : s.Inv) {t : T}
    (hstep : s.check clock t = some s') : s'.Inv := by
  unfold Sys.check at hstep
  split at hstep
  case h_2 => cases hstep
  case h_1 p a res hpc =>
    have hfly : ∀ t', (Function.update s.pc t .idle t').flying = (s.pc t').flying :=
      proj_update Pc.flying (by rw [hpc]; rfl)
    have hlatch : ∀ t', (Function.update s.pc t .idle t').latching = (s.pc t').latching :=
      proj_update Pc.latching (by rw [hpc]; rfl)
    split at hstep
    case isTrue hne =>
      -- the copy that came too late is deleted
      cases hstep
      have hspare : (s.pc t).spare = some a := by
        rw [hpc]
        simp [Pc.spare, hne]
      obtain ⟨-, hvalue, hflying, hunique⟩ := h.spare t a hspare
      have hkeep : ∀ b page, s.index.pages b = some page → b ≠ a →
          Function.update s.index.pages a none b = some page := by
        intro b page hb hba
        rw [Function.update_of_ne hba, hb]
      have hspare' : ∀ t' b, (Function.update s.pc t .idle t').spare = some b →
          (s.pc t').spare = some b ∧ t' ≠ t := by
        intro t' b hb
        by_cases ht : t' = t
        · subst ht
          simp [Pc.spare] at hb
        · exact ⟨by rwa [Function.update_of_ne ht] at hb, ht⟩
      constructor
      · exact h.accounts
      · intro q b hq
        refine hkeep b _ (h.loaded q b hq) ?_
        rintro rfl
        exact hvalue q hq
      · exact h.kept
      · intro t' v b hb
        have hb' := (hfly t').symm.trans hb
        obtain ⟨hnone, hpage⟩ := h.flying t' v b hb'
        refine ⟨hnone, hkeep b _ hpage ?_⟩
        rintro rfl
        exact hflying v ⟨t', hb'⟩
      · intro t₁ t₂ v x x' h₁ h₂
        exact h.alone t₁ t₂ v x x' ((hfly t₁).symm.trans h₁) ((hfly t₂).symm.trans h₂)
      · intro q hq hnot
        refine h.stored q hq ?_
        rintro ⟨t', x, hx⟩
        exact hnot ⟨t', x, (hfly t').trans hx⟩
      · exact fun t' q hq => h.latched t' q ((hlatch t').symm.trans hq)
      · intro t₁ t₂ q h₁ h₂
        exact h.owner t₁ t₂ q ((hlatch t₁).symm.trans h₁) ((hlatch t₂).symm.trans h₂)
      · intro t' q b hb
        have hb' := not_copied_update (by simp) t' q b hb
        obtain ⟨nodes, hnodes, hsame⟩ := h.copied t' q b hb'
        refine ⟨nodes, hkeep b _ hnodes ?_, fun hnone hnot => hsame hnone ?_⟩
        · rintro rfl
          have ht := hunique t' (by rw [hb']; rfl)
          rw [ht, hpc] at hb'
          cases hb'
        · rintro ⟨t'', x, hx⟩
          exact hnot ⟨t'', x, (hfly t'').trans hx⟩
      · intro t' b hb
        obtain ⟨hb', ht⟩ := hspare' t' b hb
        obtain ⟨hlt, hvalue', hflying', hunique'⟩ := h.spare t' b hb'
        refine ⟨hlt, hvalue', ?_, fun t'' ht'' => hunique' t'' (hspare' t'' b ht'').1⟩
        rintro v ⟨t'', hx⟩
        exact hflying' v ⟨t'', (hfly t'').symm.trans hx⟩
      · intro b hb
        by_cases hba : b = a
        · subst hba
          exact Function.update_self ..
        · exact (Function.update_of_ne hba _ _).trans (h.fresh b hb)
    case isFalse heq =>
      split at hstep
      case h_2 => cases hstep
      case h_1 index hverify =>
        obtain ⟨verifyHash, rfl⟩ := IndexEnc.verify_ok hverify
        cases hstep
        refine h.transfer (fun _ => rfl) rfl rfl rfl rfl rfl hfly hlatch ?_ ?_ h.accounts h.kept
        · refine proj_update Pc.spare ?_
          rw [hpc]
          simpa [Pc.spare] using heq
        · exact not_copied_update (by simp)

/-- A pin is given back. -/
theorem Inv.releasePin {s : Sys T} (h : s.Inv) {t : T} {p : PageId} {a : Nat}
    (hheld : (t, p, a) ∈ s.held) : Sys.Inv { s with
      index := s.index.releaseUpCache p
      held := s.held.erase (t, p, a) } := by
  refine h.transfer (LruCache.value_release _ p) rfl rfl rfl rfl rfl (fun _ => rfl)
    (fun _ => rfl) (fun _ => rfl) (fun _ _ _ hpc => hpc) ?_ ?_
  · simp only [pinsOf_erase hheld]
    exact h.accounts.release (pinsOf_pos hheld)
  · exact fun t' q b hb => h.kept t' q b (List.mem_of_mem_erase hb)

theorem Inv.release {s s' : Sys T} (h : s.Inv) {t : T} {p : PageId} {a : Nat}
    (hstep : s.release t p a = some s') : s'.Inv := by
  unfold Sys.release at hstep
  split at hstep
  case h_2 => cases hstep
  case h_1 =>
    split at hstep
    case isFalse => cases hstep
    case isTrue hheld =>
      cases hstep
      exact h.releasePin hheld

theorem Inv.step {clock : Clock} {s s' : Sys T} (h : s.Inv) {a : Action T} (hcareful : s.Careful a)
    (hstep : s.step clock a = some s') : s'.Inv := by
  cases a with
  | load t p => exact h.load hcareful hstep
  | copy t => exact h.copy hstep
  | swap t => exact h.swap hcareful hstep
  | unlatch t => exact h.unlatch hstep
  | refresh t => exact h.refresh hstep
  | flush t => exact h.flush hstep
  | check t => exact h.check hstep
  | write t p a key i data =>
      simp only [Sys.step, Sys.write] at hstep
      split at hstep
      case h_2 => cases hstep
      case h_1 =>
        split at hstep
        case isFalse => cases hstep
        case isTrue hheld => exact h.writeRow (h.kept t p a hheld) hstep
  | release t p a => exact h.release hstep

/-- In every run in which no `load_and_swap` fills the slot of a bucket that is in
    flight, every bucket a thread holds has the contents last written to it, and no
    bucket is back in the cache before `flush_out` has written it back. -/
theorem no_update_lost (clock : Clock) (contents : PageId → Bucket) (bucketCnt partCnt siz : Nat)
    (as : List (Action T)) (s : Sys T)
    (hcareful : AllSteps (step clock) Careful (init contents bucketCnt partCnt siz) as)
    (hrun : runs (step clock) (init contents bucketCnt partCnt siz) as = some s) : s.Current :=
  (runs_invariant (fun _ _ _ h hc hs => Inv.step h hc hs)
    (inv_init contents bucketCnt partCnt siz) hcareful hrun).current

/-! ### The window between an eviction and its `flush_out`

Two buckets of one row each and room for one: thread `true` evicts the bucket that
thread `false` has changed. -/

/-- A clock that counts its calls. -/
def ticking : Clock := ⟨fun n => n, fun _ _ h => h⟩

def oneRowEach (p : PageId) : Bucket := [⟨Fin.ofNat _ p.2, [⟨0, 0, [0]⟩]⟩]

/-- The bucket is loaded, changed and released, then evicted for another one. -/
def evictChanged : List (Action Bool) :=
  [.load false (0, 0), .copy false, .swap false, .unlatch false, .check false,
    .write false (0, 0) 0 0 0 [1], .release false (0, 0) 0,
    .load true (0, 1), .copy true, .swap true]

/-- The evicted bucket is written back before it is loaded again. -/
def reloadFlushed : List (Action Bool) :=
  evictChanged ++ [.unlatch true, .refresh true, .flush true, .check true,
    .load false (0, 0), .copy false, .swap false]

/-- The evicted bucket is loaded again before it is written back. -/
def reloadInFlight : List (Action Bool) :=
  evictChanged ++ [.load false (0, 0), .copy false, .swap false, .unlatch false, .check false]

/-- After `flush_out` the bucket is loaded again as it was changed. -/
theorem no_update_lost_reload :
    ∃ s, runs (step ticking) (init oneRowEach 2 1 1024) reloadFlushed = some s ∧
      (false, (0, 0), 2) ∈ s.held ∧ s.written (0, 0) = [⟨0, [⟨0, 0, [1]⟩]⟩] ∧ s.Current :=
  ⟨_, rfl, by decide, rfl,
    no_update_lost ticking oneRowEach 2 1 1024 reloadFlushed _ (by decide) rfl⟩

/-- Before it, the stale origin passes the comparison with the stale hash: the thread
    that wrote the row gets the bucket without its own change. -/
theorem update_lost_in_flight :
    ∃ s, runs (step ticking) (init oneRowEach 2 1 1024) reloadInFlight = some s ∧
      s.pc false = .idle ∧ (false, (0, 0), 2) ∈ s.held ∧ ¬ s.Current := by
  refine ⟨_, rfl, rfl, by decide, ?_⟩
  rintro ⟨hheld, -⟩
  have hpage := (hheld false (0, 0) 2 (by decide)).2
  cases hpage

end Sys

end VeriTxn.HashIndex
