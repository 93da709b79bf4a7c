import VeriTxn.IndexEncLostUpdate
import Mathlib.Data.List.Sort

/-!
# Pins and the cleanup of a transaction

`txn_man::cleanup` over the hash index, for `NO_WAIT` and `OCC`: it first releases
the page of every access, in the order of their addresses, then writes the log
entry, and only then gives the rows back, the last access first.  Its steps
interleave with the steps of other threads' `load_bucket`.  Row locks and row
latches touch no page and are left out.

An access comes from an `index_read` of its own, so it stands on a pin of its own.
-/

namespace VeriTxn.HashIndex

open Bytes Transition

/-- The schemes of this module. -/
inductive CcAlg where
  | noWait | occ
deriving DecidableEq, Repr

/-- `Access`: the row is the `i`-th of `key` on `page`, the page of `slot`. -/
structure Access where
  type : AccessT
  slot : PageId
  page : Nat
  key : IdxKey
  i : Nat
  data : List Byte
  origData : List Byte

/-- Where the transaction of a thread is: at work, or in the loop of `cleanup` that
    releases pages, or in the one that gives rows back. -/
inductive Phase where
  | running
  | releasing (rc : RC) (pages : List (PageId × Nat))
  | returning (rc : RC)

/-- A transaction: the accesses not yet given back, in the order of the loop. -/
structure Txn where
  accesses : List Access
  phase : Phase

/-- What `return_row` copies into the row, if anything. -/
def Access.installed (cc : CcAlg) (rc : RC) (access : Access) : Option (List Byte) :=
  let type := if access.type = .wr ∧ rc = .abort then .xp else access.type
  match cc with
  | .noWait => if type = .xp then some access.origData else none
  | .occ => if type = .wr then some access.data else none

def Access.onPage (access : Access) : PageId × Nat := (access.slot, access.page)

/-- The pages the transaction still has pins on for its accesses. -/
def Txn.unreleased (txn : Txn) : List (PageId × Nat) :=
  match txn.phase with
  | .running => txn.accesses.map Access.onPage
  | .releasing _ pages => pages
  | .returning _ => []

/-- `cleanup` is at work. -/
def Txn.cleaning (txn : Txn) : Bool :=
  match txn.phase with
  | .running => false
  | _ => true

/-- The slot that a step evicts. -/
def Sys.evicts {T : Type} (s : Sys T) : Sys.Action T → Option PageId
  | .swap t =>
      match s.pc t with
      | .copied p resBucket =>
          match s.index.swapIn p resBucket with
          | .ok (_, some swap) => swap.swapped.map Prod.fst
          | _ => none
      | _ => none
  | _ => none

/-- The thread of a step of `load_bucket`. -/
def Sys.Action.loader {T : Type} : Sys.Action T → Option T
  | .load t _ => some t
  | .copy t => some t
  | .swap t => some t
  | .unlatch t => some t
  | .refresh t => some t
  | .flush t => some t
  | .check t => some t
  | .write .. => none
  | .release .. => none

/-- The index, the threads, and a transaction for each. -/
structure TxnSys (T : Type) where
  sys : Sys T
  txns : T → Txn

namespace TxnSys

variable {T : Type}

def init (contents : PageId → Bucket) (bucketCnt partCnt siz : Nat) : TxnSys T where
  sys := Sys.init contents bucketCnt partCnt siz
  txns := fun _ => ⟨[], .running⟩

inductive Action (T : Type) where
  /-- a step of `load_bucket` -/
  | index (a : Sys.Action T)
  /-- `get_row` of a row of the page that an `index_read` has given -/
  | getRow (t : T) (slot : PageId) (page : Nat) (key : IdxKey) (i : Nat) (type : AccessT)
  /-- a change of the row that `get_row` returned for the `j`-th access -/
  | update (t : T) (j : Nat) (data : List Byte)
  /-- the start of `cleanup` -/
  | cleanup (t : T) (rc : RC)
  /-- `release_up_cache` of the next page -/
  | release (t : T)
  /-- `create_log_entry`, and the end of the first loops -/
  | log (t : T)
  | returnRow (t : T)
  /-- `row_cnt = 0` -/
  | done (t : T)

section Steps

variable [DecidableEq T]

def setTxn (s : TxnSys T) (t : T) (txn : Txn) : TxnSys T :=
  { s with txns := Function.update s.txns t txn }

/-- A step of `load_bucket`, made while the thread's transaction is at work. -/
def index (clock : Clock) (s : TxnSys T) (a : Sys.Action T) : Option (TxnSys T) :=
  match a.loader.map fun t => (s.txns t).phase with
  | some .running => (s.sys.step clock a).map fun sys => { s with sys := sys }
  | _ => none

def getRow (s : TxnSys T) (t : T) (slot : PageId) (page : Nat) (key : IdxKey) (i : Nat)
    (type : AccessT) : Option (TxnSys T) :=
  match (s.txns t).phase, s.sys.pc t with
  | .running, .idle =>
      if (s.txns t).unreleased.count (slot, page) < s.sys.held.count (t, slot, page) then do
        let p ← s.sys.index.pages page
        let row ← (readItem key p.nodes)[i]?
        some (s.setTxn t { s.txns t with
          accesses := (s.txns t).accesses ++ [⟨type, slot, page, key, i, row.data, row.data⟩] })
      else none
  | _, _ => none

/-- Under `OCC` the transaction changes its own copy, under `NO_WAIT` the row itself. -/
def update (cc : CcAlg) (s : TxnSys T) (t : T) (j : Nat) (data : List Byte) : Option (TxnSys T) :=
  match (s.txns t).phase, (s.txns t).accesses[j]? with
  | .running, some access =>
      if access.type = .wr then
        match cc with
        | .occ => some (s.setTxn t { s.txns t with
            accesses := (s.txns t).accesses.set j { access with data := data } })
        | .noWait => (s.sys.writeRow access.slot access.page access.key access.i data).map
            fun sys => { s with sys := sys }
      else none
  | _, _ => none

def cleanup (s : TxnSys T) (t : T) (rc : RC) : Option (TxnSys T) :=
  match (s.txns t).phase, s.sys.pc t with
  | .running, .idle => some (s.setTxn t { s.txns t with
      phase := .releasing rc (((s.txns t).accesses.map Access.onPage).insertionSort
        fun x y => x.2 ≤ y.2) })
  | _, _ => none

def release (s : TxnSys T) (t : T) : Option (TxnSys T) :=
  match (s.txns t).phase with
  | .releasing rc ((slot, page) :: pages) =>
      some { s.setTxn t { s.txns t with phase := .releasing rc pages } with
        sys := { s.sys with
          index := s.sys.index.releaseUpCache slot
          held := s.sys.held.erase (t, slot, page) } }
  | _ => none

def log (s : TxnSys T) (t : T) : Option (TxnSys T) :=
  match (s.txns t).phase with
  | .releasing rc [] => some (s.setTxn t ⟨(s.txns t).accesses.reverse, .returning rc⟩)
  | _ => none

def returnRow (cc : CcAlg) (s : TxnSys T) (t : T) : Option (TxnSys T) :=
  match (s.txns t).phase, (s.txns t).accesses with
  | .returning rc, access :: rest =>
      match access.installed cc rc with
      | none => some (s.setTxn t ⟨rest, .returning rc⟩)
      | some data =>
          (s.sys.writeRow access.slot access.page access.key access.i data).map fun sys =>
            { s.setTxn t ⟨rest, .returning rc⟩ with sys := sys }
  | _, _ => none

def done (s : TxnSys T) (t : T) : Option (TxnSys T) :=
  match (s.txns t).phase, (s.txns t).accesses with
  | .returning _, [] => some (s.setTxn t ⟨[], .running⟩)
  | _, _ => none

def step (cc : CcAlg) (clock : Clock) (s : TxnSys T) : Action T → Option (TxnSys T)
  | .index a => s.index clock a
  | .getRow t slot page key i type => s.getRow t slot page key i type
  | .update t j data => s.update cc t j data
  | .cleanup t rc => s.cleanup t rc
  | .release t => s.release t
  | .log t => s.log t
  | .returnRow t => s.returnRow cc t
  | .done t => s.done t

end Steps

/-- A page in `cleanup`: some access on it is not given back yet. -/
def Unreturned (s : TxnSys T) (p : PageId) : Prop :=
  ∃ t, (s.txns t).cleaning = true ∧ ∃ access ∈ (s.txns t).accesses, access.slot = p

/-- The condition on a step: it is one that loses no update of the index, and a
    `load_and_swap` evicts no page in `cleanup`. -/
def Careful (s : TxnSys T) : Action T → Prop
  | .index a => s.sys.Careful a ∧ ∀ p ∈ s.sys.evicts a, ¬ s.Unreturned p
  | _ => True

/-- Whenever `cleanup` is about to call `return_row` on an access, the page of the row
    is in the cache, and afterwards the page there has the value installed. -/
def ReturnsToPage (cc : CcAlg) [DecidableEq T] (s : TxnSys T) : Prop :=
  ∀ t rc access rest, s.txns t = ⟨access :: rest, .returning rc⟩ →
    s.sys.index.cache.value access.slot = some access.page ∧
    ∃ s', s.returnRow cc t = some s' ∧
      s'.sys.index.cache.value access.slot = some access.page ∧
      s'.sys.index.pages access.page = some ⟨access.slot, match access.installed cc rc with
        | none => s.sys.written access.slot
        | some data => setData access.key access.i data (s.sys.written access.slot)⟩

/-! ### What a step of `load_bucket` leaves in place -/

variable [DecidableEq T]

/-- Pins stay, and so does every page that is not evicted. -/
theorem step_keeps {clock : Clock} {s s' : Sys T} {a : Sys.Action T} {t : T}
    (hloader : a.loader = some t) (hstep : s.step clock a = some s') :
    s.held.Sublist s'.held ∧ ∀ p x, s.index.cache.value p = some x → s.evicts a ≠ some p →
      s'.index.cache.value p = some x := by
  cases a with
  | load t p =>
      simp only [Sys.step, Sys.load] at hstep
      split at hstep
      case h_1 cache cur hpc hload =>
        cases hstep
        obtain ⟨-, hvalues⟩ := LruCache.tryLoad_values hload
        exact ⟨List.sublist_cons_self .., fun q x hq _ => (hvalues q).trans hq⟩
      case h_2 cache hpc hload =>
        cases hstep
        obtain ⟨-, hvalues⟩ := LruCache.tryLoad_values hload
        exact ⟨List.Sublist.refl _, fun q x hq _ => (hvalues q).trans hq⟩
      case h_3 => cases hstep
  | copy t =>
      simp only [Sys.step, Sys.copy] at hstep
      split at hstep
      case h_2 => cases hstep
      case h_1 p hpc =>
        split at hstep
        case h_2 => cases hstep
        case h_1 index a hcopy =>
          obtain ⟨-, -, rfl⟩ := IndexEnc.copyIn_ok hcopy
          cases hstep
          exact ⟨List.Sublist.refl _, fun q x hq _ => hq⟩
  | swap t =>
      simp only [Sys.step, Sys.swap] at hstep
      split at hstep
      case h_2 => cases hstep
      case h_1 p a hpc =>
        split at hstep
        case h_3 => cases hstep
        case h_1 index hswap =>
          obtain ⟨page, cache, -, hload, rfl⟩ := IndexEnc.swapIn_ok hswap
          cases hstep
          refine ⟨List.Sublist.refl _, fun q x hq _ => ?_⟩
          rcases LruCache.loadAndSwap_values hload with ⟨y, -, hr, -⟩ | ⟨-, -, hv⟩ | ⟨-, hr, -⟩ |
            ⟨v, y, -, -, -, hr, -⟩
          · cases hr
          · exact (hv q).trans hq
          · cases hr
          · cases hr
        case h_2 index swap hswap =>
          have hevicts : s.evicts (.swap t) = swap.swapped.map Prod.fst := by
            simp only [Sys.evicts, hpc, hswap]
          obtain ⟨page, cache, -, hload, rfl⟩ := IndexEnc.swapIn_ok hswap
          cases hstep
          refine ⟨List.sublist_cons_self .., fun q x hq hnot => ?_⟩
          rw [hevicts] at hnot
          rcases LruCache.loadAndSwap_values hload with ⟨y, -, -, hv⟩ | ⟨-, hr, -⟩ |
            ⟨hmiss, -, hv⟩ | ⟨v, y, hmiss, -, -, hr, hv⟩
          · exact (hv q).trans hq
          · cases hr
          · refine (hv q).trans ((if_neg ?_).trans hq)
            rintro rfl
            rw [hmiss] at hq
            cases hq
          · cases hr
            refine (hv q).trans ((if_neg ?_).trans ((if_neg ?_).trans hq))
            · rintro rfl
              rw [hmiss] at hq
              cases hq
            · rintro rfl
              exact hnot rfl
  | unlatch t =>
      simp only [Sys.step, Sys.unlatch] at hstep
      split at hstep
      case h_2 => cases hstep
      case h_1 =>
        cases hstep
        exact ⟨List.Sublist.refl _, fun q x hq _ => hq⟩
  | refresh t =>
      simp only [Sys.step, Sys.refresh] at hstep
      split at hstep
      case h_2 => cases hstep
      case h_1 =>
        split at hstep
        case h_2 => cases hstep
        case h_1 index hrefresh =>
          obtain ⟨chain, rfl⟩ := IndexEnc.refreshTail_ok hrefresh
          cases hstep
          exact ⟨List.Sublist.refl _, fun q x hq _ => hq⟩
  | flush t =>
      simp only [Sys.step, Sys.flush] at hstep
      split at hstep
      case h_2 => cases hstep
      case h_1 =>
        split at hstep
        case h_2 => cases hstep
        case h_1 index hflush =>
          obtain ⟨page, -, -, rfl⟩ := IndexEnc.flushOut_ok hflush
          cases hstep
          exact ⟨List.Sublist.refl _, fun q x hq _ => hq⟩
  | check t =>
      simp only [Sys.step, Sys.check] at hstep
      split at hstep
      case h_2 => cases hstep
      case h_1 =>
        split at hstep
        case isTrue =>
          cases hstep
          exact ⟨List.Sublist.refl _, fun q x hq _ => hq⟩
        case isFalse =>
          split at hstep
          case h_2 => cases hstep
          case h_1 index hverify =>
            obtain ⟨verifyHash, rfl⟩ := IndexEnc.verify_ok hverify
            cases hstep
            exact ⟨List.Sublist.refl _, fun q x hq _ => hq⟩
  | write => cases hloader
  | release => cases hloader

/-! ### The invariant -/

/-- Every access not given back has its page in the cache, and as long as `cleanup`
    has not released it, a pin on it. -/
structure Inv (s : TxnSys T) : Prop where
  sys : s.sys.Inv
  pinned : ∀ t x, (s.txns t).unreleased.count x ≤ s.sys.held.count (t, x)
  resident : ∀ t, ∀ access ∈ (s.txns t).accesses,
    s.sys.index.cache.value access.slot = some access.page

theorem inv_init (contents : PageId → Bucket) (bucketCnt partCnt siz : Nat) :
    (init contents bucketCnt partCnt siz : TxnSys T).Inv where
  sys := Sys.inv_init contents bucketCnt partCnt siz
  pinned := fun _ _ => Nat.zero_le _
  resident := by
    intro t access haccess
    cases haccess

/-- A transaction moves on; the others and the pages stay. -/
theorem Inv.setTxn {s : TxnSys T} (h : s.Inv) {t : T} {txn : Txn}
    (hpinned : ∀ x, txn.unreleased.count x ≤ s.sys.held.count (t, x))
    (hresident : ∀ access ∈ txn.accesses,
      s.sys.index.cache.value access.slot = some access.page) : (s.setTxn t txn).Inv := by
  refine ⟨h.sys, fun t' x => ?_, fun t' => ?_⟩
  · by_cases ht : t' = t
    · subst ht
      simpa only [TxnSys.setTxn, Function.update_self] using hpinned x
    · simpa only [TxnSys.setTxn, Function.update_of_ne ht] using h.pinned t' x
  · by_cases ht : t' = t
    · subst ht
      simpa only [TxnSys.setTxn, Function.update_self] using hresident
    · simpa only [TxnSys.setTxn, Function.update_of_ne ht] using h.resident t'

/-- A row of a resident page changes; pins and slots stay. -/
theorem Inv.writeRow {s : TxnSys T} (h : s.Inv) {p : PageId} {a : Nat} {key : IdxKey} {i : Nat}
    {data : List Byte} {sys : Sys T} (hvalue : s.sys.index.cache.value p = some a)
    (hwrite : s.sys.writeRow p a key i data = some sys) :
    TxnSys.Inv { s with sys := sys } ∧ sys.index.cache = s.sys.index.cache ∧
      sys.held = s.sys.held ∧ sys.written = Function.update s.sys.written p
        (setData key i data (s.sys.written p)) := by
  have hsys := h.sys.writeRow hvalue hwrite
  simp only [Sys.writeRow, h.sys.loaded p a hvalue, Option.map_some, Option.some.injEq] at hwrite
  subst hwrite
  exact ⟨⟨hsys, h.pinned, h.resident⟩, rfl, rfl, rfl⟩

theorem Inv.index {clock : Clock} {s s' : TxnSys T} (h : s.Inv) {a : Sys.Action T}
    (hcareful : s.Careful (.index a)) (hstep : s.index clock a = some s') : s'.Inv := by
  obtain ⟨hcareful, hevicts⟩ := hcareful
  unfold TxnSys.index at hstep
  split at hstep
  case h_2 => cases hstep
  case h_1 hphase =>
    obtain ⟨t, hloader, -⟩ := Option.map_eq_some_iff.mp hphase
    obtain ⟨sys, hsys, rfl⟩ := Option.map_eq_some_iff.mp hstep
    have hsys' := h.sys.step hcareful hsys
    obtain ⟨hheld, hvalues⟩ := step_keeps hloader hsys
    have hcount : ∀ x, s.sys.held.count x ≤ sys.held.count x := fun x => hheld.count_le x
    refine ⟨hsys', fun t' x => (h.pinned t' x).trans (hcount _), fun t' access haccess => ?_⟩
    by_cases hcleaning : (s.txns t').cleaning = true
    · refine hvalues _ _ (h.resident t' access haccess) fun hevict => ?_
      exact hevicts _ hevict ⟨t', hcleaning, access, haccess, rfl⟩
    · -- a transaction at work has a pin for each of its accesses
      have hunreleased : (s.txns t').unreleased = (s.txns t').accesses.map Access.onPage := by
        cases hphase : (s.txns t').phase <;> simp [Txn.cleaning, hphase] at hcleaning
        simp [Txn.unreleased, hphase]
      have hpos : 0 < (s.txns t').unreleased.count access.onPage := by
        rw [List.count_pos_iff, hunreleased]
        exact List.mem_map_of_mem haccess
      refine hsys'.kept t' _ _ (List.count_pos_iff.mp ?_)
      exact hpos.trans_le ((h.pinned t' _).trans (hcount _))

theorem Inv.getRow {s s' : TxnSys T} (h : s.Inv) {t : T} {slot : PageId} {page : Nat}
    {key : IdxKey} {i : Nat} {type : AccessT}
    (hstep : s.getRow t slot page key i type = some s') : s'.Inv := by
  unfold TxnSys.getRow at hstep
  split at hstep
  case h_2 => cases hstep
  case h_1 hphase hpc =>
    split at hstep
    case isFalse => cases hstep
    case isTrue hpin =>
      obtain ⟨p, -, hstep⟩ := Option.bind_eq_some_iff.mp hstep
      obtain ⟨row, -, hstep⟩ := Option.bind_eq_some_iff.mp hstep
      cases hstep
      refine h.setTxn (fun x => ?_) fun access haccess => ?_
      · have hold := h.pinned t x
        simp only [Txn.unreleased, hphase, List.map_append, List.map_cons, List.map_nil,
          List.count_append] at hpin hold ⊢
        by_cases hx : x = (slot, page)
        · subst hx
          simp only [Access.onPage, List.count_singleton_self]
          omega
        · rw [List.count_eq_zero_of_not_mem (l := [_])]
          · exact hold
          · simpa [Access.onPage] using hx
      · rcases List.mem_append.mp haccess with haccess | haccess
        · exact h.resident t access haccess
        · rw [List.mem_singleton.mp haccess]
          exact h.sys.kept t slot page (List.count_pos_iff.mp (Nat.zero_lt_of_lt hpin))

theorem Inv.update {cc : CcAlg} {s s' : TxnSys T} (h : s.Inv) {t : T} {j : Nat}
    {data : List Byte} (hstep : s.update cc t j data = some s') : s'.Inv := by
  unfold TxnSys.update at hstep
  split at hstep
  case h_2 => cases hstep
  case h_1 access hphase haccess =>
    split at hstep
    case isFalse => cases hstep
    case isTrue =>
      have hmem : access ∈ (s.txns t).accesses := List.mem_of_getElem? haccess
      cases cc with
      | occ =>
          cases hstep
          refine h.setTxn (fun x => ?_) fun access' haccess' => ?_
          · have hold := h.pinned t x
            have hsame : ((s.txns t).accesses.set j { access with data := data }).map
                Access.onPage = (s.txns t).accesses.map Access.onPage := by
              refine List.ext_getElem? fun k => ?_
              by_cases hk : j = k
              · subst hk
                obtain ⟨hj, rfl⟩ := List.getElem?_eq_some_iff.mp haccess
                simp [Access.onPage, hj]
              · simp [hk]
            simpa only [Txn.unreleased, hphase, hsame] using hold
          · rcases List.mem_or_eq_of_mem_set haccess' with hold | rfl
            · exact h.resident t access' hold
            · exact h.resident t access hmem
      | noWait =>
          obtain ⟨sys, hwrite, rfl⟩ := Option.map_eq_some_iff.mp hstep
          exact (h.writeRow (h.resident t access hmem) hwrite).1

theorem Inv.cleanup {s s' : TxnSys T} (h : s.Inv) {t : T} {rc : RC}
    (hstep : s.cleanup t rc = some s') : s'.Inv := by
  unfold TxnSys.cleanup at hstep
  split at hstep
  case h_2 => cases hstep
  case h_1 hphase hpc =>
    cases hstep
    refine h.setTxn (fun x => ?_) (h.resident t)
    have hold := h.pinned t x
    simp only [Txn.unreleased, hphase] at hold ⊢
    rwa [(List.perm_insertionSort _ _).count_eq]

/-- The next page is released; the page itself stays where it is. -/
theorem Inv.release {s s' : TxnSys T} (h : s.Inv) {t : T} (hstep : s.release t = some s') :
    s'.Inv := by
  unfold TxnSys.release at hstep
  split at hstep
  case h_2 => cases hstep
  case h_1 rc slot page pages hphase =>
    cases hstep
    have hold : ∀ x, ((slot, page) :: pages).count x ≤ s.sys.held.count (t, x) := by
      intro x
      simpa only [Txn.unreleased, hphase] using h.pinned t x
    have hmem : (t, slot, page) ∈ s.sys.held := by
      refine List.count_pos_iff.mp (Nat.lt_of_lt_of_le ?_ (hold (slot, page)))
      simp
    refine ⟨h.sys.releasePin hmem, fun t' x => ?_, fun t' access haccess => ?_⟩
    · by_cases ht : t' = t
      · subst ht
        simp only [TxnSys.setTxn, Function.update_self, Txn.unreleased]
        have hx := hold x
        by_cases hxp : x = (slot, page)
        · subst hxp
          rw [List.count_cons_self] at hx
          rw [List.count_erase_self]
          omega
        · rw [List.count_cons_of_ne (fun heq => hxp heq.symm)] at hx
          rw [List.count_erase_of_ne]
          · exact hx
          · intro heq
            exact hxp (Prod.mk.inj heq).2
      · simp only [TxnSys.setTxn, Function.update_of_ne ht]
        rw [List.count_erase_of_ne]
        · exact h.pinned t' x
        · intro heq
          exact ht (Prod.mk.inj heq).1
    · refine (LruCache.value_release _ slot _).trans (h.resident t' access ?_)
      by_cases ht : t' = t
      · subst ht
        simpa only [TxnSys.setTxn, Function.update_self] using haccess
      · simpa only [TxnSys.setTxn, Function.update_of_ne ht] using haccess

theorem Inv.log {s s' : TxnSys T} (h : s.Inv) {t : T} (hstep : s.log t = some s') : s'.Inv := by
  unfold TxnSys.log at hstep
  split at hstep
  case h_2 => cases hstep
  case h_1 rc hphase =>
    cases hstep
    refine h.setTxn (fun x => Nat.zero_le _) fun access haccess => ?_
    exact h.resident t access (List.mem_reverse.mp haccess)

/-- `return_row` finds the page in the cache and leaves the installed value there. -/
theorem Inv.returnRow (cc : CcAlg) {s : TxnSys T} (h : s.Inv) {t : T} {rc : RC} {access : Access}
    {rest : List Access} (htxn : s.txns t = ⟨access :: rest, .returning rc⟩) :
    ∃ s', s.returnRow cc t = some s' ∧ s'.Inv ∧
      s'.sys.index.cache.value access.slot = some access.page ∧
      s'.sys.index.pages access.page = some ⟨access.slot, match access.installed cc rc with
        | none => s.sys.written access.slot
        | some data => setData access.key access.i data (s.sys.written access.slot)⟩ := by
  have hvalue : s.sys.index.cache.value access.slot = some access.page :=
    h.resident t access (by rw [htxn]; exact List.mem_cons_self ..)
  have hrest : ∀ access' ∈ rest, s.sys.index.cache.value access'.slot = some access'.page :=
    fun access' haccess' => h.resident t access' (by rw [htxn]; exact List.mem_cons_of_mem _ haccess')
  have hpage := h.sys.loaded _ _ hvalue
  simp only [TxnSys.returnRow, htxn]
  cases hinstalled : access.installed cc rc with
  | none =>
      refine ⟨_, rfl, h.setTxn (fun x => Nat.zero_le _) hrest, hvalue, hpage⟩
  | some data =>
      obtain ⟨sys, hwrite⟩ : ∃ sys, s.sys.writeRow access.slot access.page access.key access.i
          data = some sys := by
        simp only [Sys.writeRow, hpage, Option.map_some]
        exact ⟨_, rfl⟩
      obtain ⟨hinv, hcache, hheld, hwritten⟩ := h.writeRow hvalue hwrite
      have hvalue' : sys.index.cache.value access.slot = some access.page := by
        rw [hcache]
        exact hvalue
      have hnext : (TxnSys.setTxn { s with sys := sys } t ⟨rest, .returning rc⟩).Inv :=
        hinv.setTxn (fun x => Nat.zero_le _) fun access' haccess' =>
          (congrArg (LruCache.value · _) hcache).trans (hrest access' haccess')
      simp only [hwrite, Option.map_some]
      refine ⟨_, rfl, hnext, hvalue', ?_⟩
      · have hpage' := hinv.sys.loaded _ _ hvalue'
        rw [hwritten, Function.update_self] at hpage'
        exact hpage'

theorem Inv.done {s s' : TxnSys T} (h : s.Inv) {t : T} (hstep : s.done t = some s') : s'.Inv := by
  unfold TxnSys.done at hstep
  split at hstep
  case h_2 => cases hstep
  case h_1 =>
    cases hstep
    refine h.setTxn (fun x => Nat.zero_le _) ?_
    intro access haccess
    cases haccess

theorem Inv.step {cc : CcAlg} {clock : Clock} {s s' : TxnSys T} (h : s.Inv) {a : Action T}
    (hcareful : s.Careful a) (hstep : s.step cc clock a = some s') : s'.Inv := by
  cases a with
  | index a => exact h.index hcareful hstep
  | getRow t slot page key i type => exact h.getRow hstep
  | update t j data => exact h.update hstep
  | cleanup t rc => exact h.cleanup hstep
  | release t => exact h.release hstep
  | log t => exact h.log hstep
  | returnRow t =>
      have hreturn : s.returnRow cc t = some s' := hstep
      unfold TxnSys.returnRow at hreturn
      split at hreturn
      case h_2 => cases hreturn
      case h_1 rc access rest hphase haccesses =>
        have htxn : s.txns t = ⟨access :: rest, .returning rc⟩ := by
          rw [← hphase, ← haccesses]
        obtain ⟨s'', hs'', hinv, -⟩ := h.returnRow cc htxn
        rw [show s'' = s' from Option.some.inj (hs''.symm.trans hstep)] at hinv
        exact hinv
  | done t => exact h.done hstep

/-- In every run in which no page is evicted between the release of a transaction's
    pin on it and its `return_row`, `return_row` finds every page in the cache, and what
    it installs is what later loads give. -/
theorem page_resident_at_return (cc : CcAlg) (clock : Clock) (contents : PageId → Bucket)
    (bucketCnt partCnt siz : Nat) (as : List (Action T)) (s : TxnSys T)
    (hcareful : AllSteps (step cc clock) Careful (init contents bucketCnt partCnt siz) as)
    (hrun : runs (step cc clock) (init contents bucketCnt partCnt siz) as = some s) :
    s.ReturnsToPage cc ∧ s.sys.Current := by
  have hinv : s.Inv := runs_invariant (fun _ _ _ h hc hs => Inv.step h hc hs)
    (inv_init contents bucketCnt partCnt siz) hcareful hrun
  refine ⟨fun t rc access rest htxn => ?_, hinv.sys.current⟩
  obtain ⟨s', hs', -, hvalue, hpage⟩ := hinv.returnRow cc htxn
  refine ⟨hinv.resident t access ?_, s', hs', hvalue, hpage⟩
  rw [htxn]
  exact List.mem_cons_self ..

/-! ### The window between the two loops

Two buckets of one row each and room for one.  Thread `false` changes a row and
starts `cleanup`; thread `true` loads the other bucket. -/

instance [Fintype T] (s : TxnSys T) (p : PageId) : Decidable (s.Unreturned p) :=
  inferInstanceAs (Decidable (∃ _, _ ∧ ∃ _ ∈ _, _))

instance [Fintype T] (s : TxnSys T) : ∀ a, Decidable (s.Careful a)
  | .index _ => inferInstanceAs (Decidable (_ ∧ _))
  | .getRow .. | .update .. | .cleanup .. | .release _ | .log _ | .returnRow _ | .done _ =>
      .isTrue trivial

/-- Thread `false` changes the row, finishes with `rc` and releases its page. -/
def writeAndRelease (rc : RC) : List (Action Bool) :=
  [.index (.load false (0, 0)), .index (.copy false), .index (.swap false),
    .index (.unlatch false), .index (.check false), .getRow false (0, 0) 0 0 0 .wr,
    .update false 0 [1], .cleanup false rc, .release false]

/-- Thread `true` loads the other bucket. -/
def loadOther : List (Action Bool) :=
  [.index (.load true (0, 1)), .index (.copy true), .index (.swap true)]

/-- The row is given back before the other bucket is loaded. -/
def returnFirst : List (Action Bool) :=
  writeAndRelease .commit ++ [.log false, .returnRow false] ++ loadOther

theorem page_resident_at_return_first :
    ∃ s, runs (step .occ Sys.ticking) (init Sys.oneRowEach 2 1 1024) returnFirst = some s ∧
      s.sys.written (0, 0) = [⟨0, [⟨0, 0, [1]⟩]⟩] ∧
      s.ReturnsToPage .occ ∧ s.sys.Current :=
  ⟨_, rfl, rfl, page_resident_at_return .occ Sys.ticking Sys.oneRowEach 2 1 1024 returnFirst _
    (by decide) rfl⟩

/-- The page of a committing transaction under `OCC`, and of an aborting one under
    `NO_WAIT`, is evicted after its release: `return_row` finds it gone. -/
theorem page_gone_at_return :
    (∃ s, runs (step .occ Sys.ticking) (init Sys.oneRowEach 2 1 1024)
        (writeAndRelease .commit ++ loadOther ++ [.log false]) = some s ∧
      s.sys.index.cache.value (0, 0) = none ∧ ¬ s.ReturnsToPage .occ) ∧
    ∃ s, runs (step .noWait Sys.ticking) (init Sys.oneRowEach 2 1 1024)
        (writeAndRelease .abort ++ loadOther ++ [.log false]) = some s ∧
      s.sys.index.cache.value (0, 0) = none ∧ ¬ s.ReturnsToPage .noWait := by
  refine ⟨⟨_, rfl, rfl, fun h => ?_⟩, ⟨_, rfl, rfl, fun h => ?_⟩⟩
  · cases (h false .commit _ [] rfl).1
  · cases (h false .abort _ [] rfl).1

end TxnSys

end VeriTxn.HashIndex
