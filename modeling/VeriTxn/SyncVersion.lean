import VeriTxn.Types
import Mathlib.Data.List.Sort

/-!
# Announcing the pages of a commit

`txn_man::finish(RCOK)` with `IDX_HASH` and one of the locking `CC_ALG`s: the pages of
the accesses are sorted by address, and `sync_version` is called once for each of them.
Whether a page is announced as updated is read off the access that stands where the
page stands after sorting, and the accesses are not sorted.  The page versions that
`finish` compares first never change in a hash index.
-/

namespace VeriTxn

/-- What the loop reads of an `Access`: its type and the page of its row. -/
structure PageAccess where
  type : AccessT
  fromPage : Nat
deriving DecidableEq, Repr

/-- A call of `IndexEnc::sync_version`. -/
structure SyncCall where
  page : Nat
  commitT : Nat
  beginT : Nat
  updated : Bool
deriving DecidableEq, Repr

/-- The loop over the sorted pages; `prev` is `pages[i - 1]`, none for `i = 0`. -/
def syncLoop (commitT beginT : Nat) (prev : Option Nat) (synced : Bool) :
    List Nat → List PageAccess → List SyncCall
  | page :: pages, access :: accesses =>
      let synced := if prev ≠ some page then false else synced
      if ¬ synced then
        ⟨page, commitT, beginT, access.type = .wr⟩ ::
          syncLoop commitT beginT (some page) true pages accesses
      else syncLoop commitT beginT (some page) synced pages accesses
  | _, _ => []

/-- The calls of `sync_version` by `finish(RCOK)`. -/
def syncCalls (commitT beginT : Nat) (accesses : List PageAccess) : List SyncCall :=
  let pages := (accesses.map PageAccess.fromPage).insertionSort (· ≤ ·)
  syncLoop commitT beginT none false pages accesses

/-- How often a page is announced as updated. -/
def announcements (calls : List SyncCall) (page : Nat) : Nat :=
  calls.countP fun call => call.page = page ∧ call.updated

/-- Every page with a write is announced once, and no other page is. -/
def AnnouncesWrites (calls : List SyncCall) (accesses : List PageAccess) : Prop :=
  ∀ page, announcements calls page =
    if ∃ access ∈ accesses, access.fromPage = page ∧ access.type = .wr then 1 else 0

/-- The access that decides on a page: as many accesses as there are to pages at lower
    addresses stand before it. -/
def deciding (accesses : List PageAccess) (page : Nat) : Option PageAccess :=
  accesses[accesses.countP fun access => access.fromPage < page]?

/-! ### The loop -/

/-- In an ascending list the first place of an element is the number of smaller ones. -/
theorem idxOf_eq_countP_lt {xs : List Nat} (hord : xs.Pairwise (· ≤ ·)) {x : Nat} (hx : x ∈ xs) :
    xs.idxOf x = xs.countP (· < x) := by
  induction xs with
  | nil => cases hx
  | cons y xs ih =>
      obtain ⟨hle, hord⟩ := List.pairwise_cons.mp hord
      by_cases hy : y = x
      · subst hy
        have hnone : xs.countP (· < y) = 0 := by
          rw [List.countP_eq_zero]
          intro z hz
          simpa using hle z hz
        simp [hnone]
      · have hmem : x ∈ xs := (List.mem_cons.mp hx).resolve_left (Ne.symm hy)
        have hlt : y < x := Nat.lt_of_le_of_ne (hle x hmem) hy
        rw [List.idxOf_cons_ne _ hy, ih hord hmem, List.countP_cons_of_pos (by simpa using hlt)]

/-- Once a page is synced, only a new page is not. -/
theorem syncLoop_cons (commitT beginT : Nat) (prev : Option Nat) (page : Nat) (pages : List Nat)
    (access : PageAccess) (accesses : List PageAccess) :
    syncLoop commitT beginT prev true (page :: pages) (access :: accesses) =
      if prev = some page then syncLoop commitT beginT (some page) true pages accesses
      else ⟨page, commitT, beginT, access.type = .wr⟩ ::
        syncLoop commitT beginT (some page) true pages accesses := by
  by_cases hprev : prev = some page
  · simp [syncLoop, hprev]
  · simp [syncLoop, hprev]

/-- A page is announced by the access at its first place, if that is a write; the page
    before the loop not again. -/
theorem announcements_syncLoop (commitT beginT : Nat) {prev : Option Nat} {pages : List Nat}
    {accesses : List PageAccess} (hord : pages.Pairwise (· ≤ ·))
    (hprev : ∀ q, prev = some q → ∀ p ∈ pages, q ≤ p) (page : Nat) :
    announcements (syncLoop commitT beginT prev true pages accesses) page =
      if prev ≠ some page ∧ page ∈ pages ∧
        accesses[pages.idxOf page]?.map PageAccess.type = some .wr then 1 else 0 := by
  induction pages generalizing prev accesses with
  | nil => simp [syncLoop, announcements]
  | cons p pages ih =>
      obtain ⟨hle, hord⟩ := List.pairwise_cons.mp hord
      cases accesses with
      | nil => simp [syncLoop, announcements]
      | cons access accesses =>
          have hfrom : ∀ q, some p = some q → ∀ p' ∈ pages, q ≤ p' := by
            rintro q ⟨⟩
            exact hle
          have hrest : announcements (syncLoop commitT beginT (some p) true pages accesses) page =
              _ := ih hord hfrom
          rw [syncLoop_cons]
          by_cases hp : p = page
          · subst hp
            by_cases hsame : prev = some p
            · rw [if_pos hsame, hrest]
              simp [hsame]
            · rw [if_neg hsame]
              have hcons : ∀ call calls, announcements (call :: calls) p = announcements calls p +
                  if call.page = p ∧ call.updated then 1 else 0 := by
                intro call calls
                simp [announcements, List.countP_cons]
              rw [hcons, hrest]
              simp [hsame]
          · have hskip : announcements (if prev = some p then
                syncLoop commitT beginT (some p) true pages accesses
                else ⟨p, commitT, beginT, access.type = .wr⟩ ::
                  syncLoop commitT beginT (some p) true pages accesses) page =
                announcements (syncLoop commitT beginT (some p) true pages accesses) page := by
              split
              · rfl
              · simp [announcements, hp]
            rw [hskip, hrest]
            -- a page before the loop and not its first page is not in it
            have hgone : prev = some page → page ∉ pages := by
              intro hprev' hmem
              have := hprev page hprev' p (List.mem_cons_self ..)
              have := hle page hmem
              omega
            have hmem : page ∈ p :: pages ↔ page ∈ pages := by simp [Ne.symm hp]
            rw [List.idxOf_cons_ne _ hp, List.getElem?_cons_succ]
            refine if_congr ?_ rfl rfl
            rw [hmem]
            by_cases hprev' : prev = some page
            · simp [hgone hprev']
            · simp [hprev', hp]

/-- The first round is one like the others. -/
theorem syncLoop_first (commitT beginT : Nat) (pages : List Nat) (accesses : List PageAccess) :
    syncLoop commitT beginT none false pages accesses =
      syncLoop commitT beginT none true pages accesses := by
  cases pages with
  | nil => simp [syncLoop]
  | cons page pages =>
      cases accesses with
      | nil => simp [syncLoop]
      | cons access accesses => simp [syncLoop]

/-- What the commit announces of a page. -/
theorem announcements_syncCalls (commitT beginT : Nat) (accesses : List PageAccess) (page : Nat) :
    announcements (syncCalls commitT beginT accesses) page =
      if page ∈ accesses.map PageAccess.fromPage ∧
        (deciding accesses page).map PageAccess.type = some .wr then 1 else 0 := by
  have hperm := List.perm_insertionSort (· ≤ ·) (accesses.map PageAccess.fromPage)
  have hord := List.pairwise_insertionSort (· ≤ ·) (accesses.map PageAccess.fromPage)
  rw [syncCalls, syncLoop_first, announcements_syncLoop commitT beginT hord (by simp)]
  by_cases hmem : page ∈ accesses.map PageAccess.fromPage
  · have hplace : ((accesses.map PageAccess.fromPage).insertionSort (· ≤ ·)).idxOf page =
        accesses.countP fun access => access.fromPage < page := by
      rw [idxOf_eq_countP_lt hord (hperm.mem_iff.mpr hmem), hperm.countP_eq, List.countP_map]
      rfl
    rw [hplace]
    refine if_congr ?_ rfl rfl
    simp only [hperm.mem_iff, deciding, ne_eq, reduceCtorEq, not_false_eq_true, true_and]
  · simp only [hperm.mem_iff, hmem, false_and, and_false]

/-- A commit announces exactly the pages it wrote if and only if for every page the
    deciding access is a write just when the page has one. -/
theorem announces_writes_iff (commitT beginT : Nat) (accesses : List PageAccess) :
    AnnouncesWrites (syncCalls commitT beginT accesses) accesses ↔
      ∀ page ∈ accesses.map PageAccess.fromPage,
        ((deciding accesses page).map PageAccess.type = some .wr ↔
          ∃ access ∈ accesses, access.fromPage = page ∧ access.type = .wr) := by
  simp only [AnnouncesWrites, announcements_syncCalls]
  refine forall_congr' fun page => ?_
  by_cases hmem : page ∈ accesses.map PageAccess.fromPage
  · simp only [hmem, true_and, true_implies]
    by_cases hdecide : (deciding accesses page).map PageAccess.type = some .wr
    · simp [hdecide]
    · simp [hdecide]
  · have hnone : ¬ ∃ access ∈ accesses, access.fromPage = page ∧ access.type = .wr := by
      rintro ⟨access, haccess, rfl, -⟩
      exact hmem (List.mem_map_of_mem haccess)
    simp only [hmem, hnone, false_and, if_false, false_implies]

/-- Two accesses, the write to the page at the higher address first: the page that was
    only read is announced, and the written one is not. -/
theorem announces_wrong_page :
    ¬ AnnouncesWrites (syncCalls 7 3 [⟨.wr, 2⟩, ⟨.rd, 1⟩]) [⟨.wr, 2⟩, ⟨.rd, 1⟩] ∧
      syncCalls 7 3 [⟨.wr, 2⟩, ⟨.rd, 1⟩] = [⟨1, 7, 3, true⟩, ⟨2, 7, 3, false⟩] := by
  refine ⟨fun h => ?_, by decide⟩
  have hone := h 1
  revert hone
  decide

end VeriTxn
