import VeriTxn.IndexEnc
import VeriTxn.Transition
import Mathlib.Data.Fintype.Basic

/-!
# The verified hash index under several threads

Threads run `load_bucket` in parallel and change rows of the buckets they hold.
A step of a thread is one operation of the cache, one of a hash chain, one copy of
a bucket under its latch, one `flush_out`, or one change of a row.  The latches of
`BucketHeader_ENC` only make a thread wait and are left out: every interleaving they
allow is one of these.

A page that `load_and_swap` removed is in flight until `flush_out` has written it
back.  In between it is neither in the cache nor in its origin bucket.
-/

namespace VeriTxn.HashIndex

open Bytes Transition

/-- Where a thread is in `load_bucket`. -/
inductive Pc where
  | idle
  /-- `try_load` found nothing -/
  | missed (p : PageId)
  /-- the origin is copied to `resBucket` and its latch held -/
  | copied (p : PageId) (resBucket : Nat)
  /-- `load_and_swap` returned, the latch is still held -/
  | swapped (p : PageId) (resBucket : Nat) (swap : Swap Nat)
  /-- the latch is released; what was evicted is still to be written back -/
  | unlatched (p : PageId) (resBucket : Nat) (swap : Swap Nat)
  /-- the chain of what was evicted has its new hash -/
  | refreshed (p : PageId) (resBucket : Nat) (swap : Swap Nat)

namespace Pc

/-- The page this thread has evicted and not yet written back. -/
def flying : Pc → Option (PageId × Nat)
  | .swapped _ _ swap => swap.swapped
  | .unlatched _ _ swap => swap.swapped
  | .refreshed _ _ swap => swap.swapped
  | _ => none

/-- The origin bucket whose latch this thread holds. -/
def latching : Pc → Option PageId
  | .copied p _ => some p
  | .swapped p _ _ => some p
  | _ => none

/-- The slot that this thread's next `load_and_swap` is for. -/
def filling : Pc → Option PageId
  | .copied p _ => some p
  | _ => none

/-- A copy of a bucket that only this thread knows. -/
def spare : Pc → Option Nat
  | .copied _ resBucket => some resBucket
  | .swapped _ resBucket swap => if swap.res = resBucket then none else some resBucket
  | .unlatched _ resBucket swap => if swap.res = resBucket then none else some resBucket
  | .refreshed _ resBucket swap => if swap.res = resBucket then none else some resBucket
  | _ => none

end Pc

/-- The index and the threads at work on it. -/
structure Sys (T : Type) where
  index : IndexEnc
  pc : T → Pc
  /-- the pins: thread, slot and page of every load not yet released -/
  held : List (T × PageId × Nat)
  /-- what was last written to each bucket, by whichever thread -/
  written : PageId → Bucket

namespace Sys

variable {T : Type}

def init (contents : PageId → Bucket) (bucketCnt partCnt siz : Nat) : Sys T where
  index := IndexEnc.init contents bucketCnt partCnt siz
  pc := fun _ => .idle
  held := []
  written := contents

section Steps

variable [DecidableEq T]

/-- Thread `t` goes on at `pc` with the index `index`. -/
def goto (s : Sys T) (t : T) (pc : Pc) (index : IndexEnc) : Sys T :=
  { s with pc := Function.update s.pc t pc, index := index }

/-- A row of the page at `a`, which is or was the page of slot `p`, gets new data. -/
def writeRow (s : Sys T) (p : PageId) (a : Nat) (key : IdxKey) (i : Nat) (data : List Byte) :
    Option (Sys T) :=
  (s.index.pages a).map fun page =>
    { s with
      index := { s.index with
        pages := Function.update s.index.pages a
          (some { page with nodes := setData key i data page.nodes }) }
      written := Function.update s.written p (setData key i data (s.written p)) }

inductive Action (T : Type) where
  /-- `try_load` -/
  | load (t : T) (p : PageId)
  | copy (t : T)
  /-- `load_and_swap` -/
  | swap (t : T)
  | unlatch (t : T)
  | refresh (t : T)
  /-- `flush_out`, and `delete` of the page -/
  | flush (t : T)
  /-- the comparison with the chain, or `delete` of the copy that came too late -/
  | check (t : T)
  | write (t : T) (p : PageId) (a : Nat) (key : IdxKey) (i : Nat) (data : List Byte)
  /-- `release_up_cache` -/
  | release (t : T) (p : PageId) (a : Nat)

def load (s : Sys T) (t : T) (p : PageId) : Option (Sys T) :=
  match s.pc t, s.index.cache.tryLoad p with
  | .idle, some (cache, some cur) =>
      some { s with index := { s.index with cache := cache }, held := (t, p, cur) :: s.held }
  | .idle, some (cache, none) => some (s.goto t (.missed p) { s.index with cache := cache })
  | _, _ => none

def copy (s : Sys T) (t : T) : Option (Sys T) :=
  match s.pc t with
  | .missed p =>
      match s.index.copyIn p with
      | .ok (index, resBucket) => some (s.goto t (.copied p resBucket) index)
      | .error _ => none
  | _ => none

def swap (s : Sys T) (t : T) : Option (Sys T) :=
  match s.pc t with
  | .copied p resBucket =>
      match s.index.swapIn p resBucket with
      | .ok (index, none) => some { s with index := index }
      | .ok (index, some swap) =>
          some { s.goto t (.swapped p resBucket swap) index with
            held := (t, p, swap.res) :: s.held }
      | .error _ => none
  | _ => none

def unlatch (s : Sys T) (t : T) : Option (Sys T) :=
  match s.pc t with
  | .swapped p resBucket swap => some (s.goto t (.unlatched p resBucket swap) (s.index.unlatch p))
  | _ => none

def refresh (clock : Clock) (s : Sys T) (t : T) : Option (Sys T) :=
  match s.pc t with
  | .unlatched p resBucket ⟨some (sw, flushed), res⟩ =>
      match s.index.refreshTail clock sw flushed with
      | .ok index => some (s.goto t (.refreshed p resBucket ⟨some (sw, flushed), res⟩) index)
      | .error _ => none
  | _ => none

def flush (s : Sys T) (t : T) : Option (Sys T) :=
  match s.pc t with
  | .refreshed p resBucket ⟨some (sw, flushed), res⟩ =>
      match s.index.flushOut sw flushed with
      | .ok index => some (s.goto t (.unlatched p resBucket ⟨none, res⟩) (index.deletePage flushed))
      | .error _ => none
  | _ => none

def check (clock : Clock) (s : Sys T) (t : T) : Option (Sys T) :=
  match s.pc t with
  | .unlatched p resBucket ⟨none, res⟩ =>
      if res ≠ resBucket then some (s.goto t .idle (s.index.deletePage resBucket))
      else
        match s.index.verify clock p res with
        | .ok index => some (s.goto t .idle index)
        | .error _ => none
  | _ => none

def release (s : Sys T) (t : T) (p : PageId) (a : Nat) : Option (Sys T) :=
  match s.pc t with
  | .idle =>
      if (t, p, a) ∈ s.held then
        some { s with index := s.index.releaseUpCache p, held := s.held.erase (t, p, a) }
      else none
  | _ => none

def write (s : Sys T) (t : T) (p : PageId) (a : Nat) (key : IdxKey) (i : Nat) (data : List Byte) :
    Option (Sys T) :=
  match s.pc t with
  | .idle => if (t, p, a) ∈ s.held then s.writeRow p a key i data else none
  | _ => none

def step (clock : Clock) (s : Sys T) : Action T → Option (Sys T)
  | .load t p => s.load t p
  | .copy t => s.copy t
  | .swap t => s.swap t
  | .unlatch t => s.unlatch t
  | .refresh t => s.refresh clock t
  | .flush t => s.flush t
  | .check t => s.check clock t
  | .write t p a key i data => s.write t p a key i data
  | .release t p a => s.release t p a

end Steps

/-- The bucket is evicted and not yet written back. -/
def InFlight (s : Sys T) (p : PageId) : Prop := ∃ t x, (s.pc t).flying = some (p, x)

/-- Every bucket a thread holds is in the cache and has the contents last written to
    it, and no bucket in flight is back in the cache. -/
def Current (s : Sys T) : Prop :=
  (∀ t p a, (t, p, a) ∈ s.held →
    s.index.cache.value p = some a ∧ s.index.pages a = some ⟨p, s.written p⟩) ∧
  ∀ p, s.InFlight p → s.index.cache.value p = none

/-- The condition on a step: the cache's clock has room for it, and a
    `load_and_swap` that fills an empty slot does so for a bucket not in flight. -/
def Careful (s : Sys T) : Action T → Prop
  | .load _ _ => s.index.cache.timestamp + 1 < 2 ^ 64
  | .swap t => s.index.cache.timestamp + 1 < 2 ^ 64 ∧
      ∀ p ∈ (s.pc t).filling, s.index.cache.value p = none → ¬ s.InFlight p
  | _ => True

instance [Fintype T] (s : Sys T) (p : PageId) : Decidable (s.InFlight p) :=
  decidable_of_iff (∃ t, (s.pc t).flying.map Prod.fst = some p) (by simp [InFlight])

instance [Fintype T] (s : Sys T) : ∀ a, Decidable (s.Careful a)
  | .load _ _ => inferInstanceAs (Decidable (_ < _))
  | .swap _ => inferInstanceAs (Decidable (_ ∧ _))
  | .copy _ | .unlatch _ | .refresh _ | .flush _ | .check _ | .write _ _ _ _ _ _ | .release _ _ _ =>
      .isTrue trivial

end Sys

end VeriTxn.HashIndex
