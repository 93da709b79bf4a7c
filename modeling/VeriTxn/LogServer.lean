import Mathlib.Data.List.TakeWhile
import VeriTxn.LogShipping

/-!
# The storage server: `RPCThread::run`

One connection of the storage server.  The client writes three kinds of messages to its
socket: batches of log entries, page requests and `VACU` messages.  A socket carries bytes
and not messages, and the server takes whatever one `read` returns for one message.

A message is taken for a batch by comparing its first four bytes, copied to a `malloc` of
four bytes, with `"LOGS"`; the comparison reads the byte behind them too.
-/

namespace VeriTxn.LogServer

open Bytes LogShipping

/-! ### What the client writes -/

/-- A number as `printf` prints it. -/
def decimal (n : Nat) : List Byte := (Nat.toDigits 10 n).map fun c => UInt8.ofNat c.toNat

/-- `"%d_%lu_"`. -/
def pageKey (part : Int32) (page : UInt64) : List Byte :=
  (if part.toInt < 0 then [45] else []) ++ decimal part.toInt.natAbs ++ [95] ++
    decimal page.toNat ++ [95]

/-- The message prefix `"VACU"`. -/
def vacuPrefix : List Byte := [86, 65, 67, 85]

/-- A message of `RemoteStorage`. -/
inductive Message where
  | logs (entries : List Entry)
  | loadPage (part : Int32) (page : UInt64)
  | vaccum (recoverTs : UInt64)
deriving DecidableEq, Repr

/-- What `send_log`, `load_page_disk` and `vaccum` write to the socket. -/
def Message.wire : Message → List Byte
  | .logs entries => encodeLogs entries
  | .loadPage part page => pageKey part page
  | .vaccum recoverTs => vacuPrefix ++ packLE 8 recoverTs.toNat

/-! ### The server -/

/-- What one `read` returns, and the byte that stands behind the four bytes the prefix is
    copied to. -/
structure Read where
  bytes : List Byte
  heap : Byte
deriving DecidableEq, Repr

/-- What the server does: `recover_txn` on an entry, or a prefix scan that is answered with
    the number of bytes read. -/
inductive Event where
  | recoverTxn (entry : Entry)
  | scan (pageId : List Byte) (response : Nat)
deriving DecidableEq, Repr

/-- The loop over a batch, from `offset` on; `none` when it leaves the buffer. -/
def recoverBatch (buff : List Byte) : Nat → Nat → Option (List Event)
  | 0, _ => some []
  | n + 1, offset => do
      let entrySize ← word buff offset 4
      if offset + 4 + entrySize ≤ buff.length then
        let rest ← recoverBatch buff n (offset + 4 + entrySize)
        return .recoverTxn ((buff.drop (offset + 4)).take entrySize) :: rest
      else none

/-- `read` into the buffer, and the zero behind it. -/
def receive (buff : Buf maxLine) (r : Read) : Option (Buf maxLine) := do
  let buff ← buff.memcpy 0 r.bytes
  buff.memcpy r.bytes.length [0]

/-- One round of the server's loop. -/
def serve (buff : Buf maxLine) (r : Read) : Option (List Event) :=
  if buff.bytes.take 4 = logsPrefix ∧ r.heap = 0 then do
    let batchSize ← word buff.bytes 4 4
    recoverBatch buff.bytes batchSize 8
  else some [.scan (cString buff.bytes 0) r.bytes.length]

/-- A connection: the rounds for what the `read`s return. -/
def run (buff : Buf maxLine) : List Read → Option (List Event)
  | [] => some []
  | r :: reads => do
      let buff ← receive buff r
      let events ← serve buff r
      let rest ← run buff reads
      return events ++ rest

/-- The bytes of the messages, cut into what successive `read`s return. -/
def CutInto (messages : List Message) (reads : List Read) : Prop :=
  (reads.map Read.bytes).flatten = (messages.map Message.wire).flatten ∧
    ∀ r ∈ reads, r.bytes ≠ [] ∧ r.bytes.length < maxLine

/-- What there is to do for a message: every entry is recovered, a page request is answered
    by one scan, and nothing is scanned for a `VACU`. -/
def Message.events : Message → List Event
  | .logs entries => entries.map .recoverTxn
  | .loadPage part page => [.scan (pageKey part page) (pageKey part page).length]
  | .vaccum _ => []

/-- The server does what there is to do for the messages, in order and nothing else. -/
def Processes (buff : Buf maxLine) (messages : List Message) (reads : List Read) : Prop :=
  run buff reads = some (messages.map Message.events).flatten

/-! ### One round -/

/-- What is in the buffer after a `read`. -/
theorem receive_eq {r : Read} (buff : Buf maxLine) (h : r.bytes.length < maxLine) :
    ∃ buff' old, receive buff r = some buff' ∧ buff'.bytes = r.bytes ++ 0 :: old := by
  have hempty : buff.Holds [] := List.nil_prefix
  obtain ⟨buff₁, hcopy, hholds⟩ := hempty.memcpy_append r.bytes (by simpa using Nat.le_of_lt h)
  rw [List.nil_append] at hholds
  obtain ⟨buff₂, hzero, old, hold⟩ := hholds.memcpy_append [0] (by simpa using Nat.succ_le_of_lt h)
  refine ⟨buff₂, old, ?_, ?_⟩
  · have hfirst : buff.memcpy 0 r.bytes = some buff₁ := hcopy
    rw [receive, hfirst]
    exact hzero
  · rw [← hold, List.append_assoc]
    rfl

/-- Whatever does not start with an L is taken for a page request. -/
theorem serve_scan {buff : Buf maxLine} {r : Read} {old : List Byte}
    (hbuff : buff.bytes = r.bytes ++ 0 :: old) (hhead : r.bytes.head? ≠ some 76) :
    serve buff r = some [.scan (r.bytes.takeWhile (· ≠ 0)) r.bytes.length] := by
  have hpage : cString buff.bytes 0 = r.bytes.takeWhile (· ≠ 0) := by
    rw [hbuff, cString, List.drop_zero, List.takeWhile_append]
    split
    · rename_i hall
      rw [List.takeWhile_cons_of_neg (by simp), List.append_nil]
      exact ((List.takeWhile_prefix _).eq_of_length hall).symm
    · rfl
  have hfour : ¬ (buff.bytes.take 4 = logsPrefix ∧ r.heap = 0) := by
    rintro ⟨hfour, -⟩
    rw [hbuff] at hfour
    cases hbytes : r.bytes with
    | nil =>
        rw [hbytes, List.nil_append, List.take_succ_cons] at hfour
        exact absurd (List.cons.inj hfour).1 (by decide)
    | cons b rest =>
        rw [hbytes, List.cons_append, List.take_succ_cons] at hfour
        rw [hbytes, (List.cons.inj hfour).1] at hhead
        exact hhead rfl
  rw [serve, if_neg hfour, hpage]

/-- The loop over the entries of a batch, with the bytes `front` behind it. -/
theorem recoverBatch_encodeEntries {front rest : List Byte} {entries : List Entry}
    (hsize : (encodeEntries entries).length < 256 ^ 4) :
    recoverBatch (front ++ (encodeEntries entries ++ rest)) entries.length front.length =
      some (entries.map Event.recoverTxn) := by
  induction entries generalizing front with
  | nil => rfl
  | cons e entries ih =>
      rw [encodeEntries_cons, List.length_append, length_encodeEntry] at hsize
      have hmem : front ++ (encodeEntries (e :: entries) ++ rest) =
          front ++ (packLE 4 e.length ++ (e ++ (encodeEntries entries ++ rest))) := by
        simp [encodeEntry]
      have hword : word (front ++ (packLE 4 e.length ++ (e ++ (encodeEntries entries ++ rest))))
          front.length 4 = some e.length := by
        rw [word_append_right _ _ (Nat.le_refl _), Nat.sub_self]
        exact word_packLE _ (by omega)
      have hfits : front.length + 4 + e.length ≤
          (front ++ (packLE 4 e.length ++ (e ++ (encodeEntries entries ++ rest)))).length := by
        simp only [List.length_append, length_packLE]
        omega
      have hentry : ((front ++ (packLE 4 e.length ++ (e ++ (encodeEntries entries ++ rest)))).drop
          (front.length + 4)).take e.length = e := by
        rw [← List.drop_drop, List.drop_left, List.drop_left' (length_packLE ..), List.take_left]
      have hnext : front.length + 4 + e.length = (front ++ encodeEntry e).length := by
        rw [List.length_append, length_encodeEntry]
        omega
      have hbehind : front ++ (packLE 4 e.length ++ (e ++ (encodeEntries entries ++ rest))) =
          (front ++ encodeEntry e) ++ (encodeEntries entries ++ rest) := by
        simp [encodeEntry]
      rw [hmem, List.length_cons, recoverBatch, hword, Option.bind_eq_bind, Option.bind_some,
        if_pos hfits, hentry, hnext, hbehind, ih (by omega)]
      rfl

theorem length_le_encodeEntries (entries : List Entry) :
    entries.length ≤ (encodeEntries entries).length := by
  induction entries with
  | nil => exact Nat.le_refl _
  | cons e entries ih =>
      rw [encodeEntries_cons, List.length_append, length_encodeEntry, List.length_cons]
      omega

/-- A batch that a read starts with is recovered, and the rest of the read ignored. -/
theorem serve_logs {buff : Buf maxLine} {r : Read} {entries : List Entry} {old : List Byte}
    (hbuff : buff.bytes = encodeLogs entries ++ old) (hheap : r.heap = 0)
    (hshort : (encodeLogs entries).length < maxLine) :
    serve buff r = some (entries.map Event.recoverTxn) := by
  have hcount := length_le_encodeEntries entries
  have hlength : (encodeLogs entries).length = 8 + (encodeEntries entries).length := by
    simp only [encodeLogs, List.length_append, length_packLE]
    rfl
  unfold maxLine at hshort
  have hmem : buff.bytes = logsPrefix ++ (packLE 4 entries.length ++
      (encodeEntries entries ++ old)) := by
    rw [hbuff, encodeLogs]
    simp only [List.append_assoc]
  have hfour : buff.bytes.take 4 = logsPrefix := by
    rw [hmem]
    rfl
  have hbatch : word buff.bytes 4 4 = some entries.length := by
    rw [hmem, word_append_right _ _ (Nat.le_refl 4)]
    exact word_packLE _ (by omega)
  have hfront : buff.bytes = (logsPrefix ++ packLE 4 entries.length) ++
      (encodeEntries entries ++ old) := by
    rw [hmem, List.append_assoc]
  have hstart : (logsPrefix ++ packLE 4 entries.length).length = 8 := by
    simp only [List.length_append, length_packLE]
    rfl
  rw [serve, if_pos ⟨hfour, hheap⟩, hbatch, Option.bind_eq_bind, Option.bind_some, hfront,
    ← hstart, recoverBatch_encodeEntries (by omega)]

/-! ### Page requests -/

theorem decimal_range {n : Nat} {b : Byte} (h : b ∈ decimal n) : 48 ≤ b.toNat ∧ b.toNat ≤ 57 := by
  obtain ⟨c, hc, rfl⟩ := List.mem_map.mp h
  have hdigit := Char.isDigit_iff_toNat.mp
    (Nat.isDigit_of_mem_toDigits (by decide) (by decide) hc)
  have hlow : '0'.toNat = 48 := by decide
  have hhigh : '9'.toNat = 57 := by decide
  rw [UInt8.toNat_ofNat']
  omega

/-- A page request is made of digits, dashes and bars. -/
theorem pageKey_range {part : Int32} {page : UInt64} {b : Byte} (h : b ∈ pageKey part page) :
    b = 45 ∨ b = 95 ∨ 48 ≤ b.toNat ∧ b.toNat ≤ 57 := by
  simp only [pageKey, List.mem_append, List.mem_singleton] at h
  rcases h with (((hsign | hdigit) | hbar) | hdigit) | hbar
  · split at hsign
    · exact Or.inl (List.mem_singleton.mp hsign)
    · exact absurd hsign List.not_mem_nil
  · exact Or.inr (Or.inr (decimal_range hdigit))
  · exact Or.inr (Or.inl hbar)
  · exact Or.inr (Or.inr (decimal_range hdigit))
  · exact Or.inr (Or.inl hbar)

/-- A read that is one page request is answered by its scan. -/
theorem serve_loadPage {buff : Buf maxLine} {r : Read} {old : List Byte} {part : Int32}
    {page : UInt64} (hbuff : buff.bytes = r.bytes ++ 0 :: old)
    (hbytes : r.bytes = pageKey part page) :
    serve buff r = some (Message.loadPage part page).events := by
  have hwhole : r.bytes.takeWhile (· ≠ 0) = pageKey part page := by
    rw [hbytes, List.takeWhile_eq_self_iff]
    intro b hb
    rw [decide_eq_true_eq]
    rintro rfl
    exact absurd (pageKey_range hb) (by decide)
  have hhead : r.bytes.head? ≠ some 76 := by
    intro hhead
    rw [hbytes] at hhead
    exact absurd (pageKey_range (List.mem_of_mem_head? hhead)) (by decide)
  rw [serve_scan hbuff hhead, hwhole, hbytes]
  rfl

/-! ### Whole connections -/

/-- The messages of one read, when the server does right by them: one page request, or a
    batch with nothing but whole `VACU` messages behind it and a zero behind the prefix. -/
def Handled (messages : List Message) (r : Read) : Prop :=
  (∃ part page, messages = [.loadPage part page]) ∨
    ∃ (entries : List Entry) (stamps : List UInt64),
      messages = .logs entries :: stamps.map .vaccum ∧ r.heap = 0

theorem events_vaccum (stamps : List UInt64) :
    ((stamps.map Message.vaccum).map Message.events).flatten = [] := by
  induction stamps with
  | nil => rfl
  | cons stamp stamps ih => exact ih

theorem serve_handled {buff : Buf maxLine} {r : Read} {messages : List Message} {old : List Byte}
    (hbuff : buff.bytes = r.bytes ++ 0 :: old)
    (hbytes : r.bytes = (messages.map Message.wire).flatten) (hshort : r.bytes.length < maxLine)
    (h : Handled messages r) :
    serve buff r = some (messages.map Message.events).flatten := by
  rcases h with ⟨part, page, rfl⟩ | ⟨entries, stamps, rfl, hheap⟩
  · rw [List.map_singleton, List.flatten_singleton] at hbytes ⊢
    exact serve_loadPage hbuff hbytes
  · rw [List.map_cons, List.flatten_cons] at hbytes ⊢
    have hlogs : buff.bytes = encodeLogs entries ++
        (((stamps.map Message.vaccum).map Message.wire).flatten ++ 0 :: old) := by
      rw [hbuff, hbytes, List.append_assoc]
      rfl
    have hlength : (encodeLogs entries).length < maxLine := by
      refine Nat.lt_of_le_of_lt ?_ hshort
      rw [hbytes, List.length_append]
      exact Nat.le_add_right ..
    rw [serve_logs hlogs hheap hlength, events_vaccum, List.append_nil]
    rfl

theorem run_cons {buff buff' : Buf maxLine} {r : Read} {reads : List Read}
    {events rest : List Event} (hreceive : receive buff r = some buff')
    (hserve : serve buff' r = some events) (hrun : run buff' reads = some rest) :
    run buff (r :: reads) = some (events ++ rest) := by
  rw [run, hreceive, Option.bind_eq_bind, Option.bind_some, hserve, Option.bind_eq_bind,
    Option.bind_some, hrun]
  rfl

/-- The server processes exactly the messages of the stream when the cuts fall between
    them: each read has one page request, or a batch and the `VACU` messages behind it. -/
theorem run_of_handled (buff : Buf maxLine) (groups : List (List Message)) (reads : List Read)
    (hcut : CutInto groups.flatten reads)
    (hwhole : List.Forall₂ (fun group r => Handled group r ∧
      r.bytes = (group.map Message.wire).flatten) groups reads) :
    Processes buff groups.flatten reads := by
  unfold Processes
  obtain ⟨-, hread⟩ := hcut
  induction hwhole generalizing buff with
  | nil => rfl
  | @cons group r groups reads hgroup hrest ih =>
      obtain ⟨hhandled, hbytes⟩ := hgroup
      have hshort := (hread r (List.mem_cons_self ..)).2
      obtain ⟨buff', old, hreceive, hbuff⟩ := receive_eq buff hshort
      have hserve := serve_handled hbuff hbytes hshort hhandled
      have hrun := ih buff' fun r' hr' => hread r' (List.mem_cons_of_mem _ hr')
      rw [List.flatten_cons, List.map_append, List.flatten_append]
      exact run_cons hreceive hserve hrun

/-- A page request, and a batch of two entries with a `VACU` behind it. -/
def pageThenBatch : List Read :=
  [⟨pageKey 0 7, 9⟩, ⟨encodeLogs [[1], [2, 3]] ++ (Message.vaccum 5).wire, 0⟩]

theorem processes_pageThenBatch :
    Processes (Buf.memset maxLine 0) [.loadPage 0 7, .logs [[1], [2, 3]], .vaccum 5]
      pageThenBatch := by
  refine run_of_handled _ [[.loadPage 0 7], [.logs [[1], [2, 3]], .vaccum 5]] pageThenBatch
    (⟨by decide, by decide⟩) ?_
  refine .cons ⟨Or.inl ⟨0, 7, rfl⟩, by decide⟩ (.cons ⟨Or.inr ⟨[[1], [2, 3]], [5], rfl, rfl⟩, ?_⟩ .nil)
  decide

/-- Reads that do not start with an L are answered one by one. -/
theorem run_scans (buff : Buf maxLine) {reads : List Read}
    (h : ∀ r ∈ reads, r.bytes.length < maxLine ∧ r.bytes.head? ≠ some 76) :
    run buff reads = some (reads.map fun r => .scan (r.bytes.takeWhile (· ≠ 0)) r.bytes.length) := by
  induction reads generalizing buff with
  | nil => rfl
  | cons r reads ih =>
      obtain ⟨hshort, hhead⟩ := h r (List.mem_cons_self ..)
      obtain ⟨buff', old, hreceive, hbuff⟩ :=
        receive_eq buff hshort
      have hrun := ih buff' fun r' hr' => h r' (List.mem_cons_of_mem _ hr')
      exact run_cons hreceive (serve_scan hbuff hhead) hrun

/-- Two page requests that come with one read are answered once, a page request that comes
    with two reads is answered twice, and a `VACU` that comes alone is answered. -/
theorem not_processes_cut :
    (CutInto [.loadPage 0 7, .loadPage 0 8] [⟨pageKey 0 7 ++ pageKey 0 8, 0⟩] ∧
      ¬ Processes (Buf.memset maxLine 0) [.loadPage 0 7, .loadPage 0 8]
        [⟨pageKey 0 7 ++ pageKey 0 8, 0⟩]) ∧
    (CutInto [.loadPage 0 7] [⟨[48, 95], 0⟩, ⟨[55, 95], 0⟩] ∧
      ¬ Processes (Buf.memset maxLine 0) [.loadPage 0 7] [⟨[48, 95], 0⟩, ⟨[55, 95], 0⟩]) ∧
    (CutInto [.vaccum 5] [⟨(Message.vaccum 5).wire, 0⟩] ∧
      ¬ Processes (Buf.memset maxLine 0) [.vaccum 5] [⟨(Message.vaccum 5).wire, 0⟩]) := by
  unfold Processes
  refine ⟨⟨⟨by decide, by decide⟩, ?_⟩,
    ⟨⟨by decide, by decide⟩, ?_⟩, ⟨by decide, by decide⟩, ?_⟩
  · rw [run_scans _ (by decide)]
    decide
  · rw [run_scans _ (by decide)]
    decide
  · rw [run_scans _ (by decide)]
    decide

end VeriTxn.LogServer
