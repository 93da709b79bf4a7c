import Mathlib.Data.List.Basic
import Mathlib.Tactic.Ring

/-!
# Byte buffers and little-endian integers

The packing layer shared by every codec: fixed-width little-endian integers as
byte lists, and `memcpy` into a buffer of fixed capacity.  A copy that would
leave the buffer has no result (`none`).  Nothing here names a message format.
-/

namespace Bytes

abbrev Byte := UInt8

/-- The `width` little-endian bytes of `n` (its value modulo `256 ^ width`). -/
def packLE : Nat → Nat → List Byte
  | 0, _ => []
  | width + 1, n => UInt8.ofNat n :: packLE width (n / 256)

/-- The value of a little-endian byte list. -/
def unpackLE : List Byte → Nat
  | [] => 0
  | b :: bs => b.toNat + 256 * unpackLE bs

@[simp] theorem length_packLE (width n : Nat) : (packLE width n).length = width := by
  induction width generalizing n with
  | zero => rfl
  | succ width ih => simp only [packLE, List.length_cons, ih]

/-- Unpacking the packed bytes gives the value back when it fits the width. -/
theorem unpackLE_packLE {width n : Nat} (h : n < 256 ^ width) :
    unpackLE (packLE width n) = n := by
  induction width generalizing n with
  | zero =>
      have hzero : n = 0 := by simpa using h
      simp [packLE, unpackLE, hzero]
  | succ width ih =>
      have hquot : n / 256 < 256 ^ width := by
        rw [Nat.div_lt_iff_lt_mul (by decide)]
        calc n < 256 ^ (width + 1) := h
          _ = 256 ^ width * 256 := by ring
      have hbyte : (UInt8.ofNat n).toNat = n % 256 := by simp [UInt8.toNat_ofNat']
      simp only [packLE, unpackLE, ih hquot, hbyte]
      omega

/-- A value that does not fit leaves its low bytes. -/
theorem unpackLE_packLE_mod (width n : Nat) : unpackLE (packLE width n) = n % 256 ^ width := by
  induction width generalizing n with
  | zero => simp [packLE, unpackLE, Nat.mod_one]
  | succ width ih =>
      have hbyte : (UInt8.ofNat n).toNat = n % 256 := by simp [UInt8.toNat_ofNat']
      rw [packLE, unpackLE, ih, hbyte, pow_succ', Nat.mod_mul]

theorem unpackLE_append (xs ys : List Byte) :
    unpackLE (xs ++ ys) = unpackLE xs + 256 ^ xs.length * unpackLE ys := by
  induction xs with
  | nil => simp [unpackLE]
  | cons x xs ih =>
      simp only [List.cons_append, unpackLE, ih, List.length_cons]
      ring

theorem take_packLE {width k : Nat} (h : k ≤ width) (n : Nat) :
    (packLE width n).take k = packLE k n := by
  induction k generalizing width n with
  | zero => rfl
  | succ k ih =>
      cases width with
      | zero => omega
      | succ width => rw [packLE, packLE, List.take_succ_cons, ih (by omega)]

/-- A buffer of fixed capacity. -/
structure Buf (cap : Nat) where
  bytes : List Byte
  size : bytes.length = cap

variable {cap : Nat}

/-- `memset(buf, b, cap)`. -/
def Buf.memset (cap : Nat) (b : Byte) : Buf cap :=
  ⟨List.replicate cap b, List.length_replicate⟩

/-- `memcpy(buf + off, src, len(src))`: overwrite a window of the buffer. -/
def Buf.memcpy (buf : Buf cap) (off : Nat) (src : List Byte) : Option (Buf cap) :=
  if h : off + src.length ≤ cap then
    some ⟨buf.bytes.take off ++ src ++ buf.bytes.drop (off + src.length), by
      have hsize := buf.size
      simp only [List.length_append, List.length_take, List.length_drop]
      omega⟩
  else none

/-- `buf` starts with the bytes `written`. -/
def Buf.Holds (buf : Buf cap) (written : List Byte) : Prop := written <+: buf.bytes

theorem Buf.Holds.take_eq {buf : Buf cap} {written : List Byte} (h : buf.Holds written) :
    buf.bytes.take written.length = written :=
  List.prefix_iff_eq_take.mp h |>.symm

theorem Buf.Holds.length_le {buf : Buf cap} {written : List Byte} (h : buf.Holds written) :
    written.length ≤ cap :=
  buf.size ▸ List.IsPrefix.length_le h

/-- Copying right after an already written prefix extends that prefix. -/
theorem Buf.Holds.memcpy_append {buf : Buf cap} {written : List Byte}
    (h : buf.Holds written) (src : List Byte) (hfit : written.length + src.length ≤ cap) :
    ∃ buf', buf.memcpy written.length src = some buf' ∧ buf'.Holds (written ++ src) := by
  refine ⟨_, dif_pos hfit, ?_⟩
  simp only [Buf.Holds, h.take_eq, List.append_assoc]
  exact ⟨_, by rw [List.append_assoc]⟩

/-- Copying over a window inside the written prefix replaces that window. -/
theorem Buf.Holds.memcpy_inside {buf : Buf cap} {before old after : List Byte}
    (h : buf.Holds (before ++ old ++ after)) (src : List Byte) (hlen : src.length = old.length) :
    ∃ buf', buf.memcpy before.length src = some buf' ∧
      buf'.Holds (before ++ src ++ after) := by
  have hle := h.length_le
  obtain ⟨rest, hrest⟩ := h
  simp only [List.length_append] at hle
  refine ⟨_, dif_pos (by omega), rest, ?_⟩
  simp only [← hrest, hlen, List.append_assoc]
  rw [List.take_left, ← List.drop_drop, List.drop_left, List.drop_left]

/-! ### Records and C strings -/

/-- `memcpy(data + pos, src, len(src))` for a window inside the record. -/
def overwrite (data : List Byte) (pos : Nat) (src : List Byte) : List Byte :=
  data.take pos ++ src.take (data.length - pos) ++ data.drop (pos + src.length)

/-- The string at `data + pos`, up to its NUL. -/
def cString (data : List Byte) (pos : Nat) : List Byte := (data.drop pos).takeWhile (· ≠ 0)

/-- `strstr(s, sub)` finds `sub`. -/
def strstr (s sub : List Byte) : Bool := s.tails.any fun tail => sub.isPrefixOf tail

theorem drop_overwrite {data src : List Byte} {pos n : Nat} (h : pos + src.length ≤ n) :
    (overwrite data pos src).drop n = data.drop n := by
  have hlen : (data.take pos ++ src.take (data.length - pos)).length =
      min (pos + src.length) data.length := by
    simp only [List.length_append, List.length_take]
    omega
  rw [overwrite, List.drop_append, hlen, List.drop_of_length_le (by omega), List.nil_append,
    List.drop_drop]
  by_cases hdata : pos + src.length ≤ data.length
  · congr 1
    omega
  · rw [List.drop_of_length_le (by omega), List.drop_of_length_le (by omega)]

theorem take_overwrite (data : List Byte) (pos : Nat) (src : List Byte) :
    (overwrite data pos src).take pos = data.take pos := by
  by_cases hpos : pos ≤ data.length
  · rw [overwrite, List.append_assoc, List.take_append_of_le_length (by simp [hpos]),
      List.take_take, Nat.min_self]
  · have hout : data.length - pos = 0 := by omega
    rw [overwrite, hout, List.take_zero, List.append_nil, List.drop_of_length_le (by omega),
      List.append_nil, List.take_take, Nat.min_self]

theorem drop_overwrite_self (data : List Byte) (pos : Nat) (src : List Byte) :
    (overwrite data pos src).drop pos = overwrite (data.drop pos) 0 src := by
  by_cases hpos : pos ≤ data.length
  · rw [overwrite, overwrite, List.append_assoc, List.drop_append_of_le_length (by simp [hpos]),
      List.drop_of_length_le (by simp), List.drop_drop]
    simp
  · have hout : data.length ≤ pos := by omega
    have hnil : (overwrite data pos src).length ≤ pos := by
      simp only [overwrite, List.length_append, List.length_take, List.length_drop]
      omega
    rw [List.drop_of_length_le hnil, List.drop_of_length_le hout]
    simp [overwrite]

/-- Whether a write changes anything is decided from its position on. -/
theorem overwrite_eq_self_iff (data : List Byte) (pos : Nat) (src : List Byte) :
    overwrite data pos src = data ↔ overwrite (data.drop pos) 0 src = data.drop pos := by
  constructor
  · intro h
    rw [← drop_overwrite_self, h]
  · intro h
    calc overwrite data pos src
        = (overwrite data pos src).take pos ++ (overwrite data pos src).drop pos :=
          (List.take_append_drop ..).symm
      _ = data.take pos ++ data.drop pos := by rw [take_overwrite, drop_overwrite_self, h]
      _ = data := List.take_append_drop ..

/-! ### Reading memory -/

/-- The little-endian integer in the `width` bytes at `pos`; `none` beyond the memory. -/
def word (mem : List Byte) (pos width : Nat) : Option Nat :=
  if pos + width ≤ mem.length then some (unpackLE ((mem.drop pos).take width)) else none

/-- The C string at `pos`; `none` if it runs off the memory. -/
def slice (mem : List Byte) (pos : Nat) : Option (List Byte) :=
  if 0 ∈ mem.drop pos then some (cString mem pos) else none

/-- A packed integer is read back where it stands. -/
theorem word_packLE {width n : Nat} (rest : List Byte) (hn : n < 256 ^ width) :
    word (packLE width n ++ rest) 0 width = some n := by
  have hfit : 0 + width ≤ (packLE width n ++ rest).length := by
    simp only [List.length_append, length_packLE]
    omega
  rw [word, if_pos hfit, List.drop_zero, List.take_left' (length_packLE width n),
    unpackLE_packLE hn]

/-- What stands before the integer does not matter. -/
theorem word_append_right {front : List Byte} {pos : Nat} (rest : List Byte) (width : Nat)
    (h : front.length ≤ pos) :
    word (front ++ rest) pos width = word rest (pos - front.length) width := by
  have hlen : pos + width ≤ (front ++ rest).length ↔
      pos - front.length + width ≤ rest.length := by
    rw [List.length_append]
    omega
  have hdrop : (front ++ rest).drop pos = rest.drop (pos - front.length) := by
    rw [List.drop_append, List.drop_of_length_le h, List.nil_append]
  simp only [word, hlen, hdrop]

/-- A packed field is read back behind what stands before it. -/
theorem word_field {front : List Byte} {width n pos : Nat} (rest : List Byte)
    (hpos : pos = front.length) (hn : n < 256 ^ width) :
    word (front ++ (packLE width n ++ rest)) pos width = some n := by
  rw [word_append_right _ _ hpos.ge, hpos, Nat.sub_self]
  exact word_packLE rest hn

theorem uint64_lt (n : UInt64) : n.toNat < 256 ^ 8 := n.toNat_lt

theorem uint32_lt (n : UInt32) : n.toNat < 256 ^ 4 := n.toNat_lt

/-- A C string is the bytes `xs` exactly if none of them is NUL and NUL follows. -/
theorem slice_eq_iff {mem front xs rest : List Byte} {pos : Nat}
    (hmem : mem = front ++ (xs ++ rest)) (hpos : pos = front.length) :
    slice mem pos = some xs ↔ 0 ∉ xs ∧ rest.head? = some 0 := by
  subst hmem hpos
  have hdrop : (front ++ (xs ++ rest)).drop front.length = xs ++ rest := List.drop_left
  rw [slice, cString, hdrop]
  by_cases hxs : (0 : Byte) ∈ xs
  · have hne : (xs ++ rest).takeWhile (· ≠ 0) ≠ xs := by
      intro heq
      have hzero : (0 : Byte) ∈ (xs ++ rest).takeWhile (· ≠ 0) := by rwa [heq]
      have hall : ((xs ++ rest).takeWhile (· ≠ 0)).all (· ≠ 0) = true := List.all_takeWhile
      simpa using List.all_eq_true.mp hall 0 hzero
    simp only [hxs, not_true, false_and, iff_false]
    split
    · rwa [Option.some.injEq]
    · simp
  · have hall : ∀ b ∈ xs, decide (b ≠ 0) = true := by
      intro b hb
      rw [decide_eq_true_eq]
      rintro rfl
      exact hxs hb
    rw [List.takeWhile_append_of_pos hall]
    cases rest with
    | nil => simp [hxs]
    | cons b rest =>
        by_cases hb : b = 0
        · subst hb
          simp [hxs]
        · have hlong : (b :: rest).takeWhile (fun b => decide (b ≠ 0)) ≠ [] := by
            simp [hb]
          simp [hxs, hb]

/-- The four bytes of an integer. -/
theorem word_four {mem : List Byte} {pos n : Nat} (h : word mem pos 4 = some n) :
    ∃ b₀ b₁ b₂ b₃ : Byte, mem[pos]? = some b₀ ∧ mem[pos + 1]? = some b₁ ∧
      mem[pos + 2]? = some b₂ ∧ mem[pos + 3]? = some b₃ ∧
      n = b₀.toNat + 256 * (b₁.toNat + 256 * (b₂.toNat + 256 * b₃.toNat)) := by
  unfold word at h
  split at h
  · rename_i hfit
    cases h
    have hget : ∀ k, mem[pos + k]? = (mem.drop pos)[k]? := fun k => by rw [List.getElem?_drop]
    have hlen : 4 ≤ (mem.drop pos).length := by
      rw [List.length_drop]
      omega
    have hfirst : mem[pos]? = (mem.drop pos)[0]? := hget 0
    rw [hfirst, hget, hget, hget]
    generalize mem.drop pos = rest at hlen
    match rest, hlen with
    | b₀ :: b₁ :: b₂ :: b₃ :: rest, _ => exact ⟨b₀, b₁, b₂, b₃, rfl, rfl, rfl, rfl, rfl⟩
  · cases h

/-- If the last of its four bytes is not 0, an integer is large. -/
theorem le_word_of_last {mem : List Byte} {pos n : Nat} {b : Byte}
    (hword : word mem pos 4 = some n) (hlast : mem[pos + 3]? = some b) (hb : b ≠ 0) :
    2 ^ 24 ≤ n := by
  obtain ⟨b₀, b₁, b₂, b₃, -, -, -, hb₃, rfl⟩ := word_four hword
  rw [hlast, Option.some.injEq] at hb₃
  subst hb₃
  have hpos : b.toNat ≠ 0 := fun h => hb (UInt8.toNat_inj.mp h)
  omega

/-- If its last two bytes are not both 255, it is not among the largest. -/
theorem word_lt_of_last {mem : List Byte} {pos n : Nat} (hword : word mem pos 4 = some n)
    (hlast : ¬ (mem[pos + 2]? = some 255 ∧ mem[pos + 3]? = some 255)) :
    n < 2 ^ 32 - 2 ^ 16 := by
  obtain ⟨b₀, b₁, b₂, b₃, -, -, hb₂, hb₃, rfl⟩ := word_four hword
  rw [hb₂, hb₃, Option.some.injEq, Option.some.injEq] at hlast
  have h₀ := b₀.toNat_lt
  have h₁ := b₁.toNat_lt
  have h₂ := b₂.toNat_lt
  have h₃ := b₃.toNat_lt
  have hne : ¬ (b₂.toNat = 255 ∧ b₃.toNat = 255) := by
    rintro ⟨h, h'⟩
    exact hlast ⟨UInt8.toNat_inj.mp h, UInt8.toNat_inj.mp h'⟩
  omega

end Bytes
