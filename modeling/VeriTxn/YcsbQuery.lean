import VeriTxn.OccLatches
import Mathlib.Data.List.Pairwise
import Mathlib.Data.UInt

/-!
# Generated YCSB queries

`ycsb_query::gen_requests` draws the requests of a query.  A drawn request that names a row of an
earlier one is dropped and its slot is used again.

The random draws are arbitrary: a coin for a query of several partitions, a number, and for each
request its type, a row of the partition and a value.
-/

namespace VeriTxn.YcsbQuery

/-- The settings that are read, under their names in `config.h` and `global.cpp`. -/
structure Config where
  reqPerQuery : UInt32
  partPerTxn : UInt32
  partCnt : UInt32
  virtualPartCnt : UInt32
  synthTableSize : UInt64
  scanLen : UInt32
  firstPartLocal : Bool
  keyOrder : Bool

/-- `ycsb_request`. -/
structure Request where
  rtype : AccessT
  key : UInt64
  value : UInt8
  scanLen : UInt32
deriving DecidableEq

/-- The condition of the sorting loops. -/
def later (a b : Request) : Bool := decide (a.key > b.key)

/-- Where `r` falls: below `g_read_perc`, from there to `g_write_perc + g_read_perc`, or above. -/
inductive Share where
  | read | write | rest

def Share.rtype : Share → AccessT
  | read => .rd
  | write => .wr
  | rest => .scan

/-- What is drawn for one request: the share of `r`, the row of `zipf` and `rint64`. -/
structure Draw where
  share : Share
  rowId : UInt64
  rint64 : UInt64

def Draw.rtype (draw : Draw) : AccessT := draw.share.rtype

/-- What `gen_requests` leaves in the query: `part_num` partitions and `request_cnt` requests. -/
structure Query where
  partToAccess : List UInt64
  requests : List Request

/-- `requests`, `rid` and `all_keys`. -/
structure Gen where
  requests : List Request
  rid : Nat
  allKeys : List UInt64

namespace Config

variable (cfg : Config)

/-- An entry of `part_to_access`: the thread's own partition or a drawn one. -/
def drawPart (cnt : UInt32) (thdId rint64 : UInt64) (isFirst : Bool) : UInt64 :=
  if isFirst && cfg.firstPartLocal then thdId % cnt.toUInt64 else rint64 % cnt.toUInt64

/-- The loop over `part_to_access`: a partition that is there already is overwritten by the next
    entry. -/
def multiParts (thdId rint64 : UInt64) : (i : Nat) → List UInt64
  | 0 => []
  | i + 1 =>
      let parts := multiParts thdId rint64 i
      let part := cfg.drawPart cfg.virtualPartCnt thdId rint64 (i == 0)
      if part ∈ parts then parts else parts ++ [part]

/-- `part_to_access`, with `multiPart` when `r < g_perc_multi_part`. -/
def genParts (thdId : UInt64) (multiPart : Bool) (rint64 : UInt64) : List UInt64 :=
  if multiPart then cfg.multiParts thdId rint64 cfg.partPerTxn.toNat
  else [cfg.drawPart cfg.partCnt thdId rint64 true]

/-- `ith`. -/
def ith (tmp partNum : UInt64) : UInt64 := tmp * partNum / cfg.reqPerQuery.toUInt64

def tableSize : UInt64 := cfg.synthTableSize / cfg.virtualPartCnt.toUInt64

/-- The keys that are looked up in `all_keys`. -/
def drawnKeys (draw : Draw) (partId : UInt64) : List UInt64 :=
  if draw.rtype = .rd ∨ draw.rtype = .wr then
    [draw.rowId * cfg.virtualPartCnt.toUInt64 + partId]
  else (List.range cfg.scanLen.toNat).map fun i =>
    (draw.rowId + .ofNat i) * cfg.partCnt.toUInt64 + partId

/-- A pass of the loop over the requests.  `none` is a failing assertion or an index outside an
    array. -/
def genRequest (parts : List UInt64) (draw : Draw) (tmp : Nat) (g : Gen) : Option Gen := do
  let req ← g.requests[g.rid]?
  let partId ← parts[(cfg.ith (.ofNat tmp) (.ofNat parts.length)).toNat]?
  guard (draw.rowId < cfg.tableSize)
  let scanLen := if draw.rtype = .rd ∨ draw.rtype = .wr then req.scanLen else cfg.scanLen
  let requests := g.requests.set g.rid
    ⟨draw.rtype, draw.rowId * cfg.virtualPartCnt.toUInt64 + partId,
      (draw.rint64 % (1 <<< 8)).toUInt8, scanLen⟩
  let keys := cfg.drawnKeys draw partId
  if keys.any (· ∈ g.allKeys) then some { g with requests := requests }
  else some ⟨requests, g.rid + 1, g.allKeys ++ keys⟩

/-- The first passes of the loop; `mem` is what the allocated array held. -/
def genLoop (parts : List UInt64) (draws : Nat → Draw) (mem : List Request) : Nat → Option Gen
  | 0 => some ⟨mem, 0, []⟩
  | tmp + 1 => (genLoop parts draws mem tmp).bind (cfg.genRequest parts (draws tmp) tmp)

/-- The sorting loops of `g_key_order`, and the assertion behind them. -/
def sortRequests (requests : List Request) : Option (List Request) :=
  if cfg.keyOrder then
    let sorted := Occ.sortLoop later (requests.length - 1) requests
    if sorted.IsChain (·.key < ·.key) then some sorted else none
  else some requests

/-- `ycsb_query::gen_requests`. -/
def genRequests (thdId : UInt64) (multiPart : Bool) (rint64 : UInt64) (draws : Nat → Draw)
    (mem : List Request) : Option Query := do
  let parts := cfg.genParts thdId multiPart rint64
  let g ← cfg.genLoop parts draws mem cfg.reqPerQuery.toNat
  let requests ← cfg.sortRequests (g.requests.take g.rid)
  some ⟨parts, requests⟩

end Config

/-- The keys that a request touches, `scan_len` rows of a partition for a scan. -/
def Request.keys (partCnt : UInt32) (req : Request) : List UInt64 :=
  if req.rtype = .rd ∨ req.rtype = .wr then [req.key]
  else (List.range req.scanLen.toNat).map fun i => req.key + .ofNat i * partCnt.toUInt64

namespace Config

variable {cfg : Config}

/-! ### The partitions -/

theorem drawPart_lt {cnt : UInt32} (hpos : 0 < cnt) (thdId rint64 : UInt64) (isFirst : Bool) :
    (cfg.drawPart cnt thdId rint64 isFirst).toNat < cnt.toNat := by
  rw [drawPart]
  split
  · rw [UInt64.toNat_mod, UInt32.toNat_toUInt64]
    exact Nat.mod_lt _ hpos
  · rw [UInt64.toNat_mod, UInt32.toNat_toUInt64]
    exact Nat.mod_lt _ hpos

theorem multiParts_spec (hpos : 0 < cfg.virtualPartCnt) (thdId rint64 : UInt64) (i : Nat) :
    (cfg.multiParts thdId rint64 i).Nodup ∧
      (∀ p ∈ cfg.multiParts thdId rint64 i, p.toNat < cfg.virtualPartCnt.toNat) ∧
      (cfg.multiParts thdId rint64 i).length ≤ i ∧
      (0 < i → 0 < (cfg.multiParts thdId rint64 i).length) := by
  induction i with
  | zero => exact ⟨List.nodup_nil, by simp [multiParts], le_rfl, fun h => absurd h (lt_irrefl 0)⟩
  | succ i ih =>
      obtain ⟨hnodup, hlt, hlength, -⟩ := ih
      rw [multiParts]
      split
      · rename_i hmem
        exact ⟨hnodup, hlt, by omega, fun _ => List.length_pos_of_mem hmem⟩
      · rename_i hnew
        rw [List.length_append, List.length_singleton]
        refine ⟨hnodup.append (List.nodup_singleton _) ?_, ?_, by omega, fun _ => by omega⟩
        · exact List.disjoint_singleton.mpr hnew
        · intro p hp
          rcases List.mem_append.mp hp with hp | hp
          · exact hlt p hp
          · rw [List.mem_singleton.mp hp]
            exact drawPart_lt hpos ..

/-- `part_to_access` has distinct partitions, at least one and no more than it has room for. -/
theorem genParts_spec (hpos : 0 < cfg.partCnt) (hvirtual : cfg.virtualPartCnt = cfg.partCnt)
    (hroom : 0 < cfg.partPerTxn) (thdId : UInt64) (multiPart : Bool) (rint64 : UInt64) :
    (cfg.genParts thdId multiPart rint64).Nodup ∧
      (∀ p ∈ cfg.genParts thdId multiPart rint64, p.toNat < cfg.partCnt.toNat) ∧
      (cfg.genParts thdId multiPart rint64).length ≤ cfg.partPerTxn.toNat ∧
      0 < (cfg.genParts thdId multiPart rint64).length := by
  have hroom' : 0 < cfg.partPerTxn.toNat := hroom
  rw [genParts]
  split
  · obtain ⟨hnodup, hlt, hlength, hsome⟩ :=
      multiParts_spec (hvirtual ▸ hpos) thdId rint64 cfg.partPerTxn.toNat
    exact ⟨hnodup, hvirtual ▸ hlt, hlength, hsome hroom'⟩
  · refine ⟨List.nodup_singleton _, ?_, hroom', Nat.one_pos⟩
    intro p hp
    rw [List.mem_singleton.mp hp]
    exact drawPart_lt hpos ..

/-- The product does not overflow, so that `ith` is below `part_num`. -/
theorem ith_lt {tmp partNum : Nat} (htmp : tmp < cfg.reqPerQuery.toNat) (hpos : 0 < partNum)
    (hnum : partNum ≤ cfg.partPerTxn.toNat) :
    (cfg.ith (.ofNat tmp) (.ofNat partNum)).toNat < partNum := by
  have hN := cfg.reqPerQuery.toNat_lt
  have hP := cfg.partPerTxn.toNat_lt
  have hprod : tmp * partNum < 2 ^ 32 * 2 ^ 32 := Nat.mul_lt_mul'' (by omega) (by omega)
  rw [ith, UInt64.toNat_div, UInt64.toNat_mul, UInt32.toNat_toUInt64, UInt64.toNat_ofNat',
    UInt64.toNat_ofNat', Nat.mod_eq_of_lt (show tmp < 2 ^ 64 by omega),
    Nat.mod_eq_of_lt (show partNum < 2 ^ 64 by omega), Nat.mod_eq_of_lt (by omega)]
  exact Nat.div_lt_of_lt_mul (Nat.mul_lt_mul_of_pos_right htmp hpos)

/-! ### The keys -/

/-- The key of a drawn row is below the table size, and leads back to its partition. -/
theorem key_toNat {rowId partId : UInt64} (hrow : rowId < cfg.tableSize)
    (hpart : partId.toNat < cfg.virtualPartCnt.toNat) :
    (rowId * cfg.virtualPartCnt.toUInt64 + partId).toNat < cfg.synthTableSize.toNat ∧
      (rowId * cfg.virtualPartCnt.toUInt64 + partId).toNat % cfg.virtualPartCnt.toNat =
        partId.toNat := by
  have hrow' : rowId.toNat < cfg.synthTableSize.toNat / cfg.virtualPartCnt.toNat := by
    have := UInt64.lt_iff_toNat_lt.mp hrow
    rwa [tableSize, UInt64.toNat_div, UInt32.toNat_toUInt64] at this
  have hbelow : rowId.toNat * cfg.virtualPartCnt.toNat + partId.toNat <
      cfg.synthTableSize.toNat := by
    have hmul := Nat.mul_le_mul_right cfg.virtualPartCnt.toNat (Nat.succ_le_of_lt hrow')
    have hdiv := Nat.div_mul_le_self cfg.synthTableSize.toNat cfg.virtualPartCnt.toNat
    rw [Nat.succ_mul] at hmul
    omega
  have hsize := cfg.synthTableSize.toNat_lt
  rw [UInt64.toNat_add, UInt64.toNat_mul, UInt32.toNat_toUInt64, Nat.mod_add_mod,
    Nat.mod_eq_of_lt (by omega)]
  exact ⟨hbelow, by rw [Nat.mul_add_mod_self_right, Nat.mod_eq_of_lt hpart]⟩

/-- The keys that are looked up are those of the request. -/
theorem drawnKeys_eq (hvirtual : cfg.virtualPartCnt = cfg.partCnt) (draw : Draw) (partId : UInt64)
    (value : UInt8) (scanLen : UInt32) :
    cfg.drawnKeys draw partId =
      Request.keys cfg.partCnt ⟨draw.rtype, draw.rowId * cfg.virtualPartCnt.toUInt64 + partId, value,
        if draw.rtype = .rd ∨ draw.rtype = .wr then scanLen else cfg.scanLen⟩ := by
  rw [drawnKeys, Request.keys]
  split
  · rfl
  · refine List.map_congr_left fun i _ => ?_
    rw [hvirtual, UInt64.add_mul, UInt64.add_assoc, UInt64.add_assoc, UInt64.add_comm partId]

end Config

/-- A request touches the row of its key. -/
theorem Request.key_mem_keys {partCnt : UInt32} {req : Request}
    (hscan : req.rtype = .rd ∨ req.rtype = .wr ∨ 0 < req.scanLen) : req.key ∈ req.keys partCnt := by
  rw [Request.keys]
  split
  · exact List.mem_singleton_self _
  · rename_i hno
    have hlen : 0 < req.scanLen := by
      rcases hscan with h | h | h
      · exact absurd (Or.inl h) hno
      · exact absurd (Or.inr h) hno
      · exact h
    refine List.mem_map.mpr ⟨0, List.mem_range.mpr hlen, ?_⟩
    simp

/-! ### The loop over the requests -/

/-- What a request of the query keeps: its partition is one of the query's, and its key one of the
    table and of those it touches. -/
structure Request.Ok (cfg : Config) (parts : List UInt64) (req : Request) : Prop where
  part : ∃ p ∈ parts, req.key.toNat % cfg.partCnt.toNat = p.toNat
  lt : req.key.toNat < cfg.synthTableSize.toNat
  scanLen : req.rtype = .scan → req.scanLen = cfg.scanLen
  mem : req.key ∈ req.keys cfg.partCnt

/-- After so many passes `all_keys` has the keys of the requests, which are disjoint. -/
structure Gen.Inv (cfg : Config) (parts : List UInt64) (tmp : Nat) (g : Gen) : Prop where
  size : g.requests.length = cfg.reqPerQuery.toNat
  rid_le : g.rid ≤ tmp
  rid_pos : 0 < tmp → 0 < g.rid
  ok : ∀ req ∈ g.requests.take g.rid, req.Ok cfg parts
  disjoint : (g.requests.take g.rid).Pairwise fun a b =>
    (a.keys cfg.partCnt).Disjoint (b.keys cfg.partCnt)
  allKeys : g.allKeys = (g.requests.take g.rid).flatMap (Request.keys cfg.partCnt)

theorem take_set_succ {α : Type} {l : List α} {n : Nat} (h : n < l.length) (a : α) :
    (l.set n a).take (n + 1) = l.take n ++ [a] := by
  rw [List.take_add_one, List.take_set_of_le le_rfl, List.getElem?_set_self h]
  rfl

variable {cfg : Config} {parts : List UInt64} {tmp : Nat} {g : Gen}

/-- A pass finds its slot and its partition, and passes its assertion. -/
theorem Gen.Inv.genRequest (h : g.Inv cfg parts tmp) (htmp : tmp < cfg.reqPerQuery.toNat)
    (hvirtual : cfg.virtualPartCnt = cfg.partCnt) (hlen : 0 < cfg.scanLen)
    (hparts : ∀ p ∈ parts, p.toNat < cfg.partCnt.toNat) (hsome : 0 < parts.length)
    (hnum : parts.length ≤ cfg.partPerTxn.toNat) {draw : Draw} (hrow : draw.rowId < cfg.tableSize) :
    ∃ g', cfg.genRequest parts draw tmp g = some g' ∧ g'.Inv cfg parts (tmp + 1) := by
  have hrid : g.rid < g.requests.length := by
    rw [h.size]
    exact lt_of_le_of_lt h.rid_le htmp
  have hith := Config.ith_lt htmp hsome hnum
  set partId := parts[(cfg.ith (.ofNat tmp) (.ofNat parts.length)).toNat] with hpartId
  have hmem : partId ∈ parts := List.getElem_mem hith
  obtain ⟨hbelow, hpart⟩ := Config.key_toNat hrow (hvirtual ▸ hparts partId hmem)
  rw [Config.genRequest, List.getElem?_eq_getElem hrid, List.getElem?_eq_getElem hith, ← hpartId]
  simp only [Option.bind_eq_bind, Option.bind_some, guard, if_pos hrow]
  set req : Request := ⟨draw.rtype, draw.rowId * cfg.virtualPartCnt.toUInt64 + partId,
    (draw.rint64 % (1 <<< 8)).toUInt8,
    if draw.rtype = .rd ∨ draw.rtype = .wr then g.requests[g.rid].scanLen else cfg.scanLen⟩ with hreq
  have hkeys : cfg.drawnKeys draw partId = req.keys cfg.partCnt := Config.drawnKeys_eq hvirtual ..
  rw [hkeys]
  by_cases hconflict : (req.keys cfg.partCnt).any (· ∈ g.allKeys)
  · refine ⟨{ g with requests := g.requests.set g.rid req }, by simp [hconflict], ?_⟩
    have htake : (g.requests.set g.rid req).take g.rid = g.requests.take g.rid :=
      List.take_set_of_le le_rfl
    refine ⟨?_, Nat.le_succ_of_le h.rid_le, fun _ => ?_, ?_, ?_, ?_⟩
    · rw [List.length_set]
      exact h.size
    · -- with no key in `all_keys` there is no conflict
      by_contra hzero
      have hnone : g.rid = 0 := Nat.eq_zero_of_not_pos hzero
      rw [h.allKeys, hnone, List.take_zero] at hconflict
      simp at hconflict
    · rw [htake]
      exact h.ok
    · rw [htake]
      exact h.disjoint
    · rw [htake]
      exact h.allKeys
  · refine ⟨⟨g.requests.set g.rid req, g.rid + 1, g.allKeys ++ req.keys cfg.partCnt⟩,
      by simp [hconflict], ?_⟩
    have htake := take_set_succ hrid req
    have hfresh : ∀ k ∈ req.keys cfg.partCnt, k ∉ g.allKeys := by
      intro k hk hall
      exact hconflict (List.any_eq_true.mpr ⟨k, hk, decide_eq_true hall⟩)
    have hok : req.Ok cfg parts := by
      refine ⟨⟨partId, hmem, hvirtual ▸ hpart⟩, hbelow, fun hscan => ?_, Request.key_mem_keys ?_⟩
      · rw [hreq] at hscan ⊢
        simp only at hscan
        simp [hscan]
      · rw [hreq]
        cases hshare : draw.share with
        | read => simp [Draw.rtype, hshare, Share.rtype]
        | write => simp [Draw.rtype, hshare, Share.rtype]
        | rest => simpa [Draw.rtype, hshare, Share.rtype] using hlen
    refine ⟨?_, Nat.succ_le_succ h.rid_le, fun _ => Nat.succ_pos _, ?_, ?_, ?_⟩
    · rw [List.length_set]
      exact h.size
    · intro r hr
      rw [htake] at hr
      rcases List.mem_append.mp hr with hr | hr
      · exact h.ok r hr
      · exact List.mem_singleton.mp hr ▸ hok
    · rw [htake, List.pairwise_append]
      refine ⟨h.disjoint, List.pairwise_singleton .., fun a ha b hb => ?_⟩
      rw [List.mem_singleton.mp hb]
      intro k hka hkb
      refine hfresh k hkb ?_
      rw [h.allKeys]
      exact List.mem_flatMap.mpr ⟨a, ha, hka⟩
    · rw [htake, List.flatMap_append, ← h.allKeys]
      simp

theorem genLoop_inv (hvirtual : cfg.virtualPartCnt = cfg.partCnt) (hlen : 0 < cfg.scanLen)
    (hparts : ∀ p ∈ parts, p.toNat < cfg.partCnt.toNat) (hsome : 0 < parts.length)
    (hnum : parts.length ≤ cfg.partPerTxn.toNat) {draws : Nat → Draw}
    (hrows : ∀ i, (draws i).rowId < cfg.tableSize) {mem : List Request}
    (hmem : mem.length = cfg.reqPerQuery.toNat) (htmp : tmp ≤ cfg.reqPerQuery.toNat) :
    ∃ g, cfg.genLoop parts draws mem tmp = some g ∧ g.Inv cfg parts tmp := by
  induction tmp with
  | zero =>
      exact ⟨_, rfl, hmem, le_rfl, fun h => absurd h (lt_irrefl 0), by simp, by simp, by simp⟩
  | succ tmp ih =>
      obtain ⟨g, hloop, hinv⟩ := ih (by omega)
      rw [Config.genLoop, hloop]
      exact hinv.genRequest (by omega) hvirtual hlen hparts hsome hnum (hrows tmp)

/-! ### The sorted requests -/

theorem later_eq_false {a b : Request} : later a b = false ↔ a.key.toNat ≤ b.key.toNat := by
  rw [later, decide_eq_false_iff_not, gt_iff_lt, UInt64.lt_iff_toNat_lt, Nat.not_lt]

theorem sortLoop_later (requests : List Request) :
    (Occ.sortLoop later (requests.length - 1) requests).Pairwise fun a b => later a b = false := by
  cases requests with
  | nil => exact List.Pairwise.nil
  | cons a rest =>
      have hasymm : ∀ a b, later a b = true → later b a = false := by
        intro a b hab
        rw [later, decide_eq_true_eq, gt_iff_lt, UInt64.lt_iff_toNat_lt] at hab
        exact later_eq_false.mpr (le_of_lt hab)
      have htrans : ∀ a b c, later a b = false → later b c = false → later a c = false := by
        intro a b c hab hbc
        exact later_eq_false.mpr ((later_eq_false.mp hab).trans (later_eq_false.mp hbc))
      have hsorted := Occ.sortLoop_sorted hasymm htrans rest.length (a :: rest) [] rfl
        List.Pairwise.nil (by simp)
      rwa [List.append_nil] at hsorted

variable (cfg) in
/-- The sorting loops only move the requests, and put different keys in their order. -/
theorem sortRequests_spec {requests : List Request} (hkeys : (requests.map Request.key).Nodup) :
    ∃ sorted, cfg.sortRequests requests = some sorted ∧ sorted.Perm requests ∧
      (cfg.keyOrder = true → sorted.Pairwise (·.key < ·.key)) := by
  rw [Config.sortRequests]
  by_cases horder : cfg.keyOrder = true
  · have hperm := Occ.sortLoop_perm later (requests.length - 1) requests
    have hpairwise : (Occ.sortLoop later (requests.length - 1) requests).Pairwise
        (·.key < ·.key) := by
      have hne := List.pairwise_map.mp ((hperm.map Request.key).nodup_iff.mpr hkeys)
      refine ((sortLoop_later requests).and hne).imp fun {a b} h => ?_
      obtain ⟨hle, hdiff⟩ := h
      have hne' : a.key.toNat ≠ b.key.toNat := fun heq => hdiff (UInt64.toNat_inj.mp heq)
      exact UInt64.lt_iff_toNat_lt.mpr (lt_of_le_of_ne (later_eq_false.mp hle) hne')
    refine ⟨Occ.sortLoop later (requests.length - 1) requests, ?_, hperm, fun _ => hpairwise⟩
    rw [if_pos horder]
    exact if_pos hpairwise.isChain
  · exact ⟨requests, if_neg horder, List.Perm.refl _, fun h => absurd h horder⟩

/-- Its requests, at least one and no more than there is room for, touch different rows of its
    partitions, and come in the order of their keys if the settings ask for it. -/
structure Query.TouchesOnce (cfg : Config) (query : Query) : Prop where
  nonempty : 1 ≤ query.requests.length
  room : query.requests.length ≤ cfg.reqPerQuery.toNat
  disjoint : query.requests.Pairwise fun a b =>
    (a.keys cfg.partCnt).Disjoint (b.keys cfg.partCnt)
  scanLen : ∀ req ∈ query.requests, req.rtype = .scan → req.scanLen = cfg.scanLen
  distinct : query.partToAccess.Nodup
  part : ∀ req ∈ query.requests, ∃ p ∈ query.partToAccess,
    req.key.toNat % cfg.partCnt.toNat = p.toNat
  ith_lt : ∀ tmp < cfg.reqPerQuery.toNat,
    (cfg.ith (.ofNat tmp) (.ofNat query.partToAccess.length)).toNat < query.partToAccess.length
  ascending : cfg.keyOrder = true → query.requests.Pairwise (·.key < ·.key)

/-- **Every query that is generated touches each row once**, and no assertion of the generator
    fails.  There are partitions, room for one in `part_to_access`, and rows in a scan. -/
theorem gen_requests_touches_once (hreq : 0 < cfg.reqPerQuery) (hpos : 0 < cfg.partCnt)
    (hvirtual : cfg.virtualPartCnt = cfg.partCnt) (hroom : 0 < cfg.partPerTxn)
    (hlen : 0 < cfg.scanLen) (thdId : UInt64) (multiPart : Bool) (rint64 : UInt64)
    {draws : Nat → Draw} (hrows : ∀ i, (draws i).rowId < cfg.tableSize) {mem : List Request}
    (hmem : mem.length = cfg.reqPerQuery.toNat) :
    ∃ query, cfg.genRequests thdId multiPart rint64 draws mem = some query ∧
      query.TouchesOnce cfg := by
  obtain ⟨hnodup, hparts, hnum, hsome⟩ :=
    Config.genParts_spec hpos hvirtual hroom thdId multiPart rint64
  obtain ⟨g, hloop, hinv⟩ := genLoop_inv hvirtual hlen hparts hsome hnum hrows hmem le_rfl
  have hkeys : ((g.requests.take g.rid).map Request.key).Nodup := by
    refine List.pairwise_map.mpr (hinv.disjoint.imp_of_mem fun {a b} ha hb hab heq => ?_)
    exact hab (hinv.ok a ha).mem (heq ▸ (hinv.ok b hb).mem)
  obtain ⟨sorted, hsort, hperm, hascending⟩ := sortRequests_spec cfg hkeys
  have hlength : sorted.length = g.rid := by
    rw [hperm.length_eq, List.length_take, hinv.size]
    exact min_eq_left hinv.rid_le
  refine ⟨⟨cfg.genParts thdId multiPart rint64, sorted⟩, ?_, ?_⟩
  · rw [Config.genRequests]
    simp only [hloop, hsort, Option.bind_eq_bind, Option.bind_some]
  · constructor
    · rw [hlength]
      exact hinv.rid_pos hreq
    · rw [hlength]
      exact hinv.rid_le
    · exact (hperm.pairwise_iff fun {a b} h => h.symm).mpr hinv.disjoint
    · intro req hmem
      exact (hinv.ok req (hperm.mem_iff.mp hmem)).scanLen
    · exact hnodup
    · intro req hmem
      exact (hinv.ok req (hperm.mem_iff.mp hmem)).part
    · intro tmp htmp
      exact Config.ith_lt htmp hsome hnum
    · exact hascending

/-- The settings of `config.h` for 64 rows, with sorted requests. -/
def sixtyFourRows : Config := ⟨16, 2, 1, 1, 64, 20, true, true⟩

theorem gen_requests_touches_once_scans :
    ∃ query, sixtyFourRows.genRequests 3 true 7 (fun i => ⟨.rest, .ofNat (i % 64), 0⟩)
      (List.replicate 16 ⟨.rd, 0, 0, 0⟩) = some query ∧ query.TouchesOnce sixtyFourRows := by
  apply gen_requests_touches_once (by decide) (by decide) rfl (by decide) (by decide)
  · intro i
    have : i % 64 < 64 := Nat.mod_lt i (by decide)
    simp only [UInt64.lt_iff_toNat_lt, UInt64.toNat_ofNat']
    rw [Nat.mod_eq_of_lt (by omega)]
    exact this
  · rfl

end VeriTxn.YcsbQuery
