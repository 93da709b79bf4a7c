import VeriTxn.Types

/-!
# Timestamp allocation

There are two counters.  A transaction's begin timestamp comes from the
untrusted `Manager` through `thread_t::get_next_ts`; the timestamps drawn inside
the enclave come from `ManagerEnc`.  Both start at 1 and neither reads the other.
-/

namespace VeriTxn

/-- `TS_ALLOC` of `config.h`. -/
inductive TsAlloc where
  | mutex | cas | hw | clock
deriving DecidableEq, Repr

/-- `g_ts_alloc`, `g_ts_batch_alloc`, `g_ts_batch_num` and `g_thread_cnt`. -/
structure TsConfig where
  alloc : TsAlloc
  batchAlloc : Bool
  batchNum : Nat
  threadCnt : Nat

/-- The setting of `config.h`. -/
def TsConfig.default : TsConfig := ⟨.cas, false, 1, 4⟩

/-- `*timestamp = 1` in both `init` functions. -/
def initialTimestamp : Nat := 1

/-- The counter part common to both `get_ts` functions: the time drawn and the
    counter afterwards.  `clock` is what `TS_CLOCK` computes, if it is
    supported; a failing assertion is `none`. -/
def drawTs (cfg : TsConfig) (clock : Option Nat) (timestamp : Nat) : Option (Nat × Nat) :=
  if cfg.batchAlloc = true ∧ cfg.alloc ≠ .cas then none
  else
    match cfg.alloc with
    | .mutex => some (wrap64 (timestamp + 1), wrap64 (timestamp + 1))
    | .cas =>
        some (timestamp, wrap64 (timestamp + if cfg.batchAlloc then cfg.batchNum else 1))
    | .hw => none
    | .clock => clock.map fun time => (time, timestamp)

/-- `Manager::get_ts(thread_id)`, at system clock `now`. -/
def Manager.getTs (cfg : TsConfig) (now threadId timestamp : Nat) : Option (Nat × Nat) :=
  drawTs cfg (some (wrap64 (now * cfg.threadCnt + threadId))) timestamp

/-- `ManagerEnc::get_ts(thread_id)`: `TS_CLOCK` is an assertion failure here. -/
def ManagerEnc.getTs (cfg : TsConfig) (timestamp : Nat) : Option (Nat × Nat) :=
  drawTs cfg none timestamp

/-- `thread_t::get_next_ts()`: the timestamp returned, the thread's `_curr_ts`
    and the manager's counter afterwards. -/
def getNextTs (cfg : TsConfig) (now threadId currTs timestamp : Nat) :
    Option (Nat × Nat × Nat) :=
  if cfg.batchAlloc then
    if currTs % cfg.batchNum = 0 then
      (Manager.getTs cfg now threadId timestamp).map fun (time, timestamp) =>
        let currTs := wrap64 (time + 1)
        (wrap64 (currTs + (2 ^ 64 - 1)), currTs, timestamp)
    else
      let currTs := wrap64 (currTs + 1)
      some (wrap64 (currTs + (2 ^ 64 - 1)), currTs, timestamp)
  else
    (Manager.getTs cfg now threadId timestamp).map fun (time, timestamp) =>
      (time, time, timestamp)

/-! ### Draws in the enclave -/

/-- `get_ts` of the enclave is implemented, and a draw moves the counter on. -/
def TsConfig.Draws (cfg : TsConfig) : Prop :=
  (cfg.alloc = .cas ∧ (cfg.batchAlloc = true → 0 < cfg.batchNum)) ∨
    (cfg.alloc = .mutex ∧ cfg.batchAlloc = false)

/-- How far a draw moves the counter. -/
def TsConfig.stride (cfg : TsConfig) : Nat := if cfg.batchAlloc then cfg.batchNum else 1

/-- The timestamp that is drawn from the counter. -/
def TsConfig.drawn (cfg : TsConfig) (timestamp : Nat) : Nat :=
  if cfg.alloc = .mutex then timestamp + 1 else timestamp

theorem TsConfig.Draws.stride_pos {cfg : TsConfig} (h : cfg.Draws) : 0 < cfg.stride := by
  unfold TsConfig.stride
  split
  · rename_i hbatch
    rcases h with ⟨-, hpos⟩ | ⟨-, hno⟩
    · exact hpos hbatch
    · rw [hbatch] at hno
      cases hno
  · exact Nat.one_pos

theorem TsConfig.le_drawn (cfg : TsConfig) (timestamp : Nat) : timestamp ≤ cfg.drawn timestamp := by
  unfold TsConfig.drawn
  split
  · exact Nat.le_succ _
  · exact Nat.le_refl _

/-- Every draw gives a larger timestamp than the one before. -/
theorem TsConfig.Draws.drawn_lt {cfg : TsConfig} (h : cfg.Draws) (timestamp : Nat) :
    cfg.drawn timestamp < cfg.drawn (timestamp + cfg.stride) := by
  have hpos := h.stride_pos
  unfold TsConfig.drawn
  split <;> omega

/-- A draw before the counter wraps around. -/
theorem ManagerEnc.getTs_of_draws {cfg : TsConfig} (h : cfg.Draws) {timestamp : Nat}
    (hroom : timestamp + cfg.stride < 2 ^ 64) :
    ManagerEnc.getTs cfg timestamp = some (cfg.drawn timestamp, timestamp + cfg.stride) := by
  unfold TsConfig.stride at hroom ⊢
  unfold ManagerEnc.getTs drawTs TsConfig.drawn
  rcases h with ⟨halloc, -⟩ | ⟨halloc, hbatch⟩
  · rw [halloc, if_neg fun hbad => hbad.2 rfl, if_neg (by decide : ¬ TsAlloc.cas = .mutex)]
    dsimp only
    rw [wrap64, Nat.mod_eq_of_lt hroom]
  · rw [hbatch, if_neg Bool.false_ne_true] at hroom
    rw [halloc, hbatch, if_neg fun hbad => Bool.false_ne_true hbad.1, if_pos rfl,
      if_neg Bool.false_ne_true]
    dsimp only
    rw [wrap64, Nat.mod_eq_of_lt hroom]

end VeriTxn
