import Mathlib.Data.List.Pairwise
import Mathlib.Data.Option.Basic
import VeriTxn.StampOrder

/-!
# Rows with leases

A row has a newest version and a lease: up to `rts`, no further version will be stored.  Whoever
has copied the row at a time that the lease covers has read, for good, the newest version up to that
time.  A new version is announced with a stamp behind the lease and stored later; in between, the
row stays as it is.

Versions with the same stamp, on different rows, are told apart by the places of their writers in
the order of the commits.
-/

namespace Lease

open Serial

variable {D : Type*}

structure Version (D : Type*) where
  stamp : Nat
  place : Nat
  data : D

/-- `stored` is the versions from the newest one on; `pend` is announced and not stored yet. -/
structure Row (D : Type*) where
  wts : Nat
  rts : Nat
  stored : List (Version D)
  pend : Option (Version D)

def Row.versions (row : Row D) : List (Version D) := row.pend.toList ++ row.stored

structure Row.Ok (row : Row D) : Prop where
  le : row.wts ≤ row.rts
  sorted : row.stored.Pairwise fun v w => w.stamp < v.stamp
  head : ∃ v, row.stored.head? = some v ∧ v.stamp ≤ row.wts
  later : ∀ v ∈ row.pend, row.rts < v.stamp

/-- What happens to a row. -/
inductive Row.Step (row : Row D) : Row D → Prop where
  | extend {wts rts : Nat} (hpend : row.pend = none) (hwts : row.wts ≤ wts) (hrts : row.rts ≤ rts)
      (hle : wts ≤ rts) : Row.Step row { row with wts := wts, rts := rts }
  | announce {v : Version D} (hpend : row.pend = none) (hlt : row.rts < v.stamp) :
      Row.Step row { row with pend := some v }
  | store {v : Version D} (hpend : row.pend = some v) :
      Row.Step row ⟨v.stamp, v.stamp, v :: row.stored, none⟩

variable {row row' : Row D} {u v : Version D} {c place : Nat}

theorem Row.mem_versions : v ∈ row.versions ↔ v ∈ row.pend ∨ v ∈ row.stored := by
  rw [Row.versions, List.mem_append, Option.mem_toList, Option.mem_def]

theorem Row.Ok.head_max (h : row.Ok) (hu : row.stored.head? = some u) (hv : v ∈ row.stored) :
    v.stamp ≤ u.stamp := by
  have hsorted := h.sorted
  cases hs : row.stored with
  | nil =>
      rw [hs] at hv
      cases hv
  | cons w rest =>
      rw [hs] at hu hv hsorted
      cases hu
      rcases List.mem_cons.mp hv with rfl | hmem
      · exact Nat.le_refl _
      · exact Nat.le_of_lt ((List.pairwise_cons.mp hsorted).1 v hmem)

theorem Row.Ok.stamp_le (h : row.Ok) (hv : v ∈ row.stored) : v.stamp ≤ row.rts := by
  obtain ⟨u, hu, hle⟩ := h.head
  have := h.head_max hu hv
  have := h.le
  omega

theorem Row.Ok.versions_sorted (h : row.Ok) :
    row.versions.Pairwise fun v w => w.stamp < v.stamp := by
  refine List.pairwise_append.mpr ⟨?_, h.sorted, fun v hv w hw => ?_⟩
  · cases row.pend with
    | none => exact List.Pairwise.nil
    | some v => exact List.pairwise_singleton ..
  · exact Nat.lt_of_le_of_lt (h.stamp_le hw) (h.later v (Option.mem_toList.mp hv))

theorem Row.Step.ok (hstep : row.Step row') (h : row.Ok) : row'.Ok := by
  cases hstep with
  | extend hpend hwts hrts hle =>
      obtain ⟨v, hv, hstamp⟩ := h.head
      refine ⟨hle, h.sorted, ⟨v, hv, Nat.le_trans hstamp hwts⟩, fun w hw => ?_⟩
      rw [hpend] at hw
      cases hw
  | announce hpend hlt =>
      refine ⟨h.le, h.sorted, h.head, fun w hw => ?_⟩
      cases hw
      exact hlt
  | store hpend =>
      refine ⟨Nat.le_refl _, List.pairwise_cons.mpr ⟨fun w hw => ?_, h.sorted⟩,
        ⟨_, rfl, Nat.le_refl _⟩, nofun⟩
      exact Nat.lt_of_le_of_lt (h.stamp_le hw) (h.later _ hpend)

/-- Storing what is announced leaves the versions. -/
theorem Row.Step.versions (hstep : row.Step row') :
    row'.versions = row.versions ∨
      ∃ v, row.pend = none ∧ row.rts < v.stamp ∧ row'.versions = v :: row.versions := by
  cases hstep with
  | extend => exact .inl rfl
  | announce hpend hlt =>
      refine .inr ⟨_, hpend, hlt, ?_⟩
      rw [Row.versions, Row.versions, hpend]
      rfl
  | store hpend =>
      left
      rw [Row.versions, Row.versions, hpend]
      rfl

theorem Row.Step.stored (hstep : row.Step row') (hv : v ∈ row.stored) : v ∈ row'.stored := by
  cases hstep with
  | extend | announce => exact hv
  | store => exact List.mem_cons_of_mem _ hv

theorem Row.Step.rts_le (hstep : row.Step row') (h : row.Ok) : row.rts ≤ row'.rts := by
  cases hstep with
  | extend hpend hwts hrts hle => exact hrts
  | announce => exact Nat.le_refl _
  | store hpend => exact Nat.le_of_lt (h.later _ hpend)

theorem Row.Step.wts_le (hstep : row.Step row') (h : row.Ok) : row.wts ≤ row'.wts := by
  cases hstep with
  | extend hpend hwts hrts hle => exact hwts
  | announce => exact Nat.le_refl _
  | store hpend => exact Nat.le_trans h.le (Nat.le_of_lt (h.later _ hpend))

/-! ### Versions that are read -/

/-- The version is, for good, the newest one up to `c`. -/
structure Row.Covers (row : Row D) (u : Version D) (c : Nat) : Prop where
  mem : u ∈ row.stored
  lease : c ≤ row.rts
  later : ∀ v ∈ row.versions, u.stamp < v.stamp → c < v.stamp

theorem Row.Covers.step (h : row.Covers u c) (hstep : row.Step row') (hok : row.Ok) :
    row'.Covers u c := by
  refine ⟨hstep.stored h.mem, Nat.le_trans h.lease (hstep.rts_le hok), fun v hv hlt => ?_⟩
  rcases hstep.versions with heq | ⟨w, -, hw, heq⟩ <;> rw [heq] at hv
  · exact h.later v hv hlt
  · rcases List.mem_cons.mp hv with rfl | hmem
    · exact Nat.lt_of_le_of_lt h.lease hw
    · exact h.later v hmem hlt

theorem Row.Covers.mono (h : row.Covers u c) {c' : Nat} (hle : c' ≤ c) : row.Covers u c' :=
  ⟨h.mem, Nat.le_trans hle h.lease, fun v hv hlt => Nat.lt_of_le_of_lt hle (h.later v hv hlt)⟩

/-- A copy with the two timestamps of the row is one of the version `u`. -/
structure Row.Sees (row : Row D) (u : Version D) (wts rts : Nat) : Prop
    extends row.Covers u rts where
  base : u.stamp ≤ wts
  le : wts ≤ rts
  wts_le : wts ≤ row.wts
  current : wts = row.wts → row.stored.head? = some u

variable {wts rts : Nat}

theorem Row.Sees.step (h : row.Sees u wts rts) (hstep : row.Step row') (hok : row.Ok) :
    row'.Sees u wts rts := by
  refine ⟨h.toCovers.step hstep hok, h.base, h.le, Nat.le_trans h.wts_le (hstep.wts_le hok), ?_⟩
  intro heq
  cases hstep with
  | extend hpend hwts hrts hle => exact h.current (Nat.le_antisymm h.wts_le (heq ▸ hwts))
  | announce => exact h.current heq
  | store hpend =>
      have hlt := hok.later _ hpend
      have := h.wts_le
      have := hok.le
      dsimp only at heq
      omega

/-- The copy of a row that has announced nothing. -/
theorem Row.Ok.sees (h : row.Ok) (hpend : row.pend = none) (hu : row.stored.head? = some u) :
    row.Sees u row.wts row.rts := by
  obtain ⟨v, hv, hstamp⟩ := h.head
  cases hu.symm.trans hv
  refine ⟨⟨List.mem_of_head? hu, Nat.le_refl _, fun w hw hlt => ?_⟩, hstamp, h.le, Nat.le_refl _,
    fun _ => hu⟩
  rcases Row.mem_versions.mp hw with hmem | hmem
  · rw [hpend] at hmem
    cases hmem
  · exact absurd hlt (Nat.not_lt.mpr (h.head_max hu hmem))

/-- While the row has the write timestamp of the copy, its lease covers the copy. -/
theorem Row.Sees.renewed (h : row.Sees u wts rts) (hok : row.Ok) (hcurrent : wts = row.wts)
    (hc : c ≤ row.rts) : row.Covers u c := by
  refine ⟨h.mem, hc, fun v hv hlt => ?_⟩
  rcases Row.mem_versions.mp hv with hmem | hmem
  · exact Nat.lt_of_le_of_lt hc (hok.later v hmem)
  · exact absurd hlt (Nat.not_lt.mpr (hok.head_max (h.current hcurrent) hmem))

/-- A longer lease of a row with the write timestamp of the copy covers the copy. -/
theorem Row.Sees.extended (h : row.Sees u wts rts) (hok : row.Ok) (hcurrent : wts = row.wts)
    (hpend : row.pend = none) {wts' rts' : Nat} (hc : c ≤ rts') :
    Row.Covers { row with wts := wts', rts := rts' } u c := by
  refine ⟨h.mem, hc, fun v hv hlt => ?_⟩
  rcases Row.mem_versions.mp hv with hmem | hmem
  · exact absurd (hpend.symm.trans hmem) nofun
  · exact absurd hlt (Nat.not_lt.mpr (hok.head_max (h.current hcurrent) hmem))

/-! ### Commits -/

/-- A commit at `c` has read the newest version up to `c` but its own. -/
structure Row.Read (row : Row D) (u : Version D) (c place : Nat) : Prop where
  mem : u ∈ row.stored
  base : u.stamp ≤ c
  before : u.place < place
  later : ∀ v ∈ row.versions, u.stamp < v.stamp → c < v.stamp ∨ v.stamp = c ∧ v.place = place
  lease : c ≤ row.rts ∨ ∃ v ∈ row.pend, c ≤ v.stamp

theorem Row.Read.step (h : row.Read u c place) (hstep : row.Step row') (hok : row.Ok) :
    row'.Read u c place := by
  refine ⟨hstep.stored h.mem, h.base, h.before, fun v hv hlt => ?_, ?_⟩
  · rcases hstep.versions with heq | ⟨w, hnone, hw, heq⟩ <;> rw [heq] at hv
    · exact h.later v hv hlt
    · rcases List.mem_cons.mp hv with rfl | hmem
      · rcases h.lease with hle | ⟨p, hp, -⟩
        · exact .inl (Nat.lt_of_le_of_lt hle hw)
        · rw [hnone] at hp
          cases hp
      · exact h.later v hmem hlt
  · rcases h.lease with hle | ⟨p, hp, hle⟩
    · exact .inl (Nat.le_trans hle (hstep.rts_le hok))
    · cases hstep with
      | extend hpend => exact absurd (hpend.symm.trans hp) nofun
      | announce hpend => exact absurd (hpend.symm.trans hp) nofun
      | store hpend =>
          cases hpend.symm.trans hp
          exact .inl hle

theorem Row.Covers.read (h : row.Covers u c) (hbase : u.stamp ≤ c) (hbefore : u.place < place) :
    row.Read u c place :=
  ⟨h.mem, hbase, hbefore, fun v hv hlt => .inl (h.later v hv hlt), .inl h.lease⟩

/-- A commit that writes the row has read the version before its own. -/
theorem Row.Ok.read_announced (h : row.Ok) (hu : row.stored.head? = some u)
    (hbefore : u.place < place) (hlt : row.rts < c) (d : D) :
    Row.Read { row with pend := some ⟨c, place, d⟩ } u c place := by
  refine ⟨List.mem_of_head? hu, ?_, hbefore, fun v hv hlater => ?_, .inr ⟨_, rfl, Nat.le_refl _⟩⟩
  · exact Nat.le_trans (h.stamp_le (List.mem_of_head? hu)) (Nat.le_of_lt hlt)
  · rcases Row.mem_versions.mp hv with hmem | hmem
    · cases hmem
      exact .inr ⟨rfl, rfl⟩
    · exact absurd hlater (Nat.not_lt.mpr (h.head_max hu hmem))

/-! ### One stamp for timestamp and place -/

/-- The stamp of the `place`-th of fewer than `n` commits. -/
def stampOf (n c place : Nat) : Nat := c * n + place

variable {n : Nat}

theorem stampOf_lt {c' place' : Nat} (hplace : place < n) (hlt : c < c') :
    stampOf n c place < stampOf n c' place' := by
  have hle : (c + 1) * n ≤ c' * n := Nat.mul_le_mul_right n hlt
  rw [Nat.succ_mul] at hle
  unfold stampOf
  omega

def Row.stamped (row : Row D) (n : Nat) : List (Nat × D) :=
  row.versions.map fun v => (stampOf n v.stamp v.place, v.data)

theorem Row.Ok.stamped_sorted (h : row.Ok) (hplaces : ∀ v ∈ row.versions, v.place < n) :
    (row.stamped n).Pairwise fun a b => b.1 < a.1 := by
  refine List.pairwise_map.mpr (h.versions_sorted.imp_of_mem fun hv hw hlt => ?_)
  exact stampOf_lt (hplaces _ hw) hlt

theorem Row.Ok.unique (h : row.Ok) (hu : u ∈ row.versions) (hv : v ∈ row.versions)
    (hstamp : u.stamp = v.stamp) : u = v := by
  have hnodup : (row.versions.map Version.stamp).Nodup :=
    List.pairwise_map.mpr (h.versions_sorted.imp fun hlt => Nat.ne_of_gt hlt)
  exact List.inj_on_of_nodup_map hnodup hu hv hstamp

/-- What a commit has read is the newest version below its stamp. -/
theorem Row.Read.below (h : row.Read u c place) (hok : row.Ok)
    (hplaces : ∀ v ∈ row.versions, v.place < n) (hplace : place < n) :
    (below (row.stamped n) (stampOf n c place)).map Prod.snd = some u.data := by
  have hmem : u ∈ row.versions := Row.mem_versions.mpr (.inr h.mem)
  rw [below_eq (hok.stamped_sorted hplaces) (List.mem_map_of_mem hmem)]
  · rfl
  · rcases Nat.lt_or_eq_of_le h.base with hlt | heq
    · exact stampOf_lt (hplaces u hmem) hlt
    · show stampOf n u.stamp u.place < stampOf n c place
      rw [heq]
      exact Nat.add_lt_add_left h.before _
  · intro w hw hlt
    obtain ⟨v, hv, rfl⟩ := List.mem_map.mp hw
    rcases Nat.lt_trichotomy u.stamp v.stamp with hlater | heq | holder
    · exfalso
      rcases h.later v hv hlater with hc | ⟨hc, hsame⟩
      · exact Nat.lt_asymm hlt (stampOf_lt hplace hc)
      · dsimp only at hlt
        rw [hc, hsame] at hlt
        exact Nat.lt_irrefl _ hlt
    · exact Nat.le_of_eq (hok.unique hv hmem heq.symm ▸ rfl)
    · exact Nat.le_of_lt (stampOf_lt (hplaces v hv) holder)

end Lease
