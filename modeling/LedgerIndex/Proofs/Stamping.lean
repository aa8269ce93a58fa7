import LedgerIndex.Proofs.History
import LedgerIndex.Proofs.Rows

/-!
# Stamping

Every row of a table with a clock column has its stamp, and there are no other stamps: a change
makes a stamp exactly where it makes a row. So it is with every store that comes about.
-/
namespace LedgerIndex

/-- Two tables with the same keys still have the same keys when both are written to at one. -/
theorem Table.mem_put_congr {κ ν ρ : Type} [Ord κ] [Std.TransOrd κ] [Std.LawfulEqOrd κ]
    [DecidableEq κ] {t : Table κ ν} {u : Table κ ρ} (same : ∀ k, k ∈ u ↔ k ∈ t) {key : κ} {new : ν}
    {now : ρ} {conflict : ν → ν} {conflict' : ρ → ρ} :
    ∀ k, k ∈ u.put key now conflict' ↔ k ∈ t.put key new conflict := by
  intro k
  rw [mem_put, mem_put, same]

structure Stamps.Cover (s : Stamps) (t : Tables) : Prop where
  addresses : ∀ k, k ∈ s.addresses ↔ k ∈ t.addresses
  presence : ∀ k, k ∈ s.presence ↔ k ∈ t.presence
  displays : ∀ k, k ∈ s.displays ↔ k ∈ t.displays
  holdings : ∀ k, k ∈ s.holdings ↔ k ∈ t.holdings
  outgoing : ∀ k, k ∈ s.outgoing ↔ k ∈ t.outgoing
  incoming : ∀ k, k ∈ s.incoming ↔ k ∈ t.incoming
  activity : ∀ k, k ∈ s.activity ↔ k ∈ t.activity

theorem Stamps.Cover.empty : Stamps.empty.Cover .empty := by
  constructor <;> simp [Stamps.empty, Tables.empty]

namespace Change

variable {s : Stamps} {t : Tables}

theorem cover_stamp (covers : s.Cover t) (now : Timestamp) (c : Change) :
    (c.stamp now s).Cover (c.apply t) := by
  cases c with
  | address row o => exact { covers with addresses := Table.mem_put_congr covers.addresses }
  | presence row o => exact { covers with presence := Table.mem_put_congr covers.presence }
  | display row o => exact { covers with displays := Table.mem_put_congr covers.displays }
  | holding row o => exact { covers with holdings := Table.mem_put_congr covers.holdings }
  | signature output address value =>
    exact { covers with holdings := fun k =>
      (Table.mem_update ..).trans ((covers.holdings k).trans (Table.mem_update ..).symm) }
  | outgoing row => exact { covers with outgoing := Table.mem_put_congr covers.outgoing }
  | incoming row => exact { covers with incoming := Table.mem_put_congr covers.incoming }
  | spent output =>
    exact { covers with incoming := fun k =>
      (covers.incoming k).trans Std.ExtTreeMap.mem_map.symm }
  | activity row => exact { covers with activity := Table.mem_put_congr covers.activity }
  | transaction row o | output row o | redemption row | trace row o | log row o =>
    exact { covers with }

theorem cover_stampAll (covers : s.Cover t) (clock : Nat → Timestamp) (n : Nat)
    (cs : List Change) : (stampAll clock n s cs).Cover (applyAll t cs) := by
  induction cs generalizing s t n with
  | nil => exact covers
  | cons c cs ih => exact ih (cover_stamp covers (clock n) c) (n + 1)

end Change

theorem Store.History.covered {works : List Work} {store : Store} (h : History works store) :
    store.stamps.Cover store.tables := by
  induction h with
  | blank clock => exact .empty
  | commit work _ filled ih => exact Change.cover_stampAll ih _ _ _
  | markReward id _ ih => exact { ih with }
  | insertBlock id parent kind _ ih => exact { ih with }
  | insertReward id block transaction created _ ih => exact { ih with }

end LedgerIndex
