import LedgerIndex.Proofs.History
import LedgerIndex.Proofs.Rows

/-!
# Rows that are there

No change takes a row away. So what a session has put is there once the session is committed,
and whatever happens to the store after that, it is there from then on.
-/
namespace LedgerIndex

theorem Table.mem_put_of_mem {κ ν : Type} [Ord κ] [Std.TransOrd κ] [Std.LawfulEqOrd κ]
    [DecidableEq κ] {t : Table κ ν} {k : κ} (known : k ∈ t) (k' : κ) (new : ν) (conflict : ν → ν) :
    k ∈ t.put k' new conflict :=
  (mem_put _ _ _ _ _).mpr (.inr known)

/-- No row of the first tables is missing from the second. -/
structure Tables.Within (t t' : Tables) : Prop where
  transactions : ∀ k ∈ t.transactions, k ∈ t'.transactions
  outputs : ∀ k ∈ t.outputs, k ∈ t'.outputs
  redemptions : ∀ k ∈ t.redemptions, k ∈ t'.redemptions
  addresses : ∀ k ∈ t.addresses, k ∈ t'.addresses
  presence : ∀ k ∈ t.presence, k ∈ t'.presence
  displays : ∀ k ∈ t.displays, k ∈ t'.displays
  holdings : ∀ k ∈ t.holdings, k ∈ t'.holdings
  outgoing : ∀ k ∈ t.outgoing, k ∈ t'.outgoing
  incoming : ∀ k ∈ t.incoming, k ∈ t'.incoming
  activity : ∀ k ∈ t.activity, k ∈ t'.activity
  traces : ∀ k ∈ t.traces, k ∈ t'.traces
  logs : ∀ k ∈ t.logs, k ∈ t'.logs

namespace Tables.Within

variable {t t' t'' : Tables}

theorem refl (t : Tables) : t.Within t := by
  constructor <;> exact fun _ h => h

theorem trans (h : t.Within t') (h' : t'.Within t'') : t.Within t'' where
  transactions k known := h'.transactions k (h.transactions k known)
  outputs k known := h'.outputs k (h.outputs k known)
  redemptions k known := h'.redemptions k (h.redemptions k known)
  addresses k known := h'.addresses k (h.addresses k known)
  presence k known := h'.presence k (h.presence k known)
  displays k known := h'.displays k (h.displays k known)
  holdings k known := h'.holdings k (h.holdings k known)
  outgoing k known := h'.outgoing k (h.outgoing k known)
  incoming k known := h'.incoming k (h.incoming k known)
  activity k known := h'.activity k (h.activity k known)
  traces k known := h'.traces k (h.traces k known)
  logs k known := h'.logs k (h.logs k known)

end Tables.Within

namespace Change

theorem within_apply (t : Tables) (c : Change) : t.Within (c.apply t) := by
  have self := Tables.Within.refl t
  cases c with
  | transaction row overwrite =>
    exact { self with transactions := fun _ h => Table.mem_put_of_mem h _ _ _ }
  | output row overwrite => exact { self with outputs := fun _ h => Table.mem_put_of_mem h _ _ _ }
  | redemption row => exact { self with redemptions := fun _ h => Table.mem_put_of_mem h _ _ _ }
  | address row overwrite =>
    exact { self with addresses := fun _ h => Table.mem_put_of_mem h _ _ _ }
  | presence row overwrite =>
    exact { self with presence := fun _ h => Table.mem_put_of_mem h _ _ _ }
  | display row overwrite => exact { self with displays := fun _ h => Table.mem_put_of_mem h _ _ _ }
  | holding row overwrite => exact { self with holdings := fun _ h => Table.mem_put_of_mem h _ _ _ }
  | signature output address value =>
    exact { self with holdings := fun _ h => (Table.mem_update _ _ _ _).mpr h }
  | outgoing row => exact { self with outgoing := fun _ h => Table.mem_put_of_mem h _ _ _ }
  | incoming row => exact { self with incoming := fun _ h => Table.mem_put_of_mem h _ _ _ }
  | spent output => exact { self with incoming := fun _ h => Std.ExtTreeMap.mem_map.mpr h }
  | activity row => exact { self with activity := fun _ h => Table.mem_put_of_mem h _ _ _ }
  | trace row overwrite => exact { self with traces := fun _ h => Table.mem_put_of_mem h _ _ _ }
  | log row overwrite => exact { self with logs := fun _ h => Table.mem_put_of_mem h _ _ _ }

theorem within_applyAll (t : Tables) (cs : List Change) : t.Within (applyAll t cs) := by
  induction cs generalizing t with
  | nil => exact .refl t
  | cons c cs ih => exact (within_apply t c).trans (ih _)

end Change

theorem Store.Evolves.within {a b : Store} (h : a.Evolves b) : a.tables.Within b.tables := by
  induction h with
  | refl => exact .refl _
  | commit s _ ih => exact ih.trans (Change.within_applyAll _ _)
  | markReward _ _ ih => exact { ih with }
  | insertBlock _ _ _ _ ih => exact { ih with }
  | insertReward _ _ _ _ _ ih => exact { ih with }

namespace Change

/-- The row that the change puts is there. -/
def Present (t : Tables) : Change → Prop
  | transaction row _ => row.id ∈ t.transactions
  | output row _ => row.id ∈ t.outputs
  | redemption row => row.id ∈ t.redemptions
  | address row _ => row.address ∈ t.addresses
  | presence row _ => (row.address, row.chain) ∈ t.presence
  | display row _ => row.address ∈ t.displays
  | holding row _ => (row.output, row.address) ∈ t.holdings
  | outgoing row => row.id ∈ t.outgoing
  | incoming row => row.id ∈ t.incoming
  | activity row => row.id ∈ t.activity
  | trace row _ => row.id ∈ t.traces
  | log row _ => row.id ∈ t.logs
  | signature .. | spent _ => False

/-- The change puts a row, and does not only revise rows. -/
def Creates : Change → Prop
  | signature .. | spent _ => False
  | _ => True

theorem Present.within {t t' : Tables} {c : Change} (h : c.Present t) (later : t.Within t') :
    c.Present t' := by
  cases c with
  | transaction row _ => exact later.transactions _ h
  | output row _ => exact later.outputs _ h
  | redemption row => exact later.redemptions _ h
  | address row _ => exact later.addresses _ h
  | presence row _ => exact later.presence _ h
  | display row _ => exact later.displays _ h
  | holding row _ => exact later.holdings _ h
  | outgoing row => exact later.outgoing _ h
  | incoming row => exact later.incoming _ h
  | activity row => exact later.activity _ h
  | trace row _ => exact later.traces _ h
  | log row _ => exact later.logs _ h
  | signature output address value => exact h
  | spent output => exact h

theorem present_apply {c : Change} (creates : c.Creates) (t : Tables) : c.Present (c.apply t) := by
  cases c with
  | signature output address value => exact creates.elim
  | spent output => exact creates.elim
  | _ => exact (Table.mem_put _ _ _ _ _).mpr (.inl rfl)

/-- After some changes all the rows that they put are there. -/
theorem present_applyAll {cs : List Change} {c : Change} (member : c ∈ cs) (creates : c.Creates)
    (t : Tables) : c.Present (applyAll t cs) := by
  induction cs generalizing t with
  | nil => cases member
  | cons d cs ih =>
    rcases List.mem_cons.mp member with rfl | member
    · exact (present_apply creates t).within (within_applyAll _ cs)
    · exact ih member _

end Change

namespace Task

variable {s : Settings} {t : Task} {store after : Store}

/-- All rows that the task puts are in the tables. -/
def Stored (s : Settings) (t : Task) (tables : Tables) : Prop :=
  ∀ c ∈ (t.work s).changes, c.Creates → c.Present tables

/-- A task takes effect at once: an undisturbed attempt does the same, and that makes the changes
of the task in order, so that all of its rows are there. -/
structure TakesEffect (s : Settings) (t : Task) (before after : Store) : Prop where
  undisturbed : t.commit? s before = some after
  tables : after.tables = Change.applyAll before.tables (t.work s).changes
  stored : t.Stored s after.tables

theorem TakesEffect.of_commit? (committed : t.commit? s store = some after) :
    t.TakesEffect s store after := by
  obtain ⟨session, leaves, rfl⟩ := (commit?_eq_some_iff s t store after).mp committed
  have staged := (fills_of_leaves leaves).staged_eq
  have tables : (store.commit session).tables =
      Change.applyAll store.tables (t.work s).changes := by
    rw [← staged]
    rfl
  refine ⟨committed, tables, fun c member creates => ?_⟩
  rw [tables]
  exact Change.present_applyAll member creates store.tables

theorem Stored.later (stored : t.Stored s store.tables) (evolves : store.Evolves after) :
    t.Stored s after.tables :=
  fun c member creates => (stored c member creates).within evolves.within

end Task

/-- There is something to do for the message, and all of its rows are in the tables. -/
def Delivery.Stored (s : Settings) (d : Delivery) (tables : Tables) : Prop :=
  ∃ task, d.task? s = some task ∧ task.Stored s tables

theorem Delivery.Stored.later {s : Settings} {d : Delivery} {store after : Store}
    (stored : d.Stored s store.tables) (evolves : store.Evolves after) :
    d.Stored s after.tables := by
  obtain ⟨task, due, stored⟩ := stored
  exact ⟨task, due, stored.later evolves⟩

end LedgerIndex
