import LedgerIndex.Proofs.Course
import LedgerIndex.Proofs.Replay
import LedgerIndex.Proofs.Rows

/-!
# Pending rewards

A reward is pending until it is flagged, and a flag is not taken back. Sessions that are
committed and rewards that are new leave the flags that there are alone, so what is pending
stays so until somebody flags it.
-/
namespace LedgerIndex.Store

def flag? (store : Store) (id : String) : Option Bool :=
  store.tables.rewards[id]?.map (·.processed)

@[simp] theorem rewards_commit (store : Store) (s : Session) :
    (store.commit s).tables.rewards = store.tables.rewards :=
  (Change.untouched_applyAll store.tables s.staged).1

@[simp] theorem blocks_commit (store : Store) (s : Session) :
    (store.commit s).tables.blocks = store.tables.blocks :=
  (Change.untouched_applyAll store.tables s.staged).2

theorem flag?_markReward (store : Store) (reward id : String) :
    (store.markReward reward).flag? id =
      if reward = id then (store.flag? id).map fun _ => true else store.flag? id := by
  simp only [flag?, markReward, Table.getElem?_update]
  by_cases same : reward = id
  · subst same
    simp [Function.comp_def]
  · simp [same]

/-- A reward is listed if it is unflagged and old enough, and its block has a child. -/
theorem mem_pendingRewards {store : Store} {before : Timestamp} {r : PendingReward} :
    r ∈ store.pendingRewards before ↔
      ∃ (row : RewardRow) (child : String) (block : BlockRow),
        store.tables.rewards[r.id]? = some row ∧ row.processed = false ∧
        (compare row.created before).isLT = true ∧ store.tables.blocks[child]? = some block ∧
        block.parent = row.block ∧ r = ⟨r.id, row.transaction, block.kind, row.created⟩ := by
  simp only [pendingRewards, List.mem_mergeSort, List.mem_flatMap, List.mem_filter, List.mem_map,
    Prod.exists, Std.ExtTreeMap.mem_toList_iff_getElem?_eq_some, Bool.and_eq_true,
    Bool.not_eq_true', beq_iff_eq]
  constructor
  · rintro ⟨id, row, ⟨found, unflagged, due⟩, child, block, ⟨known, parent⟩, rfl⟩
    exact ⟨row, child, block, found, unflagged, due, known, parent, rfl⟩
  · rintro ⟨row, child, block, found, unflagged, due, known, parent, same⟩
    exact ⟨r.id, row, ⟨found, unflagged, due⟩, child, block, ⟨known, parent⟩, same.symm⟩

theorem flag?_of_mem_pendingRewards {store : Store} {before : Timestamp} {r : PendingReward}
    (h : r ∈ store.pendingRewards before) : store.flag? r.id = some false := by
  obtain ⟨row, -, -, found, unflagged, -⟩ := mem_pendingRewards.mp h
  simp [flag?, found, unflagged]

/-- What becomes of a store: sessions are committed, blocks and rewards that are new are
recorded, and some rewards are flagged. -/
inductive Onward (flagged : String → Prop) (a : Store) : Store → Prop
  | refl : a.Onward flagged a
  | commit {b : Store} (s : Session) : a.Onward flagged b → a.Onward flagged (b.commit s)
  | markReward {b : Store} {id : String} : flagged id → a.Onward flagged b →
    a.Onward flagged (b.markReward id)
  | insertBlock {b : Store} {id : String} (parent : String) (kind : BlockKind) :
    id ∉ b.tables.blocks → a.Onward flagged b → a.Onward flagged (b.insertBlock id parent kind)
  | insertReward {b : Store} {id : String} (block : String) (transaction : Identifier)
    (created : Timestamp) : id ∉ b.tables.rewards → a.Onward flagged b →
      a.Onward flagged (b.insertReward id block transaction created)

/-- What others make of a store meanwhile: they do not flag rewards. -/
abbrev Meanwhile (a b : Store) : Prop :=
  a.Onward (fun _ => False) b

namespace Onward

variable {flagged flagged' : String → Prop} {a b c : Store}

theorem trans (hab : a.Onward flagged b) (hbc : b.Onward flagged c) : a.Onward flagged c := by
  induction hbc with
  | refl => exact hab
  | commit s _ ih => exact ih.commit s
  | markReward may _ ih => exact ih.markReward may
  | insertBlock parent kind fresh _ ih => exact ih.insertBlock parent kind fresh
  | insertReward block transaction created fresh _ ih =>
    exact ih.insertReward block transaction created fresh

theorem mono (h : a.Onward flagged b) (more : ∀ id, flagged id → flagged' id) :
    a.Onward flagged' b := by
  induction h with
  | refl => exact .refl
  | commit s _ ih => exact ih.commit s
  | markReward may _ ih => exact ih.markReward (more _ may)
  | insertBlock parent kind fresh _ ih => exact ih.insertBlock parent kind fresh
  | insertReward block transaction created fresh _ ih =>
    exact ih.insertReward block transaction created fresh

theorem evolves (h : a.Onward flagged b) : a.Evolves b := by
  induction h with
  | refl => exact .refl
  | commit s _ ih => exact ih.commit s
  | markReward _ _ ih => exact ih.markReward _
  | insertBlock parent kind _ _ ih => exact ih.insertBlock _ parent kind
  | insertReward block transaction created _ _ ih =>
    exact ih.insertReward _ block transaction created

theorem reward {id : String} {row : RewardRow} (h : a.Onward flagged b)
    (found : a.tables.rewards[id]? = some row) :
    b.tables.rewards[id]? = some row ∨
      flagged id ∧ b.tables.rewards[id]? = some { row with processed := true } := by
  induction h with
  | refl => exact .inl found
  | commit s _ ih =>
    rw [rewards_commit]
    exact ih
  | @markReward b other may _ ih =>
    simp only [Store.markReward, Table.getElem?_update]
    by_cases same : other = id
    · subst same
      rw [if_pos rfl]
      rcases ih with kept | ⟨-, kept⟩
      · exact .inr ⟨may, by rw [kept]; rfl⟩
      · exact .inr ⟨may, by rw [kept]; rfl⟩
    · rw [if_neg same]
      exact ih
  | insertBlock _ _ _ _ ih => exact ih
  | @insertReward b other _ _ _ fresh _ ih =>
    have different : other ≠ id := by
      rintro rfl
      apply fresh
      rw [Table.mem_iff_getElem?]
      exact ih.elim (fun kept => ⟨_, kept⟩) fun kept => ⟨_, kept.2⟩
    simp only [Store.insertReward, Std.ExtTreeMap.getElem?_insert,
      Std.LawfulEqCmp.compare_eq_iff_eq, if_neg different]
    exact ih

theorem block {id : String} {row : BlockRow} (h : a.Onward flagged b)
    (found : a.tables.blocks[id]? = some row) : b.tables.blocks[id]? = some row := by
  induction h with
  | refl => exact found
  | commit s _ ih =>
    rw [blocks_commit]
    exact ih
  | markReward _ _ ih => exact ih
  | @insertBlock b other _ _ fresh _ ih =>
    have different : other ≠ id := by
      rintro rfl
      exact fresh (Table.mem_iff_getElem?.mpr ⟨row, ih⟩)
    simp only [Store.insertBlock, Std.ExtTreeMap.getElem?_insert,
      Std.LawfulEqCmp.compare_eq_iff_eq, if_neg different]
    exact ih
  | insertReward _ _ _ _ _ ih => exact ih

/-- A reward does not disappear, and a flag is not taken back. -/
theorem keeps_flag {id : String} {flag : Bool} (h : a.Onward flagged b)
    (found : a.flag? id = some flag) :
    b.flag? id = some flag ∨ flagged id ∧ b.flag? id = some true := by
  obtain ⟨row, there, rfl⟩ := Option.map_eq_some_iff.mp found
  rcases h.reward there with kept | ⟨may, kept⟩
  · exact .inl (by rw [Store.flag?, kept]; rfl)
  · exact .inr ⟨may, by rw [Store.flag?, kept]; rfl⟩

theorem keeps_flagged {id : String} (h : a.Onward flagged b) (found : a.flag? id = some true) :
    b.flag? id = some true :=
  (h.keeps_flag found).elim (fun kept => kept) fun kept => kept.2

/-- What is pending stays pending, unless somebody flags it. -/
theorem keeps_pending {r : PendingReward} {before : Timestamp} (h : a.Onward flagged b)
    (listed : r ∈ a.pendingRewards before) :
    r ∈ b.pendingRewards before ∨ flagged r.id ∧ b.flag? r.id = some true := by
  obtain ⟨row, child, parent, found, unflagged, due, known, same⟩ := mem_pendingRewards.mp listed
  rcases h.reward found with kept | ⟨may, kept⟩
  · refine .inl (mem_pendingRewards.mpr ?_)
    exact ⟨row, child, parent, kept, unflagged, due, h.block known, same⟩
  · exact .inr ⟨may, by rw [Store.flag?, kept]; rfl⟩

end Onward

namespace Meanwhile

variable {a b : Store}

theorem keeps_flag {id : String} {flag : Bool} (h : a.Meanwhile b)
    (found : a.flag? id = some flag) : b.flag? id = some flag :=
  (Onward.keeps_flag h found).resolve_right fun may => may.1

theorem keeps_pending {r : PendingReward} {before : Timestamp} (h : a.Meanwhile b)
    (listed : r ∈ a.pendingRewards before) : r ∈ b.pendingRewards before :=
  (Onward.keeps_pending h listed).resolve_right fun may => may.1

end Meanwhile
end LedgerIndex.Store
