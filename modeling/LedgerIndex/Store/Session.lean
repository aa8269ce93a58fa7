import LedgerIndex.Store.Stamps

/-!
# Sessions

A session stages its changes; nothing is visible to others before it is committed,
and then everything is. A session that is given up leaves no trace.
-/
namespace LedgerIndex

/-- The tables with their stamps, and the names of the tables in the order they were written
to. The wall clock shows `clock n` as the write number `n` is made. -/
structure Store where
  tables : Tables
  writes : List TableName
  stamps : Stamps
  clock : Nat → Timestamp

/-- Nothing has been written yet. -/
def Store.blank (clock : Nat → Timestamp) : Store := ⟨.empty, [], .empty, clock⟩

def Store.empty : Store := .blank fun _ => .epoch

instance : Inhabited Store := ⟨.empty⟩

/-- Changes that are not committed yet, in order. -/
structure Session where
  staged : List Change
deriving DecidableEq

namespace Session

def empty : Session := ⟨[]⟩

instance : Inhabited Session := ⟨empty⟩

def stage (s : Session) (c : Change) : Session :=
  ⟨s.staged ++ [c]⟩

/-- The session has staged an output with this identifier. -/
def stagesOutput (s : Session) (id : Identifier) : Bool :=
  s.staged.any fun
    | .output row _ => row.id == id
    | _ => false

end Session

/-- A reward that waits for its payout, and the kind of the block that decided it. -/
structure PendingReward where
  id : String
  transaction : Identifier
  block : BlockKind
  created : Timestamp
deriving DecidableEq

namespace Store

/-- Makes the changes of a session visible. -/
def commit (store : Store) (s : Session) : Store :=
  { store with
    tables := Change.applyAll store.tables s.staged
    writes := store.writes ++ s.staged.map Change.table
    stamps := Change.stampAll store.clock store.writes.length store.stamps s.staged }

/-- The output is committed, or staged in this session. -/
def outputExists (store : Store) (s : Session) (id : Identifier) : Bool :=
  s.stagesOutput id || store.tables.outputs.contains id

/-- Unprocessed rewards created before the given time, oldest first, each with
every child of its block. -/
def pendingRewards (store : Store) (before : Timestamp) : List PendingReward :=
  let due := store.tables.rewards.toList.filter fun r =>
    !r.2.processed && (compare r.2.created before).isLT
  let pending := due.flatMap fun r =>
    (store.tables.blocks.toList.filter fun b => b.2.parent == r.2.block).map fun b =>
      { id := r.1, transaction := r.2.transaction, block := b.2.kind, created := r.2.created }
  pending.mergeSort fun a b => (compare a.created b.created).isLE

/-- Flags a reward, if there is such a one. -/
def markReward (store : Store) (id : String) : Store :=
  { store with
    tables := { store.tables with
      rewards := store.tables.rewards.update id fun r => { r with processed := true } } }

/-- Records a block of the platform chain. -/
def insertBlock (store : Store) (id parent : String) (kind : BlockKind) : Store :=
  { store with
    tables := { store.tables with blocks := store.tables.blocks.insert id ⟨parent, kind⟩ } }

/-- Records a reward decided by the child of a block. -/
def insertReward (store : Store) (id block : String) (transaction : Identifier)
    (created : Timestamp) : Store :=
  { store with
    tables := { store.tables with
      rewards := store.tables.rewards.insert id ⟨block, transaction, false, created⟩ } }

end Store
end LedgerIndex
