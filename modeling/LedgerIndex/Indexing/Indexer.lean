import LedgerIndex.Settings
import LedgerIndex.Writer

/-!
# The indexer's state

What all work shares: the store, the counters, the signals to the balance keeper,
the journal, and whether a stop has been requested.
-/
namespace LedgerIndex

structure Indexer where
  store : Store
  meters : Meters
  signals : Nat
  journal : List Event
  stopping : Bool

namespace Indexer

def empty : Indexer := ⟨.empty, .empty, 0, [], false⟩

instance : Inhabited Indexer := ⟨empty⟩

def note (ix : Indexer) (e : Event) : Indexer :=
  { ix with journal := ix.journal ++ [e] }

def noteAll (ix : Indexer) (es : List Event) : Indexer :=
  { ix with journal := ix.journal ++ es }

def count (ix : Indexer) (source : String) (what : Tally) : Indexer :=
  { ix with meters := ix.meters.record source what }

/-- Tells the balance keeper that there is new work. -/
def signal (ix : Indexer) : Indexer :=
  { ix with signals := ix.signals + 1 }

/-- Requests a stop. -/
def stop (ix : Indexer) : Indexer :=
  { ix with stopping := true }

/-- One step of a script against the store. -/
def stepRun {α : Type} (ix : Indexer) (answer : Answer) (run : Run α) : Indexer × Run α :=
  let (store, run, events) := run.step answer ix.store
  (({ ix with store } : Indexer).noteAll events, run)

end Indexer

/-- Writes for the chain that the settings name. -/
def Settings.writer (s : Settings) : Writer :=
  ⟨s.chain, s.asset, s.part, s.strict⟩

end LedgerIndex
