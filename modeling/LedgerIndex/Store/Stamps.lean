import LedgerIndex.Store.Change

/-!
# Stamps

Seven tables have one column more than their rows show: the time on the wall clock when a row
was made. Addresses, presence, displays and holdings are stamped anew whenever they are written
over, and a holding also when it is signed; contributions and activities keep their first stamp.
A stamp is read off for each change, so two deliveries of one message make the same rows and
differ in the stamps.
-/
namespace LedgerIndex

/-- The clock columns, each under the keys of its table. -/
structure Stamps where
  addresses : Table Address Timestamp
  presence : Table (Address × String) Timestamp
  displays : Table Address Timestamp
  holdings : Table (Identifier × Address) Timestamp
  outgoing : Table Identifier Timestamp
  incoming : Table Identifier Timestamp
  activity : Table Identifier Timestamp

def Stamps.empty : Stamps := ⟨∅, ∅, ∅, ∅, ∅, ∅, ∅⟩

namespace Change

/-- Stamps the row that is written with the time the clock shows. -/
def stamp (now : Timestamp) (s : Stamps) : Change → Stamps
  | address row overwrite =>
    { s with addresses := s.addresses.upsert row.address now overwrite }
  | presence row overwrite =>
    { s with presence := s.presence.upsert (row.address, row.chain) now overwrite }
  | display row overwrite => { s with displays := s.displays.upsert row.address now overwrite }
  | holding row overwrite =>
    { s with holdings := s.holdings.upsert (row.output, row.address) now overwrite }
  | signature id owner _ => { s with holdings := s.holdings.update (id, owner) fun _ => now }
  | outgoing row => { s with outgoing := s.outgoing.insertNew row.id now }
  | incoming row => { s with incoming := s.incoming.insertNew row.id now }
  | activity row => { s with activity := s.activity.insertNew row.id now }
  | transaction .. | output .. | redemption _ | spent _ | trace .. | log .. => s

/-- Stamps rows in order. The clock shows `clock n` for the first change, and so on. -/
def stampAll (clock : Nat → Timestamp) : Nat → Stamps → List Change → Stamps
  | _, s, [] => s
  | n, s, c :: cs => stampAll clock (n + 1) (c.stamp (clock n) s) cs

end Change
end LedgerIndex
