import LedgerIndex.Node
import LedgerIndex.Notice
import LedgerIndex.Proofs.Accounts
import LedgerIndex.Proofs.Contents
import LedgerIndex.Proofs.Cutoffs
import LedgerIndex.Proofs.Dates
import LedgerIndex.Proofs.Defects
import LedgerIndex.Proofs.Faithfulness
import LedgerIndex.Proofs.Fees
import LedgerIndex.Proofs.Formats
import LedgerIndex.Proofs.Independence
import LedgerIndex.Proofs.Marks
import LedgerIndex.Proofs.Parts
import LedgerIndex.Proofs.Passwords
import LedgerIndex.Proofs.Placements
import LedgerIndex.Proofs.Replies
import LedgerIndex.Proofs.Respending
import LedgerIndex.Proofs.RewardCounts
import LedgerIndex.Proofs.Strictness
import LedgerIndex.Proofs.Variants
import LedgerIndex.Proofs.WriteOrder
import LedgerIndex.Rehearsal.Performance
import LedgerIndex.Telemetry
import LedgerIndex.Text.Target
