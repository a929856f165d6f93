import TreeAlign.Alignment
import TreeAlign.Inspect
import TreeAlign.Json.Writer
import TreeAlign.Proofs.Terminal.Reading
import TreeAlign.Proofs.Spelling.Expansion
import TreeAlign.Proofs.Matching.Finding
import TreeAlign.Proofs.Matching.Keeping
import TreeAlign.Proofs.Matching.Supply
import TreeAlign.Proofs.Matching.Taking
import TreeAlign.Proofs.Tree.Ranges
import TreeAlign.Proofs.Matching.Weave
import TreeAlign.Proofs.Lossless
import TreeAlign.Proofs.Matching.Layout
import TreeAlign.Proofs.Speculation
import TreeAlign.Proofs.Spelling.Outline
import TreeAlign.Proofs.Terminal.Rereading
import TreeAlign.Proofs.Matching.Retrace
import TreeAlign.Proofs.Rereading
import TreeAlign.Proofs.Terminal.Consuming
import TreeAlign.Proofs.Matching.Unread
import TreeAlign.Proofs.Matching.Moves
import TreeAlign.Proofs.Slot
import TreeAlign.Proofs.Matching.Recording
import TreeAlign.Proofs.Matching.Fallback
import TreeAlign.Proofs.Matching.Accounting
import TreeAlign.Proofs.Matching.Gathering
import TreeAlign.Proofs.Positions
import TreeAlign.Proofs.Ranged
import TreeAlign.Proofs.Tree.Height
import TreeAlign.Proofs.Matching.Holding
import TreeAlign.Proofs.Matching.Calling
import TreeAlign.Proofs.Termination
import TreeAlign.Proofs.Spelling.Ending
import TreeAlign.Proofs.Spelling.LeafCount
import TreeAlign.Proofs.Matching.Probing
import TreeAlign.Proofs.Matching.Chronicle
import TreeAlign.Proofs.Resolved
import TreeAlign.Proofs.Matching.Ranking
import TreeAlign.Proofs.Matching.Layering
import TreeAlign.Proofs.Acyclic
import TreeAlign.Proofs.Matching.Renaming
import TreeAlign.Proofs.Matching.Twins
import TreeAlign.Proofs.Restarting
import TreeAlign.Proofs.Spelling.Inventory
import TreeAlign.Proofs.Ownership
import TreeAlign.Proofs.Matching.Stages
import TreeAlign.Proofs.Cursor.Onward
import TreeAlign.Proofs.Safety
import TreeAlign.Proofs.Failing
import TreeAlign.Proofs.Spelling.Nesting
import TreeAlign.Proofs.Nesting
import TreeAlign.Proofs.Cutoff
import TreeAlign.Proofs.Matching.Underway
import TreeAlign.Proofs.ChildOrder
import TreeAlign.Proofs.Printing
import TreeAlign.Proofs.Grammar.Heedless
import TreeAlign.Proofs.Matching.Tandem
import TreeAlign.Proofs.Matching.Emissions
import TreeAlign.Proofs.Muting
import TreeAlign.Proofs.Returning
import TreeAlign.Proofs.Matching.Coincidence
import TreeAlign.Proofs.Splitting
import TreeAlign.Proofs.Optionality
import TreeAlign.Proofs.Softening
import TreeAlign.Proofs.Terminal.Agreement
import TreeAlign.Proofs.Terminal.Heads
import TreeAlign.Proofs.Tree.Address
import TreeAlign.Proofs.Locating
import TreeAlign.Proofs.Counting
import TreeAlign.Proofs.Tree.Reencoding
import TreeAlign.Proofs.Text.Boundary
import TreeAlign.Proofs.Text.Boundary
