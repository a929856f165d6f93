import TreeAlign.Cursor.Input
import TreeAlign.Matching.Executor
import TreeAlign.Terminal.Stock

/-!
# Alignments

The result of a whole match: the spelling of the root, and the spellings of
all children by the references that stand for them. Children of attempts
that were given up stay among the subtrees, but no reference in the tree
leads to them.

A match has a result unless one of its moves past a child never ends. The
journal has the move in it, so whether a match comes to an end is told from
its moments, and what is written after such a move never happens.
-/

namespace TreeAlign

/-- A tree aligned with its tokens. -/
structure Alignment where
  root : Spelling
  subtrees : Subtrees

namespace Alignment

/-- The spelling that a reference stands for. -/
def child? (alignment : Alignment) (reference : Token) : Option Spelling :=
  alignment.subtrees.get? reference

/-- The leaf tokens of a part of the tree. -/
def leavesOf (alignment : Alignment) (spelling : Spelling) : List Token :=
  alignment.subtrees.leaves spelling

/-- The leaf tokens of the whole tree in order. -/
def leaves (alignment : Alignment) : List Token :=
  alignment.leavesOf alignment.root

/-- The text of the whole tree. -/
def text (alignment : Alignment) : String :=
  Token.textOf alignment.leaves

/-- The number of nodes reached from the root, the root included. -/
def nodeCount (alignment : Alignment) : Nat :=
  alignment.subtrees.nodeCount alignment.root

end Alignment

namespace Spelling

/-- An extent as a record. -/
def extentJson (extent : Extent) : Json :=
  let medium := match extent.medium with
    | .text => "Text"
    | .tokens => "Tokens"
    | .synthetic => "Synthetic"
  .object [("representation", .string medium), ("start", .ofNat extent.start),
    ("end", .ofNat extent.stop)]

/-- A spelling as a record. -/
def toJson (spelling : Spelling) : Json :=
  .object
    [("node", (spelling.node.mapTokens Token.toLexeme).toJson),
     ("cst_tokens", .array (spelling.tokens.map fun token => token.toLexeme.toJson)),
     ("source", extentJson spelling.extent)]

end Spelling

namespace Aligner

variable {τ σ ρ : Type} [Terminal τ] [Cursor σ] [Reads σ τ] (aligner : Aligner τ ρ)

/-- Matches a whole tree. Separator tokens that are still in the slot when the root is done belong
to the root. The state of the match is kept when it fails. -/
def run (root : Node Token) (cursor : σ) (supply : Nat) :
    Except Failure Alignment × Progress τ σ ρ :=
  match aligner.matchNode (aligner.limits.maxDepth + 1) (.root root) cursor
      ({ supply } : Progress τ σ ρ) with
  | .done spelling progress =>
    (.ok ⟨{ spelling with tokens := spelling.tokens ++ progress.pendingTokens },
      progress.subtrees⟩, progress.claimed)
  | .failed failure progress => (.error failure, progress)

/-- Whether a match of a whole tree comes to an end, with a result or in a failure. -/
def returns (root : Node Token) (cursor : σ) (supply : Nat) : Bool :=
  (aligner.run root cursor supply).2.ends

/-- Matches a whole tree with the stock terminals and inputs, the default limits, and references
resolved by name. There is no result if the match does not come to an end. -/
def align (grammar : Grammar Stock) (root : Node Token) (cursor : Input) (supply : Nat) :
    Option (Except Failure Alignment) :=
  let aligner : Aligner Stock ByName := { grammar, resolver := .byName }
  if aligner.returns root cursor supply then some (aligner.run root cursor supply).1 else none

end Aligner

end TreeAlign
