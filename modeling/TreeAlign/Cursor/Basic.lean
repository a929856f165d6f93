import TreeAlign.Failure
import TreeAlign.Terminal.Basic

/-!
# Cursors

A cursor is a place in some input. A match probes terminals at it without
moving it, moves it past what was found, opens a cursor for a child, and
asks for another form of the same input when a required terminal is missing.
Cursors are values: keeping one is keeping a copy.

A cursor may have to measure the child that it is moved past, and that may
go on for ever. `advance` is a function all the same, and `advanceEnds` says
for which tokens it stands for something that comes to an end.
-/

namespace TreeAlign

/-- What a probe finds: tokens that the input holds, or lexemes that are new. -/
inductive Found where
  | stored (tokens : List Token)
  | spelled (lexemes : List Lexeme)

namespace Found

/-- The tokens that were found; new lexemes get identities from the supply. -/
def tokens (supply : Nat) : Found → List Token
  | .stored tokens => tokens
  | .spelled lexemes => Token.mint supply lexemes

/-- The supply that is left after new lexemes got their identities. -/
def supplyAfter (supply : Nat) : Found → Nat
  | .stored _ => supply
  | .spelled lexemes => supply + lexemes.length

end Found

/-- A place in some input. -/
class Cursor (σ : Type) where
  /-- What kind of input is read. -/
  medium : σ → Medium
  /-- The position, in units of the medium. -/
  position : σ → Nat
  /-- Nothing is left to read. -/
  isExhausted : σ → Bool
  /-- Moves past tokens; a reference is passed by what is stored for it. -/
  advance : List Token → Subtrees → σ → σ
  /-- Whether moving past the tokens comes to an end, wherever in its input the cursor stands. -/
  advanceEnds : List Token → Subtrees → σ → Bool := fun _ _ _ => true
  /-- A cursor for a child's own input. -/
  forChild : Node Token → σ → σ
  /-- Another form of the same input, or why there is none. -/
  fallback : σ → Except Failure σ

/-- A cursor at which terminals of the given type can be probed. -/
class Reads (σ τ : Type) where
  /-- What the terminal finds at the cursor, which stays where it is. -/
  probe : σ → τ → Option Found

end TreeAlign
