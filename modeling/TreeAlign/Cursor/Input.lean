import TreeAlign.Cursor.Tokens

/-!
# The stock of inputs

Flat text, attached tokens, or no input at all. Without input every terminal
is found by spelling it, and all positions are zero.
-/

namespace TreeAlign

/-- A place in one of the inputs that come with the library. -/
inductive Input where
  | text (cursor : TextCursor)
  | tokens (cursor : TokenCursor)
  | synthetic

namespace Input

/-- What kind of input is read. -/
def medium : Input → Medium
  | .text _ => .text
  | .tokens _ => .tokens
  | .synthetic => .synthetic

/-- Bytes of the text, leaves of the tokens, or zero. -/
def position : Input → Nat
  | .text cursor => cursor.position
  | .tokens cursor => cursor.offset
  | .synthetic => 0

/-- Nothing is left to read; spelling never ends. -/
def isExhausted : Input → Bool
  | .text cursor => cursor.isExhausted
  | .tokens cursor => cursor.isExhausted
  | .synthetic => false

/-- Moves past tokens. -/
def advance (tokens : List Token) (subtrees : Subtrees) : Input → Input
  | .text cursor => .text (cursor.advance tokens subtrees)
  | .tokens cursor => .tokens (cursor.advance tokens subtrees)
  | .synthetic => .synthetic

/-- Whether moving past tokens comes to an end: only in attached tokens are leaves counted. -/
def advanceEnds (tokens : List Token) (subtrees : Subtrees) : Input → Bool
  | .tokens _ => TokenCursor.advanceEnds tokens subtrees
  | .text _ | .synthetic => true

/-- A cursor for a child's own input. -/
def forChild (child : Node Token) : Input → Input
  | .text cursor => .text (cursor.forChild child)
  | .tokens cursor => .tokens (cursor.forChild child)
  | .synthetic => .synthetic

/-- Only attached tokens can go on in another medium. -/
def fallback : Input → Except Failure Input
  | .text _ => .error TextCursor.noFallback
  | .tokens cursor => cursor.fallback.map .text
  | .synthetic => .error (.noFallback .synthetic "synthesised input cannot fail over")

/-- What a terminal finds at the cursor. -/
def probe {τ : Type} [Terminal τ] (terminal : τ) : Input → Option Found
  | .text cursor => (cursor.probe terminal).map .spelled
  | .tokens cursor => (cursor.probe terminal).map .stored
  | .synthetic => some (.spelled (Terminal.build terminal none))

instance : Cursor Input where
  medium := medium
  position := position
  isExhausted := isExhausted
  advance := advance
  advanceEnds := advanceEnds
  forChild := forChild
  fallback := fallback

instance {τ : Type} [Terminal τ] : Reads Input τ where
  probe cursor terminal := cursor.probe terminal

end Input

end TreeAlign
