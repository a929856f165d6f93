import TreeAlign.Cursor.Basic
import TreeAlign.Text.Measure

/-!
# Cursors in flat text

Positions are bytes from the start of the whole text, also when the cursor
is confined to a part of it, so the extents found by different cursors can
be compared. Bounds that fall inside a character move back to its start.
-/

namespace TreeAlign

/-- A place in a text that is read up to `stop`. -/
structure TextCursor where
  text : List Char
  position : Nat
  stop : Nat
deriving DecidableEq, Repr

namespace TextCursor

/-- A cursor at the start of a text. -/
def whole (text : List Char) : TextCursor :=
  ⟨text, 0, Text.byteLength text⟩

/-- A cursor confined to a range of a text. -/
def within (text : List Char) (span : Span) : TextCursor :=
  let stop := Text.floor text span.stop
  ⟨text, Text.floor text (min span.start stop), stop⟩

/-- The text that is left to read. -/
def remaining (cursor : TextCursor) : List Char :=
  Text.slice cursor.text cursor.position cursor.stop

/-- Nothing is left to read. -/
def isExhausted (cursor : TextCursor) : Bool :=
  cursor.stop ≤ cursor.position

/-- A reference is spelled wherever something is left: what the child covers is only known once
the child has been matched. Everything else is looked for in the text. -/
def probe {τ : Type} [Terminal τ] (cursor : TextCursor) (terminal : τ) : Option (List Lexeme) :=
  if Terminal.isReference terminal then
    if cursor.isExhausted then none else some (Terminal.build terminal none)
  else Terminal.matchText terminal cursor.remaining

/-- The position after a token: behind the token's text, or where the child of a reference ends
if that is further on. -/
def after (subtrees : Subtrees) (position : Nat) (token : Token) : Nat :=
  if token.isReference then
    match subtrees.get? token with
    | some child => max child.extent.stop position
    | none => position
  else position + token.value.utf8ByteSize

/-- Moves past tokens, and never beyond the end of the text that is read. -/
def advance (tokens : List Token) (subtrees : Subtrees) (cursor : TextCursor) : TextCursor :=
  { cursor with
    position := tokens.foldl (fun position token => min (after subtrees position token) cursor.stop)
      cursor.position }

/-- A child with a range is read there; without one it is read from here on. -/
def forChild (child : Node Token) (cursor : TextCursor) : TextCursor :=
  match child.range with
  | some range => within cursor.text range
  | none => cursor

/-- Flat text has no other form. -/
def noFallback : Failure :=
  .noFallback .text "flat text has no alternate representation"

end TextCursor

end TreeAlign
