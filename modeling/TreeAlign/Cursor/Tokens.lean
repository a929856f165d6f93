import TreeAlign.Cursor.Text

/-!
# Cursors in attached tokens

Every node carries a token list of its own, and opening a child opens the
child's list. Positions count the leaves of the expanded tree and not the
places in one list, so the extents of nested nodes line up. A cursor that
knows the text and the range of its node can go on in the text.

The leaves of a child that was not read from tokens are counted when the
cursor is moved past it, and that ends only if its references lead to an end.
-/

namespace TreeAlign

/-- A place in the tokens attached to a node. -/
structure TokenCursor where
  tokens : List Token
  /-- The place in the list. -/
  index : Nat := 0
  /-- The number of leaves in front of the place. -/
  offset : Nat := 0
  text : Option (List Char) := none
  range : Option Span := none
deriving DecidableEq, Repr

namespace TokenCursor

/-- A cursor at the start of the tokens attached to a node; a node without tokens reads as empty. -/
def ofNode (node : Node Token) : TokenCursor :=
  { tokens := node.tokens.getD [], range := node.range }

/-- The cursor with a text to fall back to. -/
def withText (cursor : TokenCursor) (text : List Char) : TokenCursor :=
  { cursor with text := some text }

/-- The tokens that are left to read. -/
def remaining (cursor : TokenCursor) : List Token :=
  cursor.tokens.drop cursor.index

/-- Nothing is left to read. -/
def isExhausted (cursor : TokenCursor) : Bool :=
  cursor.tokens.length ≤ cursor.index

/-- The tokens that a terminal finds. -/
def probe {τ : Type} [Terminal τ] (cursor : TokenCursor) (terminal : τ) : Option (List Token) :=
  Terminal.matchTokens terminal cursor.remaining

/-- The number of leaves that a token covers. A reference covers its child: the child's extent if
it was read from tokens, and its leaves if it was read from something else. -/
def leavesOf (subtrees : Subtrees) (token : Token) : Nat :=
  match subtrees.child? token with
  | none => 1
  | some child =>
    match child.extent.medium with
    | .tokens => child.extent.stop - child.extent.start
    | _ => subtrees.leafCount child

/-- Whether finding the number of leaves that a token covers comes to an end. -/
def leavesEnd (subtrees : Subtrees) (token : Token) : Bool :=
  match subtrees.child? token with
  | none => true
  | some child =>
    match child.extent.medium with
    | .tokens => true
    | _ => (subtrees.leafCount? child).isSome

/-- Moves past tokens, in the list and in the count of leaves. -/
def advance (tokens : List Token) (subtrees : Subtrees) (cursor : TokenCursor) : TokenCursor :=
  { cursor with
    index := min (cursor.index + tokens.length) cursor.tokens.length
    offset := cursor.offset + total (leavesOf subtrees) tokens }

/-- Whether moving past tokens comes to an end. -/
def advanceEnds (tokens : List Token) (subtrees : Subtrees) : Bool :=
  tokens.all (leavesEnd subtrees)

/-- Opens the child's tokens at the same count of leaves. -/
def forChild (child : Node Token) (cursor : TokenCursor) : TokenCursor :=
  { ofNode child with offset := cursor.offset, text := cursor.text }

/-- The node's range of the text, if both are known. -/
def fallback (cursor : TokenCursor) : Except Failure TextCursor :=
  match cursor.text, cursor.range with
  | some text, some range => .ok (TextCursor.within text range)
  | none, _ => .error (.noFallback .tokens "original text is not available")
  | some _, none => .error (.noFallback .tokens "node has no source range")

end TokenCursor

end TreeAlign
