import TreeAlign.Token

/-!
# Terminals

A terminal is the smallest thing that a grammar can ask for. It recognises
itself at the head of a text and at the head of a token list, and it can
spell itself when there is no input. Neither recognition consumes anything:
the caller moves on by what was found.

Two kinds get special treatment from a match: a reference stands for a
child, and a separator is white space whose owner is decided later.
-/

namespace TreeAlign

/-- The kind of separators. -/
def Terminal.separatorKind : String := "Separator"

/-- What a grammar's terminals can do. -/
class Terminal (τ : Type) where
  /-- The kind of the tokens it is about. -/
  kind : τ → String
  /-- The text that it asks for, if it asks for one. -/
  value? : τ → Option String
  /-- What it finds at the head of a text. -/
  matchText : τ → List Char → Option (List Lexeme)
  /-- What it finds at the head of a token list. -/
  matchTokens : τ → List Token → Option (List Token)
  /-- How it spells itself; a given text may choose the style. -/
  build : τ → Option String → List Lexeme
  /-- The full form shown to a grammar's author. -/
  inspect : τ → String
  /-- It stands for a child. The kind says so, if nothing else is given. -/
  isReference (terminal : τ) : Bool := kind terminal = Lexeme.referenceKind
  /-- It is for white space whose owner is decided later. The kind says so, if nothing else is
  given. -/
  isSeparator (terminal : τ) : Bool := kind terminal = Terminal.separatorKind

namespace Terminal

variable {τ : Type} [Terminal τ]

/-- The short form used in messages. -/
def describe (terminal : τ) : String :=
  match value? terminal with
  | some value => kind terminal ++ "(" ++ Text.quoted value ++ ")"
  | none => kind terminal

end Terminal

end TreeAlign
