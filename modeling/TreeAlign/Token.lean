import TreeAlign.Text.Quoted

/-!
# Lexemes and tokens

A lexeme is the kind and the text of one concrete piece of source. A token
is a lexeme with an identity: two tokens may have the same kind and text
and still be different pieces. Identities are numbers handed out from a
supply, so a token made from the supply `n` differs from every token whose
identity is below `n`.
-/

namespace TreeAlign

/-- The kind and the text of a piece of source. -/
structure Lexeme where
  kind : String
  value : String
deriving DecidableEq, Repr, Inhabited

/-- A lexeme with an identity. -/
structure Token extends Lexeme where
  id : Nat
deriving DecidableEq, Repr, Inhabited

namespace Lexeme

/-- The kind of the tokens that stand for a whole subtree. -/
def referenceKind : String := "Reference"

/-- The lexeme that stands for the child of the given name. -/
def reference (name : String) : Lexeme := ⟨referenceKind, name⟩

/-- A lexeme that stands for a child. -/
def isReference (lexeme : Lexeme) : Bool :=
  lexeme.kind = referenceKind

/-- The short form used in messages: the kind, and the text in quotes. -/
def toText (lexeme : Lexeme) : String :=
  lexeme.kind ++ "(" ++ Text.quoted lexeme.value ++ ")"

end Lexeme

namespace Token

/-- A token that stands for a child. -/
def isReference (token : Token) : Bool :=
  token.toLexeme.isReference

/-- The same piece of source, whatever the two tokens hold. -/
def same (a b : Token) : Bool :=
  a.id = b.id

/-- Gives each lexeme an identity of its own, counting up from `supply`. -/
def mint (supply : Nat) : List Lexeme → List Token
  | [] => []
  | lexeme :: rest => ⟨lexeme, supply⟩ :: mint (supply + 1) rest

@[simp] theorem length_mint (supply : Nat) (lexemes : List Lexeme) :
    (mint supply lexemes).length = lexemes.length := by
  induction lexemes generalizing supply with
  | nil => rfl
  | cons lexeme rest ih => simp [mint, ih]

@[simp] theorem map_toLexeme_mint (supply : Nat) (lexemes : List Lexeme) :
    (mint supply lexemes).map Token.toLexeme = lexemes := by
  induction lexemes generalizing supply with
  | nil => rfl
  | cons lexeme rest ih => simp [mint, ih]

end Token

end TreeAlign
