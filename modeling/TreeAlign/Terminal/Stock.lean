import TreeAlign.Terminal.Basic
import TreeAlign.Text.Blank
import TreeAlign.Text.Measure

/-!
# The stock of terminals

White space, three kinds of words and signs with a fixed text, quoted
strings, references, separators, and the optional form of any of them.

Keywords and identifiers match only if the word ends there. A quoted string
takes either quote in a text; in a token list it is an opening quote, a run
of body tokens and the same quote again, and the bodies are not compared.
An optional terminal finds nothing instead of failing, keeps the inner kind,
and spells nothing.
-/

namespace TreeAlign

/-- The terminals that come with the library. -/
inductive Stock where
  /-- White space, at least one character; spells the given text. -/
  | blank (default : String)
  /-- A sign with the given text. -/
  | punctuator (value : String)
  /-- The given word, marked as a keyword. -/
  | keyword (value : String)
  /-- The given word, marked as an identifier. -/
  | identifier (value : String)
  /-- A quoted string with the given body. -/
  | quotation (value : String)
  /-- The child of the given name. -/
  | reference (name : String)
  /-- White space of any length, none included; spells one space. -/
  | separator
  /-- The inner terminal, or nothing. -/
  | optional (inner : Stock)
deriving DecidableEq, Repr

namespace Stock

/-- White space that spells the given text, or one space for the empty text. -/
def whitespace (value : String) : Stock :=
  .blank (if value = "" then " " else value)

/-- The kind of blank runs. -/
def whitespaceKind : String := "Whitespace"

/-- The kind of signs, quotes included. -/
def punctuatorKind : String := "Punctuator"

/-- The kind of words that the language reserves. -/
def keywordKind : String := "Keyword"

/-- The kind of words that the author of a text chose. -/
def identifierKind : String := "Identifier"

/-- The kind of a quoted string as a whole; no token has it. -/
def stringKind : String := "String"

/-- The kind of what stands between two quotes. -/
def bodyKind : String := "Text"

/-- The kind of the tokens that a terminal is about. -/
def kind : Stock → String
  | .blank _ => whitespaceKind
  | .punctuator _ => punctuatorKind
  | .keyword _ => keywordKind
  | .identifier _ => identifierKind
  | .quotation _ => stringKind
  | .reference _ => Lexeme.referenceKind
  | .separator => Terminal.separatorKind
  | .optional inner => inner.kind

/-- The text that a terminal asks for. -/
def value? : Stock → Option String
  | .blank default => some default
  | .punctuator value => some value
  | .keyword value => some value
  | .identifier value => some value
  | .quotation value => some value
  | .reference name => some name
  | .separator => none
  | .optional inner => inner.value?

/-- The signs that end a word, apart from white space. -/
def breakSigns : List Char :=
  "()\x7b\x7d/\\&#@!`+^%?<>,.;:'\"|~-".toList

/-- A word may end in front of this text. -/
def isWordBreak : List Char → Bool
  | [] => true
  | c :: _ => Text.isBlank c || breakSigns.contains c

/-- The text starts with the given word, and the word ends there. -/
def wordAt (word : String) (text : List Char) : Bool :=
  match Text.afterWord word.toList text with
  | some rest => isWordBreak rest
  | none => false

/-- The lexemes of a string body between two quotes. -/
def quotedLexemes (quote body : String) : List Lexeme :=
  [⟨punctuatorKind, quote⟩, ⟨bodyKind, body⟩, ⟨punctuatorKind, quote⟩]

/-- The text starts with the body between two quotes of the given form. -/
def quotedAt (quote body : String) (text : List Char) : Bool :=
  (Text.afterWord (quote.toList ++ body.toList ++ quote.toList) text).isSome

/-- The quote that is tried first, and that a string is spelled with. -/
def singleQuote : String := "'"

/-- The other quote. -/
def doubleQuote : String := "\""

/-- The blank runs at the head of a text, one after the other. -/
def blankRuns : Nat → List Char → List Lexeme
  | 0, _ => []
  | bound + 1, text =>
    match Text.blankRun text with
    | [] => []
    | run => ⟨whitespaceKind, String.ofList run⟩ :: blankRuns bound (text.drop run.length)

/-- What a terminal finds at the head of a text. -/
def matchText : Stock → List Char → Option (List Lexeme)
  | .blank _, text =>
    match Text.blankRun text with
    | [] => none
    | run => some [⟨whitespaceKind, String.ofList run⟩]
  | .punctuator value, text =>
    if (Text.afterWord value.toList text).isSome then some [⟨punctuatorKind, value⟩] else none
  | .keyword value, text =>
    if wordAt value text then some [⟨keywordKind, value⟩] else none
  | .identifier value, text =>
    if wordAt value text then some [⟨identifierKind, value⟩] else none
  | .quotation value, text =>
    if quotedAt singleQuote value text then some (quotedLexemes singleQuote value)
    else if quotedAt doubleQuote value text then some (quotedLexemes doubleQuote value)
    else none
  | .reference _, _ => none
  | .separator, text => some (blankRuns text.length text)
  | .optional inner, text => some ((inner.matchText text).getD [])

/-- The longest run of tokens of a kind at the head of a list. -/
def runOf (kind : String) (tokens : List Token) : List Token :=
  tokens.takeWhile fun token => token.kind = kind

/-- The first token, if it has the given kind and text. -/
def firstIf (kind value : String) : List Token → Option (List Token)
  | [] => none
  | token :: _ => if token.kind = kind ∧ token.value = value then some [token] else none

/-- A token that opens a quoted string. -/
def isQuote (token : Token) : Bool :=
  token.kind = punctuatorKind && (token.value = singleQuote || token.value = doubleQuote)

/-- An opening quote, body tokens, and the same quote. -/
def quotationIn (value : String) : List Token → Option (List Token)
  | [] => none
  | opening :: rest =>
    if isQuote opening then
      let body := runOf bodyKind rest
      if body = [] ∧ value ≠ "" then none
      else
        match rest.drop body.length with
        | [] => none
        | closing :: _ =>
          if closing.kind = punctuatorKind ∧ closing.value = opening.value then
            some (opening :: body ++ [closing])
          else none
    else none

/-- What a terminal finds at the head of a token list. -/
def matchTokens : Stock → List Token → Option (List Token)
  | .blank _, tokens =>
    match runOf whitespaceKind tokens with
    | [] => none
    | run => some run
  | .punctuator value, tokens => firstIf punctuatorKind value tokens
  | .keyword value, tokens => firstIf keywordKind value tokens
  | .identifier value, tokens => firstIf identifierKind value tokens
  | .quotation value, tokens => quotationIn value tokens
  | .reference name, tokens => firstIf Lexeme.referenceKind name tokens
  | .separator, tokens => some (runOf whitespaceKind tokens)
  | .optional inner, tokens => some ((inner.matchTokens tokens).getD [])

/-- How a terminal spells itself. A given text replaces the text of a word or of white space, and
chooses the quotes of a string by its first character. -/
def build : Stock → Option String → List Lexeme
  | .blank default, text? => [⟨whitespaceKind, text?.getD default⟩]
  | .punctuator value, text? => [⟨punctuatorKind, text?.getD value⟩]
  | .keyword value, text? => [⟨keywordKind, text?.getD value⟩]
  | .identifier value, text? => [⟨identifierKind, text?.getD value⟩]
  | .quotation value, text? =>
    if (text?.getD "").toList.head? = some '"' then quotedLexemes doubleQuote value
    else quotedLexemes singleQuote value
  | .reference name, _ => [Lexeme.reference name]
  | .separator, _ => [⟨whitespaceKind, " "⟩]
  | .optional _, _ => []

/-- The form of a terminal with a fixed text. -/
def inspectLiteral (kind value : String) (word : Bool) : String :=
  "Literal \x7b kind: " ++ Text.quoted kind ++ ", value: " ++ Text.quoted value
    ++ ", word: " ++ (if word then "true" else "false") ++ " \x7d"

/-- The full form shown to a grammar's author. -/
def inspect : Stock → String
  | .blank default => "Whitespace \x7b default: " ++ Text.quoted default ++ " \x7d"
  | .punctuator value => inspectLiteral punctuatorKind value false
  | .keyword value => inspectLiteral keywordKind value true
  | .identifier value => inspectLiteral identifierKind value true
  | .quotation value => "StringLiteral \x7b value: " ++ Text.quoted value ++ " \x7d"
  | .reference name => "Reference \x7b name: " ++ Text.quoted name ++ " \x7d"
  | .separator => "Separator"
  | .optional inner => "Optional \x7b inner: " ++ inner.inspect ++ " \x7d"

instance : Terminal Stock where
  kind := kind
  value? := value?
  matchText := matchText
  matchTokens := matchTokens
  build := build
  inspect := inspect

end Stock

end TreeAlign
