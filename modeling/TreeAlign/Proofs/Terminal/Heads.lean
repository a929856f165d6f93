import TreeAlign.Proofs.Terminal.Consuming

/-!
# Heads of texts and of token lists

What a stock terminal finds is a head of what it looks at. In a text the
head ends between two characters, and cutting off as many bytes as the found
lexemes have leaves the rest. In a token list the head consists of the
tokens of the list themselves.

A separator looks for white space in rounds, each time behind what it has
found, until there is none. On every text the rounds come to an end, in one
way only, and together they find the longest blank head, in one lexeme or
none.
-/

namespace TreeAlign

namespace Text

/-- The longest head of the text that is blank: all other blank heads are heads of it. -/
structure IsBlankHead (run text : List Char) : Prop where
  head : run <+: text
  blank : ∀ c ∈ run, isBlank c = true
  longest : ∀ other, other <+: text → (∀ c ∈ other, isBlank c = true) → other <+: run

theorem isBlankHead_blankRun (text : List Char) : IsBlankHead (blankRun text) text where
  head := List.takeWhile_prefix _
  blank _ := isBlank_of_mem_blankRun
  longest := by
    rintro other ⟨rest, rfl⟩ blank
    rw [blankRun, List.takeWhile_append_of_pos blank]
    exact List.prefix_append _ _

end Text

namespace Lexeme

/-- The number of bytes of the lexemes. -/
def byteSize (lexemes : List Lexeme) : Nat :=
  total (fun lexeme => lexeme.value.utf8ByteSize) lexemes

theorem byteLength_charsOf (lexemes : List Lexeme) :
    Text.byteLength (charsOf lexemes) = byteSize lexemes := by
  induction lexemes with
  | nil => rfl
  | cons lexeme rest ih =>
      rw [charsOf, List.flatMap_cons, Text.byteLength_append, Text.byteLength_toList]
      exact congrArg (lexeme.value.utf8ByteSize + ·) ih

/-- The lexemes spell a head of the text. It ends between two characters, and the rest is left when
as many bytes as the lexemes have are cut off. -/
structure IsHead (lexemes : List Lexeme) (text : List Char) : Prop where
  head : charsOf lexemes ++ Text.dropBytes (byteSize lexemes) text = text
  boundary : Text.floor text (byteSize lexemes) = byteSize lexemes

theorem isHead_append (lexemes : List Lexeme) (rest : List Char) :
    IsHead lexemes (charsOf lexemes ++ rest) where
  head := by rw [← byteLength_charsOf, Text.dropBytes_byteLength]
  boundary := by rw [← byteLength_charsOf, Text.floor, Text.takeBytes_byteLength]

end Lexeme

namespace Stock

/-- What white space finds, whatever it spells. -/
theorem matchText_whitespace (default : String) (text : List Char) :
    (whitespace default).matchText text =
      if Text.blankRun text = [] then none
      else some [⟨whitespaceKind, String.ofList (Text.blankRun text)⟩] := by
  rw [whitespace, matchText]
  split
  · next h => rw [if_pos h]
  · next h => rw [if_neg h]

/-- The rounds of a separator: white space is taken as long as it is there, and each round goes on
behind as many bytes as were found. -/
inductive Rounds : List Char → List Lexeme → List Char → Prop where
  | stop {text : List Char} (missing : (whitespace "").matchText text = none) :
      Rounds text [] text
  | round {text last : List Char} {found more : List Lexeme}
      (here : (whitespace "").matchText text = some found)
      (rest : Rounds (Text.dropBytes (Lexeme.byteSize found) text) more last) :
      Rounds text (found ++ more) last

/-- Cutting off the bytes of a blank run leaves what follows it. -/
theorem dropBytes_blankRun (text : List Char) :
    Text.dropBytes (Lexeme.byteSize [⟨whitespaceKind, String.ofList (Text.blankRun text)⟩]) text =
      text.drop (Text.blankRun text).length := by
  have hsize : Lexeme.byteSize [⟨whitespaceKind, String.ofList (Text.blankRun text)⟩] =
      Text.byteLength (Text.blankRun text) := by
    rw [← Lexeme.byteLength_charsOf]
    simp [Lexeme.charsOf]
  have hcut := Text.dropBytes_byteLength (Text.blankRun text) (text.drop (Text.blankRun text).length)
  rwa [Text.blankRun_append_drop, ← hsize] at hcut

/-- Nothing is found behind a blank run. -/
theorem rounds_drop_iff (text : List Char) {found : List Lexeme} {last : List Char} :
    Rounds (text.drop (Text.blankRun text).length) found last ↔
      found = [] ∧ last = text.drop (Text.blankRun text).length := by
  have hmissing : (whitespace "").matchText (text.drop (Text.blankRun text).length) = none := by
    rw [matchText_whitespace, if_pos (Text.blankRun_drop text)]
  constructor
  · intro h
    cases h with
    | stop _ => exact ⟨rfl, rfl⟩
    | round here _ => exact absurd here (by simp [hmissing])
  · rintro ⟨rfl, rfl⟩
    exact .stop hmissing

/-- The rounds of a separator end on every text, with what the separator finds. -/
theorem rounds_iff {text : List Char} {found : List Lexeme} {last : List Char} :
    Rounds text found last ↔ Stock.separator.matchText text = some found ∧
      last = text.drop (Text.blankRun text).length := by
  rw [matchText_separator, Option.some.injEq]
  by_cases hrun : Text.blankRun text = []
  · -- no white space: there is no round at all
    have hwhole : text.drop (Text.blankRun text).length = text := by
      rw [hrun, List.length_nil, List.drop_zero]
    have hrest : Rounds text found last ↔ found = [] ∧ last = text := by
      simpa only [hwhole] using rounds_drop_iff text
    rw [hrest, if_pos hrun, hwhole, eq_comm (a := found)]
  · have hhere : (whitespace "").matchText text =
        some [⟨whitespaceKind, String.ofList (Text.blankRun text)⟩] := by
      rw [matchText_whitespace, if_neg hrun]
    rw [if_neg hrun]
    constructor
    · intro h
      cases h with
      | stop missing => exact absurd missing (by simp [hhere])
      | round here rest =>
          rw [hhere] at here
          cases here
          rw [dropBytes_blankRun, rounds_drop_iff] at rest
          obtain ⟨rfl, rfl⟩ := rest
          exact ⟨rfl, rfl⟩
    · rintro ⟨rfl, rfl⟩
      have hrest : Rounds (Text.dropBytes
          (Lexeme.byteSize [⟨whitespaceKind, String.ofList (Text.blankRun text)⟩]) text) []
          (text.drop (Text.blankRun text).length) := by
        rw [dropBytes_blankRun]
        exact (rounds_drop_iff text).mpr ⟨rfl, rfl⟩
      exact .round hhere hrest

/-- Every terminal finds heads only: in a text the lexemes spell a head that ends between two
characters, in a token list the tokens are the first of the list. The rounds of a separator end on
every text, in one way. They find the longest blank head, as one lexeme or none, and if there is one,
then white space finds the same. -/
theorem finds_heads :
    (∀ (terminal : Stock) (text : List Char) (found : List Lexeme),
      terminal.matchText text = some found → Lexeme.IsHead found text) ∧
    (∀ (terminal : Stock) (tokens found : List Token),
      terminal.matchTokens tokens = some found → found <+: tokens) ∧
    ∀ text : List Char, ∃ (run rest : List Char) (found : List Lexeme),
      text = run ++ rest ∧ Text.IsBlankHead run text ∧
      (∀ lexemes last, Rounds text lexemes last ↔ lexemes = found ∧ last = rest) ∧
      Stock.separator.matchText text = some found ∧
      (run = [] → found = [] ∧ ∀ default, (whitespace default).matchText text = none) ∧
      (run ≠ [] → found = [⟨whitespaceKind, String.ofList run⟩] ∧
        ∀ default, (whitespace default).matchText text = some found) := by
  refine ⟨?_, ?_, ?_⟩
  · intro terminal text found h
    obtain ⟨⟨rest, rfl⟩, _⟩ := spells_of_matchText h
    exact Lexeme.isHead_append found rest
  · intro terminal tokens found h
    obtain ⟨rest, rfl⟩ := append_of_matchTokens h
    exact List.prefix_append _ _
  · intro text
    obtain ⟨found, hfound⟩ : ∃ found, Stock.separator.matchText text = some found := ⟨_, rfl⟩
    refine ⟨Text.blankRun text, text.drop (Text.blankRun text).length, found,
      (Text.blankRun_append_drop text).symm, Text.isBlankHead_blankRun text, ?_, hfound, ?_, ?_⟩
    · intro lexemes last
      rw [rounds_iff, hfound, Option.some.injEq, eq_comm (a := found)]
    · intro hrun
      rw [matchText_separator, if_pos hrun, Option.some.injEq] at hfound
      refine ⟨hfound.symm, fun default => ?_⟩
      rw [matchText_whitespace, if_pos hrun]
    · intro hrun
      rw [matchText_separator, if_neg hrun, Option.some.injEq] at hfound
      refine ⟨hfound.symm, fun default => ?_⟩
      rw [matchText_whitespace, if_neg hrun, hfound]

/-- A quoted letter of two bytes is found through two optional layers, in a text and in a token list
with more behind it. -/
theorem finds_heads_quotedLetter :
    (Stock.optional (.optional (.quotation "é"))).matchText "'é' x".toList =
        some (quotedLexemes "'" "é") ∧
      Lexeme.byteSize (quotedLexemes "'" "é") = 4 ∧
      Lexeme.IsHead (quotedLexemes "'" "é") "'é' x".toList ∧
      Token.mint 0 (quotedLexemes "'" "é") <+: Token.mint 0 (quotedLexemes "'" "é" ++ [⟨"Text", "x"⟩])
        := by
  have htext : (Stock.optional (.optional (.quotation "é"))).matchText "'é' x".toList =
      some (quotedLexemes "'" "é") := by
    decide
  have htokens : (Stock.optional (.optional (.quotation "é"))).matchTokens
      (Token.mint 0 (quotedLexemes "'" "é" ++ [⟨"Text", "x"⟩])) =
        some (Token.mint 0 (quotedLexemes "'" "é")) := by
    decide
  exact ⟨htext, by decide, finds_heads.1 _ _ _ htext, finds_heads.2.1 _ _ _ htokens⟩

end Stock

end TreeAlign
