import Mathlib.Data.List.TakeWhile
import TreeAlign.Proofs.Terminal.Consuming

/-!
# Tokens and texts that a terminal finds

White space, signs, words and quoted strings are recognised in token lists
and in texts, by rules of their own. What such a terminal finds in a token
list is a leading part of the list. Written out as a text, the same terminal
finds it again and consumes all of it, with one exception. In a token list
the body of a quoted string is not compared, only that there is one. So a
quoted string is found again in its text exactly when its body is the right
one, and a list with any other body is taken for it all the same.
-/

namespace TreeAlign

namespace Stock

/-- White space, a sign, a word or a quoted string. -/
def isLexical : Stock → Bool
  | .blank _ | .punctuator _ | .keyword _ | .identifier _ | .quotation _ => true
  | .reference _ | .separator | .optional _ => false

/-- The terminal finds the text, and consumes all of it. -/
def ReadsWhole (terminal : Stock) (text : List Char) : Prop :=
  ∃ lexemes, terminal.matchText text = some lexemes ∧ Lexeme.charsOf lexemes = text

/-- What stands between the quotes is what a quoted string asks for. Other terminals have no body. -/
def HasBody : Stock → List Token → Prop
  | .quotation value, found => Token.charsOf found.tail.dropLast = value.toList
  | _, _ => True

variable {tokens found : List Token} {text : List Char}

/-- A text of blank characters is read whole. -/
theorem readsWhole_blank (default : String) (filled : text ≠ [])
    (blank : ∀ c ∈ text, Text.isBlank c = true) : (Stock.blank default).ReadsWhole text := by
  have hrun : Text.blankRun text = text := List.takeWhile_eq_self_iff.mpr blank
  refine ⟨[⟨whitespaceKind, String.ofList text⟩], ?_, ?_⟩
  · rw [matchText, hrun]
    split
    · exact absurd rfl filled
    · rfl
  · simp [Lexeme.charsOf]

/-- Tokens of white space have blank characters. -/
theorem isBlank_of_mem_charsOf (blank : ∀ token ∈ tokens, token.IsBlank) {c : Char}
    (h : c ∈ Token.charsOf tokens) : Text.isBlank c = true := by
  obtain ⟨token, hmem, hc⟩ := List.mem_flatMap.mp h
  exact (blank token hmem).2.2 c hc

theorem charsOf_ne_nil (blank : ∀ token ∈ tokens, token.IsBlank) (filled : tokens ≠ []) :
    Token.charsOf tokens ≠ [] := by
  cases tokens with
  | nil => exact absurd rfl filled
  | cons token rest =>
      have hvalue : token.value ≠ "" := (blank token (List.mem_cons_self ..)).2.1
      simp [hvalue]

/-- The tokens of a run have its kind, and are in the list. -/
theorem mem_and_kind_of_mem_runOf {kind : String} {token : Token} (h : token ∈ runOf kind tokens) :
    token ∈ tokens ∧ token.kind = kind := by
  have hall := List.all_eq_true.mp (List.all_takeWhile (l := tokens)) token h
  exact ⟨(List.takeWhile_prefix _).subset h, of_decide_eq_true hall⟩

/-- A word ends where the text ends. -/
theorem wordAt_self (value : String) : wordAt value value.toList = true :=
  wordAt_iff.mpr ⟨[], (List.append_nil _).symm, rfl⟩

/-- One token with the right text is read whole by a terminal that finds this text. -/
theorem readsWhole_of_firstIf {terminal : Stock} {kind value : String}
    (h : firstIf kind value tokens = some found)
    (spells : terminal.matchText value.toList = some [⟨kind, value⟩]) :
    terminal.ReadsWhole (Token.charsOf found) := by
  have hchars : Token.charsOf found = value.toList := by
    cases tokens with
    | nil => simp [firstIf] at h
    | cons token rest =>
        simp only [firstIf, Option.ite_none_right_eq_some, Option.some.injEq] at h
        obtain ⟨⟨_, rfl⟩, rfl⟩ := h
        simp
  rw [hchars]
  exact ⟨_, spells, by simp [Lexeme.charsOf]⟩

/-- The characters of a body between two quotes. -/
theorem charsOf_quotedLexemes (quote body : String) :
    Lexeme.charsOf (quotedLexemes quote body) = quote.toList ++ body.toList ++ quote.toList := by
  simp [quotedLexemes, Lexeme.charsOf]

/-- Nothing between other quotes is there. -/
theorem quotedAt_singleQuote_eq_false (value : String) (text : List Char) :
    quotedAt singleQuote value (doubleQuote.toList ++ text) = false := by
  rw [quotedAt, Option.isSome_eq_false_iff, Option.isNone_iff_eq_none]
  rfl

/-- A text between two quotes is read whole as the quoted string with that body, and as no other. -/
theorem readsWhole_quotation_iff {value : String} {body : List Char} {quote : String}
    (isQuote : quote = singleQuote ∨ quote = doubleQuote) :
    (Stock.quotation value).ReadsWhole (quote.toList ++ body ++ quote.toList) ↔
      body = value.toList := by
  constructor
  · rintro ⟨lexemes, hmatch, hchars⟩
    obtain ⟨other, hother, rfl⟩ : ∃ other, (other = singleQuote ∨ other = doubleQuote) ∧
        lexemes = quotedLexemes other value := by
      simp only [matchText] at hmatch
      split at hmatch
      · cases hmatch
        exact ⟨_, .inl rfl, rfl⟩
      · simp only [Option.ite_none_right_eq_some, Option.some.injEq] at hmatch
        exact ⟨_, .inr rfl, hmatch.2.symm⟩
    rw [charsOf_quotedLexemes] at hchars
    have hsame : other = quote := by
      rcases hother with rfl | rfl
      · rcases isQuote with rfl | rfl
        · rfl
        · exact absurd hchars (by simp [singleQuote, doubleQuote])
      · rcases isQuote with rfl | rfl
        · exact absurd hchars (by simp [singleQuote, doubleQuote])
        · rfl
    subst hsame
    exact (List.append_cancel_left (List.append_cancel_right hchars)).symm
  · rintro rfl
    have hthere : quotedAt quote value (quote.toList ++ value.toList ++ quote.toList) = true :=
      isSome_afterWord_iff.mpr ⟨[], (List.append_nil _).symm⟩
    refine ⟨quotedLexemes quote value, ?_, charsOf_quotedLexemes quote value⟩
    rcases isQuote with rfl | rfl
    · rw [matchText, if_pos hthere]
    · have hother : quotedAt singleQuote value
          (doubleQuote.toList ++ value.toList ++ doubleQuote.toList) = false := by
        rw [List.append_assoc]
        exact quotedAt_singleQuote_eq_false value _
      rw [matchText, hother, if_neg Bool.false_ne_true, if_pos hthere]

/-- What a quoted string is in a token list: a body between two equal quotes. -/
theorem of_quotationIn {value : String} (h : quotationIn value tokens = some found) :
    ∃ opening body closing, found = opening :: body ++ [closing] ∧
      (opening.value = singleQuote ∨ opening.value = doubleQuote) ∧
      closing.value = opening.value := by
  cases tokens with
  | nil => simp [quotationIn] at h
  | cons opening rest =>
      simp only [quotationIn] at h
      split at h
      · next hopening =>
          split at h
          · simp at h
          · split at h
            · simp at h
            · next closing more _ =>
                simp only [Option.ite_none_right_eq_some, Option.some.injEq] at h
                obtain ⟨⟨_, hclosing⟩, rfl⟩ := h
                refine ⟨opening, _, closing, rfl, ?_, hclosing⟩
                simp only [isQuote, Bool.and_eq_true, Bool.or_eq_true, decide_eq_true_eq]
                  at hopening
                exact hopening.2
      · simp at h

/-- The tokens that a terminal finds are read whole by the same terminal, and the tokens that a
quoted string finds if and only if their body is the right one. -/
theorem readsWhole_iff_hasBody {terminal : Stock} (lexical : terminal.isLexical = true)
    (blank : ∀ token ∈ tokens, token.kind = whitespaceKind → token.IsBlank)
    (h : terminal.matchTokens tokens = some found) :
    terminal.ReadsWhole (Token.charsOf found) ↔ terminal.HasBody found := by
  cases terminal with
  | blank default =>
      simp only [matchTokens] at h
      split at h
      · cases h
      · next hrun =>
          cases h
          have hblank : ∀ token ∈ runOf whitespaceKind tokens, token.IsBlank := by
            intro token hmem
            obtain ⟨htoken, hkind⟩ := mem_and_kind_of_mem_runOf hmem
            exact blank token htoken hkind
          apply iff_of_true
          · apply readsWhole_blank default (charsOf_ne_nil hblank hrun)
            intro c hc
            exact isBlank_of_mem_charsOf hblank hc
          · trivial
  | punctuator value =>
      apply iff_of_true (readsWhole_of_firstIf h ?_) trivial
      rw [matchText, if_pos (isSome_afterWord_iff.mpr ⟨[], (List.append_nil _).symm⟩)]
  | keyword value =>
      apply iff_of_true (readsWhole_of_firstIf h ?_) trivial
      rw [matchText, if_pos (wordAt_self value)]
  | identifier value =>
      apply iff_of_true (readsWhole_of_firstIf h ?_) trivial
      rw [matchText, if_pos (wordAt_self value)]
  | quotation value =>
      obtain ⟨opening, body, closing, rfl, hopening, hclosing⟩ := of_quotationIn h
      have hchars : Token.charsOf (opening :: body ++ [closing]) =
          opening.value.toList ++ Token.charsOf body ++ opening.value.toList := by
        simp [hclosing]
      have hbody : (opening :: body ++ [closing]).tail.dropLast = body := by
        simp
      rw [HasBody, hbody, hchars]
      exact readsWhole_quotation_iff hopening
  | reference name => cases lexical
  | separator => cases lexical
  | optional inner => cases lexical

theorem isReference_of_isLexical {terminal : Stock} (lexical : terminal.isLexical = true) :
    Terminal.isReference terminal = false := by
  cases terminal with
  | reference name => cases lexical
  | separator => cases lexical
  | optional inner => cases lexical
  | _ => exact decide_eq_false (by simp only [kind]; decide)

/-- What a terminal finds in a token list whose white space is blank, and what it makes of it as a
text: the tokens are a leading part of the list, and the same terminal finds their text and consumes
all of it. For a quoted string this is so if and only if the tokens have its body, which the search
in the list does not look at. -/
theorem matchTokens_agrees (terminal : Stock) (lexical : terminal.isLexical = true)
    (tokens found : List Token)
    (blank : ∀ token ∈ tokens, token.kind = whitespaceKind → token.IsBlank)
    (h : terminal.matchTokens tokens = some found) :
    (∃ rest, tokens = found ++ rest) ∧
      (terminal.ReadsWhole (Token.charsOf found) ↔ terminal.HasBody found) := by
  constructor
  · exact (consumes_of_matchTokens (isReference_of_isLexical lexical) h).1
  · exact readsWhole_iff_hasBody lexical blank h

/-- A quoted string with its body in two parts, and a space behind it. -/
def splitLiteral : List Token :=
  [⟨⟨"Punctuator", "'"⟩, 0⟩, ⟨⟨"Text", "h"⟩, 1⟩, ⟨⟨"Text", "i"⟩, 2⟩, ⟨⟨"Punctuator", "'"⟩, 3⟩,
    ⟨⟨"Whitespace", " "⟩, 4⟩]

/-- The parts of the body make up the right one. -/
theorem matchTokens_agrees_splitLiteral :
    (Stock.quotation "hi").matchTokens splitLiteral = some (splitLiteral.take 4) ∧
      (Stock.quotation "hi").ReadsWhole (Token.charsOf (splitLiteral.take 4)) := by
  have hfound : (Stock.quotation "hi").matchTokens splitLiteral = some (splitLiteral.take 4) := by
    decide
  have hblank : ∀ token ∈ splitLiteral, token.kind = whitespaceKind → token.IsBlank := by
    have hvalue : ∀ token ∈ splitLiteral, token.kind = whitespaceKind → token.value = " " := by
      decide
    intro token hmem hkind
    refine ⟨hkind, ?_, ?_⟩
    · rw [hvalue token hmem hkind]
      decide
    · rw [hvalue token hmem hkind]
      exact List.all_eq_true.mp (by decide)
  have hbody : (Stock.quotation "hi").HasBody (splitLiteral.take 4) := by
    rw [HasBody]
    decide
  have hagrees := matchTokens_agrees (.quotation "hi") rfl splitLiteral (splitLiteral.take 4) hblank
    hfound
  exact ⟨hfound, hagrees.2.mpr hbody⟩

/-- A quoted string whose body was edited. -/
def editedLiteral : List Token :=
  [⟨⟨"Punctuator", "\""⟩, 0⟩, ⟨⟨"Text", "bye"⟩, 1⟩, ⟨⟨"Punctuator", "\""⟩, 2⟩]

/-- The edit goes unnoticed in the token list, and not in the text. -/
theorem matchTokens_editedLiteral :
    (Stock.quotation "hi").matchTokens editedLiteral = some editedLiteral ∧
      (Stock.quotation "hi").matchText (Token.charsOf editedLiteral) = none := by
  constructor
  · decide
  · decide

end Stock

end TreeAlign
