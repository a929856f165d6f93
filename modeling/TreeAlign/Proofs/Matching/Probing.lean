import TreeAlign.Proofs.Matching.FlatText
import TreeAlign.Proofs.Matching.Thread
import TreeAlign.Proofs.Terminal.Consuming

/-!
# What stock terminals find, whatever the input

A terminal that is no reference finds tokens that stand for no child. A
reference finds one token, and that stands for a child: in attached tokens
it is the next of them, and everywhere else it is new.
-/

namespace TreeAlign

/-- None of the tokens stands for a child. -/
def Token.Plain (tokens : List Token) : Prop :=
  ∀ token ∈ tokens, token.isReference = false

theorem Token.plain_nil : Token.Plain [] := by
  simp [Plain]

/-- A terminal that is no reference spells no references. -/
theorem Stock.isReference_of_mem_build {terminal : Stock} {text? : Option String}
    (notReference : Terminal.isReference terminal = false) :
    ∀ lexeme ∈ terminal.build text?, lexeme.isReference = false := by
  intro lexeme hmem
  have hsingle : ∀ {kind value : String}, kind ≠ Lexeme.referenceKind →
      lexeme ∈ [(⟨kind, value⟩ : Lexeme)] → lexeme.isReference = false := by
    intro kind value hkind hmem
    obtain rfl := List.mem_singleton.mp hmem
    exact Lexeme.isReference_eq_false hkind
  cases terminal with
  | blank default => exact hsingle (by decide) hmem
  | punctuator value => exact hsingle (by decide) hmem
  | keyword value => exact hsingle (by decide) hmem
  | identifier value => exact hsingle (by decide) hmem
  | quotation value =>
      simp only [build] at hmem
      split at hmem
      · exact isReference_of_mem_quotedLexemes hmem
      · exact isReference_of_mem_quotedLexemes hmem
  | reference name => exact absurd notReference (by simp [Terminal.isReference, kind])
  | separator => exact hsingle (by decide) hmem
  | optional inner => exact absurd hmem (by simp [build])

namespace Input

/-- What is found by a terminal that is no reference is plain. -/
theorem plain_of_probe {cursor : Input} {terminal : Stock} {found : Found}
    (probe : Reads.probe cursor terminal = some found)
    (notReference : Terminal.isReference terminal = false) (supply : Nat) :
    Token.Plain (found.tokens supply) := by
  cases cursor with
  | synthetic =>
      have hbuild : some (Found.spelled (Terminal.build terminal none)) = some found := probe
      cases hbuild
      exact Token.forall_mem_mint (Stock.isReference_of_mem_build notReference)
  | text place =>
      have hmap : (place.probe terminal).map Found.spelled = some found := probe
      rw [TextCursor.probe, notReference] at hmap
      obtain ⟨lexemes, hmatch, rfl⟩ := Option.map_eq_some_iff.mp hmap
      exact Token.forall_mem_mint (Stock.spells_of_matchText hmatch).2
  | tokens reading =>
      obtain ⟨tokens, rfl, hmatch⟩ := stored_of_probe probe
      exact (Stock.consumes_of_matchTokens notReference hmatch).2

/-- How a reference is found: as a new token, or as the next of the attached ones. -/
inductive FindsReference (supply : Nat) : Input → Found → Token → Prop where
  | new (cursor : Input) (name : String) :
      FindsReference supply cursor (.spelled [.reference name]) ⟨.reference name, supply⟩
  | attached {reading : TokenCursor} {reference : Token} {rest : List Token}
      (isReference : reference.isReference = true)
      (next : reading.remaining = reference :: rest) :
      FindsReference supply (.tokens reading) (.stored [reference]) reference

theorem FindsReference.isReference {supply : Nat} {cursor : Input} {found : Found}
    {reference : Token} (h : FindsReference supply cursor found reference) :
    reference.isReference = true := by
  cases h with
  | new cursor name => rfl
  | attached isReference _ => exact isReference

/-- A new reference has the next identity of the supply. -/
theorem FindsReference.id_eq {supply : Nat} {cursor : Input} {lexemes : List Lexeme}
    {reference : Token} (h : FindsReference supply cursor (.spelled lexemes) reference) :
    reference.id = supply := by
  cases h with
  | new cursor name => rfl

/-- A reference that is not new is one of the attached tokens. -/
theorem mem_tokens_of_remaining {reading : TokenCursor} {reference : Token} {rest : List Token}
    (next : reading.remaining = reference :: rest) : reference ∈ reading.tokens := by
  apply List.mem_of_mem_drop
  rw [TokenCursor.remaining] at next
  rw [next]
  exact List.mem_cons_self ..

/-- A reference that finds something finds one token. -/
theorem finds_of_probe {cursor : Input} {terminal : Stock} {found : Found} {supply : Nat}
    {reference : Token} {more : List Token} (probe : Reads.probe cursor terminal = some found)
    (isReference : Terminal.isReference terminal = true)
    (tokens : found.tokens supply = reference :: more) :
    more = [] ∧ FindsReference supply cursor found reference := by
  cases cursor with
  | text place =>
      obtain ⟨name, _, rfl, rfl, rfl⟩ := exists_reference probe isReference tokens
      exact ⟨rfl, .new _ name⟩
  | tokens reading =>
      obtain ⟨stored, rfl, hmatch⟩ := stored_of_probe probe
      obtain rfl : stored = reference :: more := tokens
      obtain ⟨rfl, hreference, rest, hrest⟩ := Stock.reference_of_matchTokens isReference hmatch
      exact ⟨rfl, .attached hreference hrest⟩
  | synthetic =>
      have hbuild : some (Found.spelled (terminal.build none)) = some found := probe
      cases hbuild
      rcases Stock.build_of_isReference isReference with hempty | ⟨name, rfl⟩
      · simp [hempty, Found.tokens, Token.mint] at tokens
      · have htokens : [⟨.reference name, supply⟩] = reference :: more := tokens
        simp only [List.cons.injEq] at htokens
        obtain ⟨rfl, rfl⟩ := htokens
        exact ⟨rfl, .new _ name⟩

end Input

end TreeAlign
