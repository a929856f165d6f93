import TreeAlign.Proofs.Matching.Supply
import TreeAlign.Proofs.Terminal.Reading
import TreeAlign.Proofs.Tree.Ranges

/-!
# The steps of a match on flat text

What a terminal finds in a text stands right at the cursor, and the cursor
moves behind it. A reference takes the next identity of the supply. Its
child is read from the same cursor if the tree has no ranges, and the cursor
of the parent moves to where the child ended.
-/

namespace TreeAlign

/-- How far a match on flat text has come, in the text and in the supply. -/
structure Mark where
  position : Nat
  supply : Nat

namespace Input

variable {place : TextCursor}

/-- What a terminal finds in a text, and where the cursor is behind it. -/
theorem exists_part (sound : place.Sound) {terminal : Stock} {found : Found}
    (probe : Reads.probe (Input.text place) terminal = some found)
    (notReference : Terminal.isReference terminal = false) (supply : Nat) (subtrees : Subtrees) :
    ∃ lexemes position, found = .spelled lexemes ∧
      terminal.matchText place.remaining = some lexemes ∧
      (∀ token ∈ found.tokens supply, token.isReference = false) ∧
      Cursor.advance (found.tokens supply) subtrees (Input.text place) =
        .text { place with position } ∧
      ({ place with position } : TextCursor).Sound ∧
      Text.Between place.text place.position position (Token.charsOf (found.tokens supply)) ∧
      place.remaining = Lexeme.charsOf lexemes ++
        ({ place with position } : TextCursor).remaining := by
  have hmap : (place.probe terminal).map Found.spelled = some found := probe
  rw [TextCursor.probe, notReference] at hmap
  obtain ⟨lexemes, hmatch, rfl⟩ := Option.map_eq_some_iff.mp hmap
  obtain ⟨⟨rest, htext⟩, hplain⟩ := Stock.spells_of_matchText hmatch
  have hplain : ∀ token ∈ Token.mint supply lexemes, token.isReference = false :=
    Token.forall_mem_mint hplain
  have hread := htext
  rw [← Token.charsOf_mint supply] at htext
  have hmoved := TextCursor.remaining_move sound htext
  have hpart := TextCursor.between_remaining sound
  rw [htext] at hpart
  have hadvance := TextCursor.advance_of_remaining subtrees sound hplain htext
  rw [← hmoved.2] at hread
  exact ⟨lexemes, _, rfl, hmatch, hplain, congrArg Input.text hadvance, hmoved.1, hpart.split.1,
    hread⟩

/-- A reference that is found in a text takes the next identity of the supply. -/
theorem exists_reference {terminal : Stock} {found : Found} {supply : Nat} {reference : Token}
    {more : List Token} (probe : Reads.probe (Input.text place) terminal = some found)
    (isReference : Terminal.isReference terminal = true)
    (tokens : found.tokens supply = reference :: more) :
    ∃ name, terminal = .reference name ∧ found = .spelled [Lexeme.reference name] ∧
      reference = ⟨.reference name, supply⟩ ∧ more = [] := by
  have hmap : (place.probe terminal).map Found.spelled = some found := probe
  obtain ⟨lexemes, hprobe, rfl⟩ := Option.map_eq_some_iff.mp hmap
  rw [TextCursor.probe, isReference, if_pos rfl] at hprobe
  split at hprobe
  · exact absurd hprobe (by simp)
  · cases hprobe
    rcases Stock.build_of_isReference isReference with hbuild | ⟨name, rfl⟩
    · have hempty : Terminal.build terminal none = [] := hbuild
      simp [hempty, Found.tokens, Token.mint] at tokens
    · have htokens : [⟨.reference name, supply⟩] = reference :: more := tokens
      simp only [List.cons.injEq] at htokens
      exact ⟨name, rfl, rfl, htokens.1.symm, htokens.2.symm⟩

/-- The cursor behind a reference is where the child ended. -/
theorem advance_reference {reference : Token} {spelling : Spelling} {subtrees : Subtrees}
    (isReference : reference.isReference = true)
    (start : place.position ≤ spelling.extent.stop)
    (sound : ({ place with position := spelling.extent.stop } : TextCursor).Sound) :
    Cursor.advance [reference] (subtrees.insert reference spelling) (Input.text place) =
      .text { place with position := spelling.extent.stop } := by
  obtain ⟨_, hrest⟩ := sound
  have hstop := hrest.start_le
  have hposition : min (max spelling.extent.stop place.position) place.stop =
      spelling.extent.stop := by
    simp only at hstop
    omega
  change Input.text (place.advance [reference] _) = _
  simp only [TextCursor.advance, List.foldl_cons, List.foldl_nil, TextCursor.after, isReference,
    if_true, Subtrees.get?_insert_self, hposition]

end Input

namespace Aligner

variable {ρ : Type}

/-- The extent of a node that was matched on a text. -/
theorem extent_spellingOf {place : TextCursor} {position : Nat} {last : Frame Input ρ}
    (h : last.cursor = .text { place with position }) :
    (spellingOf (Cursor.position (Input.text place)) last).extent =
      ⟨.text, place.position, position⟩ := by
  simp only [spellingOf, h]
  rfl

/-- The whole step from a reference in a text to its stored child leads to a later state, and the
child is stored under an identity that was free. -/
theorem grows_of_child {cursor : Input} {terminal : Stock} {frame : Frame Input ρ} {name : String}
    {route : Route} {progress after : Progress Stock Input ρ} (spelling : Spelling)
    (hcursor : cursor.IsText) (minted : progress.Minted)
    (probe : Reads.probe cursor terminal = some (.spelled [Lexeme.reference name]))
    (grows : ((progress.draw (.spelled [Lexeme.reference name])).note frame
      (.descend ⟨.reference name, progress.supply⟩ route)).Grows after) :
    progress.Grows ((after.note frame
      (.record ⟨.reference name, progress.supply⟩ spelling)).record
        ⟨.reference name, progress.supply⟩ spelling) ∧
      after.subtrees.get? ⟨.reference name, progress.supply⟩ = none := by
  have hdraw := minted.grows_draw [Lexeme.reference name]
  have hnote := kept_grows.note (progress.draw (.spelled [Lexeme.reference name])) frame
    (.descend ⟨.reference name, progress.supply⟩ route) hdraw.minted
  have hafter := hnote.trans grows
  refine ⟨kept_grows.record hcursor probe rfl (fun _ => ?_) minted, minted.get?_eq_none hafter⟩
  exact hafter.trans (kept_grows.note after frame _ grows.minted)

/-- A reference that is found in a text leads to a child, which is matched from the same place. -/
theorem matched_of_reference {aligner : Aligner Stock ρ} {matchChild : MatchChild Stock Input ρ}
    {frame frame' : Frame Input ρ} {progress after : Progress Stock Input ρ} {place : TextCursor}
    {terminal : Stock} {found : Found} {reference : Token} {more : List Token} {route : Route}
    {node : Node Token} {spelling : Spelling} (hcursor : frame.cursor = .text place)
    (rangeless : frame.path.node.Rangeless)
    (probe : Reads.probe frame.cursor terminal = some found)
    (isReference : Terminal.isReference terminal = true)
    (tokens : found.tokens progress.supply = reference :: more)
    (resolved : childAt? frame (aligner.resolver.resolve frame.resolver reference).1 =
      some (route, node))
    (matched : matchChild (.child frame.path node route) (Cursor.forChild node frame.cursor)
      ((progress.draw found).note frame' (.descend reference route)) = .done spelling after) :
    ∃ name, terminal = .reference name ∧ found = .spelled [Lexeme.reference name] ∧
      reference = ⟨.reference name, progress.supply⟩ ∧ more = [] ∧
      (aligner.resolver.resolve frame.resolver reference).1 = some route ∧
      frame.path.node.get? route = some node ∧ node.Rangeless ∧
      matchChild (.child frame.path node route) (.text place)
        ((progress.draw (.spelled [Lexeme.reference name])).note frame'
          (.descend ⟨.reference name, progress.supply⟩ route)) = .done spelling after := by
  rw [hcursor] at probe matched
  obtain ⟨name, rfl, rfl, rfl, rfl⟩ := Input.exists_reference probe isReference tokens
  obtain ⟨hroute, hnode⟩ := childAt?_eq_some resolved
  have hrangeless : node.Rangeless := rangeless.get? hnode
  have hforChild : Cursor.forChild node (Input.text place) = .text place := by
    change Input.text (TextCursor.forChild node place) = _
    rw [TextCursor.forChild, hrangeless.range_eq_none]
  rw [hforChild] at matched
  exact ⟨name, rfl, rfl, rfl, rfl, hroute, hnode, hrangeless, matched⟩

end Aligner

end TreeAlign
