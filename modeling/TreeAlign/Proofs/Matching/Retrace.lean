import TreeAlign.Proofs.Grammar.Settled
import TreeAlign.Proofs.Matching.Thread
import TreeAlign.Proofs.Spelling.Outline
import TreeAlign.Proofs.Terminal.Rereading

/-!
# A match on tokens retraces a match on text

The tokens that a match on text has found are attached to the nodes of the
tree, and the tree is matched again on them. If no child leaves anything in
the slot, the second match retraces the first step by step: the frames
collect the same tokens, and the stores have the same outline.

## Implementation notes

The second match reads a list that the first match has not finished writing
at the step in question. A step is therefore retraced for every possible
rest of the list, as long as the rest begins like the text that is left.
What a step reads is known once the step is done, and the steps of a node
together read its whole list.
-/

namespace TreeAlign

namespace Progress

variable {τ σ ρ : Type}

/-- The same slot and the same outline, and all children of the second state were read from
tokens. -/
structure Alike (first second : Progress τ σ ρ) : Prop where
  slot : second.pendingTokens = first.pendingTokens
  outline : second.subtrees.outline = first.subtrees.outline
  medium : ∀ token spelling, second.subtrees.get? token = some spelling →
    spelling.extent.medium = .tokens

/-- The nodes below the root that were finished have their tokens attached, and left nothing in
the slot. -/
structure Handed (progress : Progress τ σ ρ) (tokensAt : Route → Option (List Token)) :
    Prop where
  attached : progress.Attached tokensAt
  clean : ∀ path spelling slot, progress.Finished path spelling slot → path.address ≠ [] →
    slot = []

theorem Handed.earlier {progress later : Progress τ σ ρ} {tokensAt : Route → Option (List Token)}
    (h : later.Handed tokensAt) (noted : progress.journal <:+ later.journal) :
    progress.Handed tokensAt where
  attached path spelling slot hfinished := h.attached path spelling slot (hfinished.mono noted)
  clean path spelling slot hfinished := h.clean path spelling slot (hfinished.mono noted)

namespace Alike

variable {first second : Progress τ σ ρ}

theorem note (h : first.Alike second) (frame frame' : Frame σ ρ) (act act' : Act τ) :
    (first.note frame act).Alike (second.note frame' act') :=
  ⟨h.slot, h.outline, h.medium⟩

theorem claimed (h : first.Alike second) : first.claimed.Alike second.claimed :=
  ⟨rfl, h.outline, h.medium⟩

theorem draw (h : first.Alike second) (found found' : Found) :
    (first.draw found).Alike (second.draw found') :=
  ⟨h.slot, h.outline, h.medium⟩

theorem defer (h : first.Alike second) (tokens : List Token) (terminal : τ) :
    (first.defer tokens terminal).Alike (second.defer tokens terminal) :=
  ⟨rfl, h.outline, h.medium⟩

/-- A child is stored with the same tokens, and the second time it was read from tokens. -/
theorem record (h : first.Alike second) (reference : Token) {left right : Spelling}
    (htokens : right.tokens = left.tokens) (hmedium : right.extent.medium = .tokens) :
    (first.record reference left).Alike (second.record reference right) where
  slot := h.slot
  outline := Subtrees.outline_insert_eq h.outline reference htokens
  medium token spelling hget := by
    simp only [Progress.record, Subtrees.get?_insert] at hget
    split at hget
    · cases hget
      exact hmedium
    · exact h.medium token spelling hget

end Alike

end Progress

/-- The frame reads flat text at the given place, in a tree without ranges. -/
structure Flat {τ ρ : Type} (frame : Frame Input ρ) (progress : Progress τ Input ρ)
    (place : TextCursor) : Prop where
  cursor : frame.cursor = .text place
  sound : place.Sound
  rangeless : frame.path.node.Rangeless
  minted : progress.Minted

/-- The second frame has come as far as the first one, in the tree with tokens attached, and has
the given tokens left to read. -/
structure Mirrors {τ : Type} (tokensAt : Route → Option (List Token)) (remaining : List Token)
    (frame frame' : Frame Input ByName) (progress progress' : Progress τ Input ByName) :
    Prop where
  path : frame'.path = frame.path.attach tokensAt
  resolver : frame'.resolver =
    frame.resolver.attach fun rest => tokensAt (frame.path.address ++ rest)
  tokens : frame'.tokens = frame.tokens
  cursor : ∃ place, frame'.cursor = .tokens place ∧ place.remaining = remaining
  state : progress.Alike progress'

namespace Mirrors

variable {τ : Type} {tokensAt : Route → Option (List Token)} {remaining : List Token}
  {frame frame' : Frame Input ByName} {progress progress' : Progress τ Input ByName}

theorem withState (h : Mirrors tokensAt remaining frame frame' progress progress')
    {state state' : Progress τ Input ByName} (alike : state.Alike state') :
    Mirrors tokensAt remaining frame frame' state state' :=
  ⟨h.path, h.resolver, h.tokens, h.cursor, alike⟩

theorem collect (h : Mirrors tokensAt remaining frame frame' progress progress')
    (tokens : List Token) :
    Mirrors tokensAt remaining (frame.collect tokens) (frame'.collect tokens) progress
      progress' :=
  ⟨h.path, h.resolver, congrArg (· ++ tokens) h.tokens, h.cursor, h.state⟩

theorem move {tokens rest : List Token}
    (h : Mirrors tokensAt (tokens ++ rest) frame frame' progress progress')
    (subtrees subtrees' : Subtrees) :
    Mirrors tokensAt rest (frame.move tokens subtrees) (frame'.move tokens subtrees') progress
      progress' := by
  obtain ⟨place, hcursor, hremaining⟩ := h.cursor
  refine ⟨h.path, h.resolver, h.tokens, ⟨place.advance tokens subtrees', ?_, ?_⟩, h.state⟩
  · simp only [Frame.move, hcursor]
    rfl
  · exact TokenCursor.remaining_advance subtrees' hremaining

theorem emptied (h : Mirrors tokensAt remaining frame frame' progress progress') :
    Mirrors tokensAt remaining frame.emptied frame'.emptied progress progress' :=
  ⟨h.path, h.resolver, rfl, h.cursor, h.state⟩

/-- What a sequence has found is put behind the tokens of the node. -/
theorem commit {tried tried' : Frame Input ByName} {state state' : Progress τ Input ByName}
    {rest : List Token} (h : Mirrors tokensAt remaining frame frame' progress progress')
    (htried : Mirrors tokensAt rest tried tried' state state') :
    Mirrors tokensAt rest ((frame.commit tried).collect tried.tokens)
      ((frame'.commit tried').collect tried'.tokens) state state' := by
  refine ⟨htried.path, htried.resolver, ?_, htried.cursor, htried.state⟩
  simp only [Frame.collect, Frame.commit, h.tokens, htried.tokens]

end Mirrors

/-- A way that was gone from one frame to another on flat text can be gone again in the tree with
tokens attached. The tokens that it reads are those that the frame and the slot gained. The
argument `goes` says of a frame and a state that the way leads to a frame and a state with the
given property. -/
def Retraced {τ : Type} (tokensAt : Route → Option (List Token))
    (goes : Frame Input ByName → Progress τ Input ByName →
      (Frame Input ByName → Progress τ Input ByName → Prop) → Prop)
    (frame : Frame Input ByName) (progress : Progress τ Input ByName) (place : TextCursor)
    (last : Frame Input ByName) (after : Progress τ Input ByName) : Prop :=
  ∃ read place', Flat last after place' ∧
    last.tokens ++ after.pendingTokens = frame.tokens ++ progress.pendingTokens ++ read ∧
    ∀ rest, Stock.Begins place'.remaining rest →
      Stock.Begins place.remaining (read ++ rest) ∧
      ∀ frame' progress', Mirrors tokensAt (read ++ rest) frame frame' progress progress' →
        goes frame' progress' fun last' after' => Mirrors tokensAt rest last last' after after'

namespace Aligner

/-- A way to match nodes on flat text that can be gone again on the tokens attached. -/
def Retraces (tokensAt : Route → Option (List Token))
    (matchChild : MatchChild Stock Input ByName) : Prop :=
  ∀ (path : Ancestry) {place : TextCursor} {progress after : Progress Stock Input ByName}
    {spelling : Spelling}, place.Sound → path.node.Rangeless → progress.Minted →
    progress.pending = none → after.Handed tokensAt →
    matchChild path (.text place) progress = .done spelling after →
    ∀ (reading : TokenCursor) (progress' : Progress Stock Input ByName),
      reading.remaining = spelling.tokens ++ after.pendingTokens → progress.Alike progress' →
      ∃ spelling' after',
        matchChild (path.attach tokensAt) (.tokens reading) progress' = .done spelling' after' ∧
        spelling'.tokens = spelling.tokens ∧ spelling'.extent.medium = .tokens ∧
        after.Alike after'

variable {aligner : Aligner Stock ByName} {levels : Nat}
  {tokensAt : Route → Option (List Token)} {terminal : Stock}
  {frame last : Frame Input ByName} {progress after : Progress Stock Input ByName}
  {place : TextCursor}

/-- A terminal that is found in a text, and is no reference, is found again in the tokens that it
gave, whatever stands behind them. -/
theorem found_again {found : Found} (notReference : Terminal.isReference terminal = false)
    (definite : terminal.Definite) (flat : Flat frame progress place)
    (probe : Reads.probe frame.cursor terminal = some found) :
    ∃ lexemes position, found = .spelled lexemes ∧
      Flat (frame.move (Token.mint progress.supply lexemes) progress.subtrees)
        (progress.draw (.spelled lexemes)) { place with position } ∧
      ∀ rest, Stock.Begins ({ place with position } : TextCursor).remaining rest →
        Stock.Begins place.remaining (Token.mint progress.supply lexemes ++ rest) ∧
        ∀ frame' progress',
          Mirrors tokensAt (Token.mint progress.supply lexemes ++ rest) frame frame' progress
            progress' →
          Reads.probe frame'.cursor terminal =
            some (.stored (Token.mint progress.supply lexemes)) := by
  rw [flat.cursor] at probe
  obtain ⟨lexemes, position, rfl, hmatch, _, hadvance, hsound, _, htext⟩ :=
    Input.exists_part flat.sound probe notReference progress.supply progress.subtrees
  refine ⟨lexemes, position, rfl, ⟨?_, hsound, flat.rangeless, ?_⟩, ?_⟩
  · rw [← hadvance, ← flat.cursor]
    rfl
  · exact (flat.minted.grows_draw lexemes).minted
  · intro rest hrest
    refine ⟨Stock.begins_mint hmatch htext hrest, ?_⟩
    intro frame' progress' mirrors
    obtain ⟨reading, hcursor, hremaining⟩ := mirrors.cursor
    have hprobe : reading.probe terminal = some (Token.mint progress.supply lexemes) := by
      rw [TokenCursor.probe, hremaining]
      exact Stock.matchTokens_mint notReference definite hmatch htext hrest
    rw [hcursor]
    change (reading.probe terminal).map Found.stored = _
    rw [hprobe]
    rfl

/-- A reference is found again in the tokens. -/
theorem probe_of_reference {name : String} {id : Nat} {rest : List Token} {reading : TokenCursor}
    (hcursor : frame.cursor = .tokens reading)
    (hremaining : reading.remaining = [⟨.reference name, id⟩] ++ rest) :
    Reads.probe frame.cursor (Stock.reference name) = some (.stored [⟨.reference name, id⟩]) := by
  have hprobe : reading.probe (Stock.reference name) = some [⟨.reference name, id⟩] := by
    rw [TokenCursor.probe, hremaining]
    change Stock.firstIf Lexeme.referenceKind name (⟨Lexeme.reference name, id⟩ :: rest) = _
    simp [Stock.firstIf, Lexeme.reference]
  rw [hcursor]
  change (reading.probe (Stock.reference name)).map Found.stored = _
  rw [hprobe]
  rfl

/-- A reference is found again in the tokens, and leads to the same child, which is read from the
tokens attached to it. -/
theorem finding_of_mirrors {matchChild : MatchChild Stock Input ByName} {name : String} {id : Nat}
    {rest : List Token} {frame' : Frame Input ByName} {progress' inner : Progress Stock Input ByName}
    {route : Route} {node : Node Token} {spelling : Spelling} {moved moved' : Frame Input ByName}
    {subtrees : Subtrees} {act act' : Act Stock} (byName : aligner.resolver = .byName)
    (mirrors : Mirrors tokensAt ([⟨.reference name, id⟩] ++ rest) frame frame' progress progress')
    (hresolve : (frame.resolver.resolve ⟨.reference name, id⟩).1 = some route)
    (hnode : frame.path.node.get? route = some node)
    (hattached : tokensAt (Ancestry.child frame.path node route).address = some spelling.tokens)
    (hchild : ∀ (reading : TokenCursor) (state : Progress Stock Input ByName),
      reading.remaining = spelling.tokens → progress.Alike state →
      ∃ spelling' inner',
        matchChild ((Ancestry.child frame.path node route).attach tokensAt) (.tokens reading) state =
          .done spelling' inner' ∧
        spelling'.tokens = spelling.tokens ∧ spelling'.extent.medium = .tokens ∧
        inner.Alike inner') :
    ∃ last' after',
      aligner.Finding matchChild (.reference name) frame' progress' last' after' ∧
        Mirrors tokensAt rest
          ((aligner.joined frame ⟨.reference name, id⟩ route).move [⟨.reference name, id⟩] subtrees)
          last' (((inner.note moved act).record ⟨.reference name, id⟩ spelling).note moved' act')
          after' := by
  obtain ⟨reading, hcursor, hremaining⟩ := mirrors.cursor
  generalize hnode' : ((Ancestry.child frame.path node route).attach tokensAt).node = node'
  have hpath : (Ancestry.child frame.path node route).attach tokensAt =
      .child frame'.path node' route := by
    rw [mirrors.path, ← hnode']
    rfl
  have htokens' : node'.tokens = some spelling.tokens := by
    rw [← hnode', Ancestry.tokens_node_attach, hattached]
    rfl
  have hget : frame'.path.node.get? route = some node' := by
    rw [mirrors.path, ← hnode']
    exact Ancestry.get?_node_attach tokensAt hnode
  have hresolved : childAt? frame'
      (aligner.resolver.resolve frame'.resolver ⟨.reference name, id⟩).1 = some (route, node') := by
    rw [byName]
    change childAt? frame' (frame'.resolver.resolve ⟨.reference name, id⟩).1 = _
    rw [mirrors.resolver, ByName.resolve_attach, hresolve]
    simp only [childAt?, hget, Option.map_some]
  obtain ⟨spelling', inner', hmatched, htokens, hmedium, halike⟩ :=
    hchild (reading.forChild node')
      ((progress'.draw (.stored [⟨.reference name, id⟩])).note frame'
        (.descend ⟨.reference name, id⟩ route))
      (TokenCursor.remaining_forChild htokens') ⟨mirrors.state.slot, mirrors.state.outline,
        mirrors.state.medium⟩
  rw [hpath] at hmatched
  have hforChild : Cursor.forChild node' frame'.cursor = Input.tokens (reading.forChild node') := by
    rw [hcursor]
    rfl
  rw [← hforChild] at hmatched
  have hjoined : Mirrors tokensAt ([⟨.reference name, id⟩] ++ rest)
      (aligner.joined frame ⟨.reference name, id⟩ route)
      (aligner.joined frame' ⟨.reference name, id⟩ route) progress progress' := by
    refine ⟨mirrors.path, ?_, ?_, mirrors.cursor, mirrors.state⟩
    · simp only [joined, byName, mirrors.resolver]
      exact congrArg Prod.snd (ByName.resolve_attach _ _ _)
    · simp only [joined, mirrors.tokens]
  refine ⟨_, _, .child (probe_of_reference hcursor hremaining) rfl rfl hresolved hmatched, ?_⟩
  exact (hjoined.move _ _).withState
    (((halike.note _ _ _ _).record _ htokens hmedium).note _ _ _ _)

/-- Every way in which a terminal is found on flat text can be gone again. -/
theorem Retraces.finding (retraces : Retraces tokensAt (aligner.matchNode levels))
    (byName : aligner.resolver = .byName) (takes : aligner.grammar.TakesOnly)
    (definite : terminal.Definite) (flat : Flat frame progress place)
    (empty : progress.pending = none) (handed : after.Handed tokensAt)
    (h : aligner.Finding (aligner.matchNode levels) terminal frame progress last after) :
    Retraced tokensAt
      (fun frame' progress' reaches => ∃ last' after',
        aligner.Finding (aligner.matchNode levels) terminal frame' progress' last' after' ∧
          reaches last' after')
      frame progress place last after := by
  have hslot := Progress.pendingTokens_eq_nil empty
  cases h with
  | plain probe notReference notSeparator =>
      obtain ⟨lexemes, position, rfl, hflat, hagain⟩ :=
        found_again notReference definite flat probe
      refine ⟨Token.mint progress.supply lexemes, { place with position },
        ⟨hflat.cursor, hflat.sound, hflat.rangeless, hflat.minted⟩, ?_, ?_⟩
      · simp only [Progress.pendingTokens_note, Progress.pendingTokens_draw, hslot,
          List.append_nil]
        rfl
      · intro rest hrest
        obtain ⟨hbegins, hprobe⟩ := hagain rest hrest
        refine ⟨hbegins, ?_⟩
        intro frame' progress' mirrors
        refine ⟨_, _, Finding.plain (hprobe _ _ mirrors) notReference notSeparator, ?_⟩
        exact ((mirrors.move _ _).collect _).withState ((mirrors.state.draw _ _).note _ _ _ _)
  | separator probe notReference isSeparator =>
      obtain ⟨lexemes, position, rfl, hflat, hagain⟩ :=
        found_again notReference definite flat probe
      refine ⟨Token.mint progress.supply lexemes, { place with position },
        ⟨hflat.cursor, hflat.sound, hflat.rangeless, hflat.minted⟩, ?_, ?_⟩
      · simp only [Progress.pendingTokens_note, Progress.pendingTokens_defer, hslot,
          List.append_nil]
        rfl
      · intro rest hrest
        obtain ⟨hbegins, hprobe⟩ := hagain rest hrest
        refine ⟨hbegins, ?_⟩
        intro frame' progress' mirrors
        refine ⟨_, _, Finding.separator (hprobe _ _ mirrors) notReference isSeparator, ?_⟩
        exact (mirrors.move _ _).withState
          ((((mirrors.state.draw _ _).note _ _ _ _).defer _ _).note _ _ _ _)
  | @child found reference more route node spelling inner probe isReference tokens resolved
      matched =>
      obtain ⟨name, rfl, rfl, rfl, rfl, hresolve, hnode, hrangeless, matched⟩ :=
        matched_of_reference flat.cursor flat.rangeless probe isReference tokens resolved matched
      rw [flat.cursor] at probe
      have hminted := flat.minted.draw_note [Lexeme.reference name] frame
        (.descend ⟨.reference name, progress.supply⟩ route)
      obtain ⟨hmatch, hwove⟩ := weaves_matchNode takes levels (.child frame.path node route)
        flat.sound hrangeless hminted empty matched
      obtain ⟨_, hwoven⟩ := hwove.woven
      obtain ⟨hgrows, _⟩ := grows_of_child spelling ⟨_, rfl⟩ flat.minted probe hmatch
      have hinner : inner.Handed tokensAt :=
        handed.earlier ((List.suffix_cons _ _).trans (List.suffix_cons _ _))
      rw [byName] at hresolve
      have haddress := ByName.address_ne_nil hresolve frame.path node
      have hattached := hinner.attached _ _ _ hwove.finished haddress
      have hclean := hinner.clean _ _ _ hwove.finished haddress
      refine ⟨[⟨.reference name, progress.supply⟩],
        { place with position := spelling.extent.stop }, ?_, ?_, ?_⟩
      · refine ⟨?_, hwove.sound, flat.rangeless, hgrows.minted⟩
        simp only [Frame.move, joined, flat.cursor]
        exact Input.advance_reference rfl hwoven.position_le hwove.sound
      · simp only [Progress.pendingTokens_note, Progress.pendingTokens_record, hslot, hclean,
          List.append_nil]
        rfl
      · intro rest _
        refine ⟨Stock.begins_reference rfl, ?_⟩
        intro frame' progress' mirrors
        refine finding_of_mirrors byName mirrors hresolve hnode hattached ?_
        intro reading progress'' hremaining halike
        refine retraces (.child frame.path node route) flat.sound hrangeless hminted empty
          hinner matched reading progress'' ?_ ⟨halike.slot, halike.outline, halike.medium⟩
        rw [hremaining, hclean, List.append_nil]

/-- The slot is claimed again, and a terminal found again. -/
theorem Retraces.find (retraces : Retraces tokensAt (aligner.matchNode levels))
    (byName : aligner.resolver = .byName) (takes : aligner.grammar.TakesOnly)
    (definite : terminal.Definite) (flat : Flat frame progress place)
    (handed : after.Handed tokensAt)
    (h : aligner.find (aligner.matchNode levels) terminal frame progress =
      .done (true, last) after) :
    Retraced tokensAt
      (fun frame' progress' reaches => ∃ last' after',
        aligner.find (aligner.matchNode levels) terminal frame' progress' =
          .done (true, last') after' ∧ reaches last' after')
      frame progress place last after := by
  have hflat : Flat (frame.collect progress.pendingTokens) progress.claimed place :=
    ⟨flat.cursor, flat.sound, flat.rangeless, flat.minted⟩
  obtain ⟨read, place', hlast, hgain, hread⟩ :=
    retraces.finding byName takes definite hflat rfl handed (find_eq_done_iff.mp h)
  rw [Progress.pendingTokens_claimed, List.append_nil] at hgain
  refine ⟨read, place', hlast, hgain, ?_⟩
  intro rest hbegins
  obtain ⟨hbegins', hgoes⟩ := hread rest hbegins
  refine ⟨hbegins', ?_⟩
  intro frame' progress' mirrors
  have hclaim : Mirrors tokensAt (read ++ rest) (frame.collect progress.pendingTokens)
      (frame'.collect progress'.pendingTokens) progress.claimed progress'.claimed := by
    rw [mirrors.state.slot]
    exact (mirrors.collect _).withState mirrors.state.claimed
  obtain ⟨last', after', hfinding, hmirrors⟩ := hgoes _ _ hclaim
  exact ⟨last', after', find_eq_done_iff.mpr hfinding, hmirrors⟩

/-- Terminals are found again in the same order. -/
theorem Retraces.sequence (retraces : Retraces tokensAt (aligner.matchNode levels))
    (byName : aligner.resolver = .byName) (takes : aligner.grammar.TakesOnly)
    {terminals : List Stock} (definite : ∀ terminal ∈ terminals, terminal.Definite)
    (flat : Flat frame progress place) (handed : after.Handed tokensAt)
    (h : aligner.sequence (aligner.matchNode levels) terminals frame progress =
      .done (.matched, last) after) :
    Retraced tokensAt
      (fun frame' progress' reaches => ∃ last' after',
        aligner.sequence (aligner.matchNode levels) terminals frame' progress' =
          .done (.matched, last') after' ∧ reaches last' after')
      frame progress place last after := by
  induction terminals generalizing frame progress place with
  | nil =>
      cases h
      refine ⟨[], place, flat, (List.append_nil _).symm, ?_⟩
      intro rest hbegins
      exact ⟨hbegins, fun frame' progress' mirrors => ⟨frame', progress', rfl, mirrors⟩⟩
  | cons terminal terminals ih =>
      obtain ⟨middle, state, hfind, hrest⟩ := sequence_cons_eq_matched_iff.mp h
      have hfirst : aligner.sequence (aligner.matchNode levels) [terminal] frame progress =
          .done (.matched, middle) state :=
        sequence_cons_eq_matched_iff.mpr ⟨middle, state, hfind, rfl⟩
      obtain ⟨hgrows, htext⟩ := grows_of_sequence ⟨place, flat.cursor⟩ flat.minted hfirst
      have hstate : state.Handed tokensAt :=
        handed.earlier (grows_of_sequence htext hgrows.minted hrest).1.noted
      obtain ⟨read, place', hmiddle, hgain, hread⟩ :=
        retraces.find byName takes (definite _ (List.mem_cons_self ..)) flat hstate hfind
      obtain ⟨read', place'', hlast, hgain', hread'⟩ :=
        ih (fun t ht => definite t (List.mem_cons_of_mem _ ht)) hmiddle hrest
      refine ⟨read ++ read', place'', hlast, ?_, ?_⟩
      · rw [hgain', hgain, List.append_assoc]
      · intro rest hbegins
        obtain ⟨hbegins', hgoes'⟩ := hread' rest hbegins
        obtain ⟨hbegins'', hgoes⟩ := hread (read' ++ rest) hbegins'
        rw [← List.append_assoc] at hbegins'' hgoes
        refine ⟨hbegins'', ?_⟩
        intro frame' progress' mirrors
        obtain ⟨middle', state', hfind', hmirrors⟩ := hgoes frame' progress' mirrors
        obtain ⟨last', after', hrest', hmirrors'⟩ := hgoes' middle' state' hmirrors
        exact ⟨last', after',
          sequence_cons_eq_matched_iff.mpr ⟨middle', state', hfind', hrest'⟩, hmirrors'⟩

/-- A procedure with settled demands is followed again to its end. -/
theorem Retraces.drive (retraces : Retraces tokensAt (aligner.matchNode levels))
    (byName : aligner.resolver = .byName) (takesOnly : aligner.grammar.TakesOnly) {start : Nat}
    {takes : List (List Stock)} {procedure : Procedure Stock} {spelling : Spelling}
    (definite : ∀ terminals ∈ takes, ∀ terminal ∈ terminals, terminal.Definite)
    (htakes : procedure.Takes takes) (flat : Flat frame progress place)
    (handed : after.Handed tokensAt)
    (h : aligner.drive (aligner.matchNode levels) start procedure frame progress =
      .done (.spelled spelling) after) :
    ∃ last state, spelling = spellingOf start last ∧ after = state.note last (.finish spelling) ∧
      Retraced tokensAt
        (fun frame' progress' reaches =>
          ∀ (start' : Nat) (procedure' : Procedure Stock), procedure'.Takes takes →
          ∃ last' after',
            aligner.drive (aligner.matchNode levels) start' procedure' frame' progress' =
              .done (.spelled (spellingOf start' last'))
                (after'.note last' (.finish (spellingOf start' last'))) ∧ reaches last' after')
        frame progress place last state := by
  induction htakes generalizing frame progress place with
  | done =>
      cases h
      refine ⟨frame, progress, rfl, rfl, [], place, flat, (List.append_nil _).symm, ?_⟩
      intro rest hbegins
      refine ⟨hbegins, ?_⟩
      intro frame' progress' mirrors start' procedure' htakes'
      cases htakes'
      exact ⟨frame', progress', rfl, mirrors⟩
  | @take terminals takes next htakes ih =>
      obtain ⟨tried, state, hsequence, hnext⟩ := drive_take_eq_spelled_iff.mp h
      have hemptied : Flat frame.emptied progress place :=
        ⟨flat.cursor, flat.sound, flat.rangeless, flat.minted⟩
      obtain ⟨hgrows, htext⟩ := grows_of_sequence ⟨place, hemptied.cursor⟩ flat.minted hsequence
      have htext : ((frame.commit tried).collect tried.tokens).cursor.IsText := htext
      have hminted : (stepped ((frame.commit tried).collect tried.tokens) .proceed
          (next .proceed state.subtrees) state).Minted := hgrows.minted
      have hnoted := (List.suffix_cons _ _).trans (grows_of_drive htext hminted hnext).noted
      obtain ⟨read, place', htried, hgain, hread⟩ :=
        retraces.sequence byName takesOnly (definite _ (List.mem_cons_self ..)) hemptied
          (handed.earlier hnoted) hsequence
      have hflat : Flat ((frame.commit tried).collect tried.tokens)
          (stepped ((frame.commit tried).collect tried.tokens) .proceed
            (next .proceed state.subtrees) state) place' :=
        ⟨htried.cursor, htried.sound, htried.rangeless, htried.minted⟩
      obtain ⟨last, state', hspelling, hafter, read', place'', hlast, hgain', hread'⟩ :=
        ih state.subtrees (fun t ht => definite t (List.mem_cons_of_mem _ ht)) hflat hnext
      refine ⟨last, state', hspelling, hafter, read ++ read', place'', hlast, ?_, ?_⟩
      · have hcommit : ((frame.commit tried).collect tried.tokens).tokens =
            frame.tokens ++ tried.tokens := rfl
        have hempty : frame.emptied.tokens = [] := rfl
        rw [hempty, List.nil_append] at hgain
        rw [hgain', hcommit, stepped, Progress.pendingTokens_note, List.append_assoc frame.tokens,
          hgain]
        simp only [List.append_assoc]
      · intro rest hbegins
        obtain ⟨hbegins', hgoes'⟩ := hread' rest hbegins
        obtain ⟨hbegins'', hgoes⟩ := hread (read' ++ rest) hbegins'
        rw [← List.append_assoc] at hbegins'' hgoes
        refine ⟨hbegins'', ?_⟩
        intro frame' progress' mirrors start' procedure' htakes'
        cases htakes' with
        | @take _ _ next' hrest =>
            obtain ⟨tried', state', hsequence', htried'⟩ := hgoes _ _ mirrors.emptied
            have hcommit := mirrors.commit htried'
            obtain ⟨last', after', hdrive, hreaches⟩ :=
              hgoes' _ _ (hcommit.withState (hcommit.state.note _ _ _ _)) start' _
                (hrest state'.subtrees)
            exact ⟨last', after', drive_take_eq_spelled_iff.mpr ⟨tried', state', hsequence', hdrive⟩,
              hreaches⟩

/-- Every level of a match can be gone again, if the demands are settled and name no optional
quotation. -/
theorem retraces_matchNode (byName : aligner.resolver = .byName)
    (settled : aligner.grammar.Settled Stock.Definite) (tokensAt : Route → Option (List Token))
    (levels : Nat) : Retraces tokensAt (aligner.matchNode levels) := by
  induction levels with
  | zero =>
      intro path place progress after spelling _ _ _ _ _ h
      simp [matchNode, fail] at h
  | succ levels ih =>
      intro path place progress after spelling sound rangeless minted empty handed h reading
        progress' hremaining halike
      have hattempt := attempt_of_matchNode ⟨place, rfl⟩ h
      obtain ⟨rule, hrule, hdrive⟩ := attempt_eq_spelled_iff.mp hattempt
      obtain ⟨takes, hdefinite, htakes⟩ := settled _ _ hrule path
      have hflat : Flat (aligner.opening path (.text place))
          (stepped (aligner.opening path (.text place)) .proceed (rule path progress.subtrees)
            (progress.note (aligner.opening path (.text place)) .begin)) place :=
        ⟨rfl, sound, rangeless, minted⟩
      obtain ⟨last, state, rfl, rfl, read, place', _, hgain, hread⟩ :=
        ih.drive byName settled.takesOnly hdefinite (htakes progress.subtrees).1 hflat handed hdrive
      rw [stepped, Progress.pendingTokens_note, Progress.pendingTokens_note,
        Progress.pendingTokens_eq_nil empty] at hgain
      have hopening : Mirrors tokensAt (read ++ []) (aligner.opening path (.text place))
          (aligner.opening (path.attach tokensAt) (.tokens reading))
          (stepped (aligner.opening path (.text place)) .proceed (rule path progress.subtrees)
            (progress.note (aligner.opening path (.text place)) .begin))
          (stepped (aligner.opening (path.attach tokensAt) (.tokens reading)) .proceed
            (rule (path.attach tokensAt) progress'.subtrees)
            (progress'.note (aligner.opening (path.attach tokensAt) (.tokens reading)) .begin)) := by
        refine ⟨rfl, ?_, rfl, ⟨reading, rfl, ?_⟩, (halike.note _ _ _ _).note _ _ _ _⟩
        · simp only [opening, byName, Ancestry.node_attach]
          rfl
        · rw [List.append_nil, hremaining]
          exact hgain
      obtain ⟨last', state', hdrive', hmirrors⟩ :=
        (hread [] (Stock.begins_nil _)).2 _ _ hopening (Cursor.position (Input.tokens reading)) _
          ((htakes progress'.subtrees).2 tokensAt)
      have hrule' : aligner.grammar.rule? (path.attach tokensAt).node.type = some rule := by
        rw [Ancestry.node_attach, Node.type_attach]
        exact hrule
      have hattempt' := attempt_eq_spelled_iff.mpr ⟨rule, hrule', hdrive'⟩
      obtain ⟨reading', hcursor', _⟩ := hmirrors.cursor
      refine ⟨_, _, restart_of_attempt _ hattempt', hmirrors.tokens, ?_,
        hmirrors.state.note _ _ _ _⟩
      simp only [spellingOf, hcursor']
      rfl

end Aligner

end TreeAlign
