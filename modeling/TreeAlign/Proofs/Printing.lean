import TreeAlign.Proofs.Grammar.Settled
import TreeAlign.Proofs.Matching.Probing
import TreeAlign.Proofs.Matching.Supply
import TreeAlign.Proofs.Matching.Stages
import TreeAlign.Proofs.Tree.Height

/-!
# Printing a tree

Without input a match is a printer. `Aligner.print` says what it prints, by
plain recursion on the tree: the demands of a node one after the other, each
terminal by its own text and each reference by the text of its child. There
is no slot in it, no store and no cursor.

A match without input never misses a terminal, as long as no reference is
optional, so it never fails for that reason. Its separators wait in the slot
and may end up in another node than the one that asked for them, but never at
another place of the text.

## Implementation notes

The proof relates the tokens of the frame, followed by those in the slot, to
the text printed so far, and lets the terminals still to come stand for the
rest of the text.
-/

namespace TreeAlign

namespace Procedure

variable {τ : Type}

/-- The demands of a procedure, as long as it makes nothing but demands. -/
def demands : Procedure τ → List (List τ)
  | .yield (.take terminals) next => terminals :: (next .proceed .empty).demands
  | _ => []

theorem Takes.demands_eq {takes : List (List τ)} {procedure : Procedure τ}
    (h : procedure.Takes takes) : procedure.demands = takes := by
  induction h with
  | done => rfl
  | take _ ih => rw [demands, ih]

end Procedure

/-- The procedures make nothing but demands, the same ones whatever children have been found, and
ask for allowed terminals only. -/
def Grammar.Demands {τ : Type} (grammar : Grammar τ) (allowed : τ → Prop) : Prop :=
  ∀ type rule, grammar.rule? type = some rule → ∀ path, ∃ takes,
    (∀ terminals ∈ takes, ∀ terminal ∈ terminals, allowed terminal) ∧
    ∀ subtrees, (rule path subtrees).Takes takes

theorem Grammar.Settled.demands {τ : Type} {grammar : Grammar τ} {allowed : τ → Prop}
    (settled : grammar.Settled allowed) : grammar.Demands allowed := by
  intro type rule hrule path
  obtain ⟨takes, hallowed, htakes⟩ := settled type rule hrule path
  exact ⟨takes, hallowed, fun subtrees => (htakes subtrees).1⟩

/-- A reference is known to the resolver by its kind and its name, and not by its identity. -/
def Resolver.Blind {ρ : Type} (resolver : Resolver ρ) : Prop :=
  ∀ state reference other, Token.toLexeme reference = other.toLexeme →
    resolver.resolve state reference = resolver.resolve state other

theorem Resolver.blind_byName : Resolver.byName.Blind := by
  intro state reference other h
  have hvalue : reference.value = other.value := congrArg Lexeme.value h
  simp only [byName, ByName.resolve, hvalue]

theorem Token.textOf_append (left right : List Token) :
    textOf (left ++ right) = textOf left ++ textOf right := by
  simp [textOf]

namespace Stock

/-- An optional terminal around a reference. -/
def isOptionalReference : Stock → Bool
  | .optional inner => inner.kind = Lexeme.referenceKind
  | _ => false

/-- The text of a terminal that is no reference. -/
def printed : Stock → String
  | .blank default => default
  | .punctuator value => value
  | .keyword value => value
  | .identifier value => value
  | .quotation value => singleQuote ++ value ++ singleQuote
  | .separator => " "
  | .reference _ => ""
  | .optional _ => ""

/-- What a terminal spells without input has its text. -/
theorem textOf_mint_build {terminal : Stock} (h : Terminal.isReference terminal = false)
    (supply : Nat) :
    Token.textOf (Token.mint supply (terminal.build none)) = terminal.printed := by
  cases terminal with
  | reference name => exact absurd h (by simp [Terminal.isReference, kind])
  | quotation value =>
      simp [build, printed, quotedLexemes, Token.mint, Token.textOf, String.append_assoc]
  | _ => simp [build, printed, Token.mint, Token.textOf]

/-- A reference that is not optional is one by its name. -/
theorem eq_reference {terminal : Stock} (isReference : Terminal.isReference terminal = true)
    (allowed : terminal.isOptionalReference = false) : ∃ name, terminal = .reference name := by
  cases terminal with
  | reference name => exact ⟨name, rfl⟩
  | optional inner =>
      have hkind : decide (inner.kind = Lexeme.referenceKind) = true := isReference
      rw [isOptionalReference, hkind] at allowed
      cases allowed
  | _ => exact absurd (of_decide_eq_true isReference) (by simp only [kind]; decide)

end Stock

namespace Aligner

variable {ρ : Type} (aligner : Aligner Stock ρ)

/-- Prints terminals one after the other, from the given state of the resolver on. -/
def printTerminals (path : Ancestry)
    (printChild : (route : Route) → (child : Node Token) → path.node.get? route = some child →
      Option String) : ρ → List Stock → Option String
  | _, [] => some ""
  | state, .reference name :: rest =>
    match aligner.resolver.resolve state ⟨.reference name, 0⟩ with
    | (none, _) => none
    | (some route, state) =>
      match h : path.node.get? route with
      | none => none
      | some child =>
        (printChild route child h).bind fun text =>
          (printTerminals path printChild state rest).map (text ++ ·)
  | state, terminal :: rest =>
    (printTerminals path printChild state rest).map (terminal.printed ++ ·)

/-- The text of a node: that of its demands in order, with the text of a child for each
reference. -/
def print (path : Ancestry) : Option String :=
  match aligner.grammar.rule? path.node.type with
  | none => none
  | some rule =>
    aligner.printTerminals path (fun route child _ => print (.child path child route))
      (aligner.resolver.start path.node) (rule path .empty).demands.flatten
termination_by path.node.height
decreasing_by exact Node.height_lt_of_get? ‹_›

/-- Prints terminals of a node, with the text of its children. -/
def printFrom (path : Ancestry) : ρ → List Stock → Option String :=
  aligner.printTerminals path fun route child _ => aligner.print (.child path child route)

theorem print_eq {path : Ancestry} {rule : Rule Stock}
    (known : aligner.grammar.rule? path.node.type = some rule) :
    aligner.print path = aligner.printFrom path (aligner.resolver.start path.node)
      (rule path .empty).demands.flatten := by
  rw [print, known]
  rfl

variable {aligner} {path : Ancestry} {state later : ρ} {terminal : Stock} {rest : List Stock}

theorem printFrom_plain (notReference : Terminal.isReference terminal = false) :
    aligner.printFrom path state (terminal :: rest) =
      (aligner.printFrom path state rest).map (terminal.printed ++ ·) := by
  cases terminal with
  | reference name => exact absurd notReference (by simp [Terminal.isReference, Stock.kind])
  | _ => rfl

theorem printFrom_reference {name : String} {route : Route} {child : Node Token}
    (resolved : (aligner.resolver.resolve state ⟨.reference name, 0⟩).1 = some route)
    (found : path.node.get? route = some child) :
    aligner.printFrom path state (.reference name :: rest) =
      (aligner.print (.child path child route)).bind fun text =>
        (aligner.printFrom path (aligner.resolver.resolve state ⟨.reference name, 0⟩).2 rest).map
          (text ++ ·) := by
  rw [printFrom, printTerminals]
  split
  · next hnone => simp [hnone] at resolved
  · next route' state' hsome =>
      rw [hsome] at resolved ⊢
      cases resolved
      split
      · next hnone => rw [found] at hnone; cases hnone
      · next child' hchild =>
          rw [found] at hchild
          cases hchild
          rfl

variable (aligner) in
/-- Whatever is printed from the later state on, the terminals put the piece in front of it. -/
def PrintsOn (path : Ancestry) (state : ρ) (terminals : List Stock) (piece : String)
    (later : ρ) : Prop :=
  ∀ rest text, aligner.printFrom path later rest = some text →
    aligner.printFrom path state (terminals ++ rest) = some (piece ++ text)

namespace PrintsOn

theorem nil (path : Ancestry) (state : ρ) : aligner.PrintsOn path state [] "" state := by
  intro rest text h
  rw [List.nil_append, String.empty_append]
  exact h

theorem append {last : ρ} {first second : List Stock} {piece more : String}
    (h : aligner.PrintsOn path state first piece later)
    (h' : aligner.PrintsOn path later second more last) :
    aligner.PrintsOn path state (first ++ second) (piece ++ more) last := by
  intro rest text hrest
  rw [List.append_assoc, String.append_assoc]
  exact h _ _ (h' rest text hrest)

theorem plain (notReference : Terminal.isReference terminal = false) :
    aligner.PrintsOn path state [terminal] terminal.printed state := by
  intro rest text h
  rw [List.singleton_append, printFrom_plain notReference, h]
  rfl

theorem reference {name : String} {route : Route} {child : Node Token} {piece : String}
    (resolved : (aligner.resolver.resolve state ⟨.reference name, 0⟩).1 = some route)
    (found : path.node.get? route = some child)
    (printed : aligner.print (.child path child route) = some piece) :
    aligner.PrintsOn path state [.reference name] piece
      (aligner.resolver.resolve state ⟨.reference name, 0⟩).2 := by
  intro rest text h
  rw [List.singleton_append, printFrom_reference resolved found, printed, h]
  rfl

end PrintsOn

end Aligner

/-- The extent of everything that was made without input. -/
def Extent.nowhere : Extent := ⟨.synthetic, 0, 0⟩

/-- The failure is not that of a missing terminal. -/
def Failure.NotParsing (failure : Failure) : Prop :=
  ∀ type terminal medium position cause, failure ≠ .parsing type terminal medium position cause

variable {ρ : Type}

/-- Everything that was spelled or stored so far was made without input. -/
structure Progress.Nowhere (progress : Progress Stock Input ρ) : Prop where
  stored : ∀ token spelling, progress.subtrees.get? token = some spelling →
    spelling.extent = .nowhere
  finished : ∀ moment ∈ progress.journal, ∀ spelling, moment.act = .finish spelling →
    spelling.extent = .nowhere

namespace Progress.Nowhere

variable {progress : Progress Stock Input ρ} {frame : Frame Input ρ}

theorem start (supply : Nat) : ({ supply } : Progress Stock Input ρ).Nowhere :=
  ⟨fun _ _ h => by simp [Subtrees.get?, Subtrees.empty] at h, by simp⟩

theorem note (h : progress.Nowhere) {act : Act Stock}
    (other : ∀ spelling, act = .finish spelling → spelling.extent = .nowhere) :
    (progress.note frame act).Nowhere where
  stored := h.stored
  finished := List.forall_mem_cons.mpr ⟨other, h.finished⟩

theorem draw (h : progress.Nowhere) (found : Found) : (progress.draw found).Nowhere :=
  ⟨h.stored, h.finished⟩

theorem record (h : progress.Nowhere) {spelling : Spelling} (reference : Token)
    (extent_eq : spelling.extent = .nowhere) : (progress.record reference spelling).Nowhere where
  stored := by
    intro token found hget
    change (progress.subtrees.insert reference spelling).get? token = some found at hget
    rw [Subtrees.get?_insert] at hget
    split at hget
    · cases hget
      exact extent_eq
    · exact h.stored token found hget
  finished := h.finished

end Progress.Nowhere

/-- A frame and a state in the middle of printing a node. The held tokens stand in front of those
of the frame, and all of them have the text that was printed so far. -/
structure Printing (path : Ancestry) (held : List Token) (text : String)
    (frame : Frame Input ρ) (progress : Progress Stock Input ρ) : Prop where
  minted : progress.Minted
  nowhere : progress.Nowhere
  path_eq : frame.path = path
  cursor_eq : frame.cursor = .synthetic
  leaves : ∃ leaves, progress.subtrees.Expands
    (held ++ frame.tokens ++ progress.pendingTokens) leaves ∧ Token.textOf leaves = text

namespace Printing

variable {path : Ancestry} {held : List Token} {text : String} {frame : Frame Input ρ}
  {progress : Progress Stock Input ρ}

theorem note (h : Printing path held text frame progress) {noted : Frame Input ρ} {act : Act Stock}
    (other : ∀ spelling, act ≠ .finish spelling) :
    Printing path held text frame (progress.note noted act) where
  minted := h.minted
  nowhere := h.nowhere.note fun spelling hact => absurd hact (other spelling)
  path_eq := h.path_eq
  cursor_eq := h.cursor_eq
  leaves := h.leaves

theorem claim (h : Printing path held text frame progress) :
    Printing path held text (frame.collect progress.pendingTokens) progress.claimed where
  minted := h.minted
  nowhere := ⟨h.nowhere.stored, h.nowhere.finished⟩
  path_eq := h.path_eq
  cursor_eq := h.cursor_eq
  leaves := by
    obtain ⟨leaves, hexpands, htext⟩ := h.leaves
    have htokens : held ++ (frame.collect progress.pendingTokens).tokens ++
        progress.claimed.pendingTokens = held ++ frame.tokens ++ progress.pendingTokens := by
      simp [Frame.collect]
    rw [htokens]
    exact ⟨leaves, hexpands, htext⟩

variable {terminal : Stock}

/-- What a terminal spells is collected. -/
theorem plain (h : Printing path held text frame progress) (empty : progress.pending = none)
    (notReference : Terminal.isReference terminal = false)
    (plain : Token.Plain (Token.mint progress.supply (terminal.build none))) :
    Printing path held (text ++ terminal.printed)
      ((frame.move (Token.mint progress.supply (terminal.build none)) progress.subtrees).collect
        (Token.mint progress.supply (terminal.build none)))
      (progress.draw (.spelled (terminal.build none))) where
  minted := (h.minted.grows_draw _).minted
  nowhere := h.nowhere.draw _
  path_eq := h.path_eq
  cursor_eq := by rw [Frame.collect, Frame.move, h.cursor_eq]; rfl
  leaves := by
    obtain ⟨leaves, hexpands, htext⟩ := h.leaves
    refine ⟨leaves ++ Token.mint progress.supply (terminal.build none), ?_, ?_⟩
    · have happend := hexpands.append (.of_plain plain)
      rw [Progress.pendingTokens_eq_nil empty, List.append_nil] at happend
      rw [Progress.pendingTokens_draw, Progress.pendingTokens_eq_nil empty, List.append_nil,
        Frame.collect, ← List.append_assoc]
      exact happend
    · rw [Token.textOf_append, htext, Stock.textOf_mint_build notReference]

/-- What a separator spells waits in the slot. -/
theorem separator (h : Printing path held text frame progress) (empty : progress.pending = none)
    (notReference : Terminal.isReference terminal = false)
    (plain : Token.Plain (Token.mint progress.supply (terminal.build none)))
    (noted : Frame Input ρ) :
    Printing path held (text ++ terminal.printed)
      (frame.move (Token.mint progress.supply (terminal.build none)) progress.subtrees)
      (((progress.draw (.spelled (terminal.build none))).note noted
        (.defer (Token.mint progress.supply (terminal.build none)))).defer
          (Token.mint progress.supply (terminal.build none)) terminal) where
  minted := (h.minted.grows_draw _).minted
  nowhere := by
    have hnote : ((progress.draw (.spelled (terminal.build none))).note noted
        (.defer (Token.mint progress.supply (terminal.build none)))).Nowhere :=
      (h.nowhere.draw _).note (by simp)
    exact ⟨hnote.stored, hnote.finished⟩
  path_eq := h.path_eq
  cursor_eq := by rw [Frame.move, h.cursor_eq]; rfl
  leaves := by
    obtain ⟨leaves, hexpands, htext⟩ := h.leaves
    refine ⟨leaves ++ Token.mint progress.supply (terminal.build none), ?_, ?_⟩
    · have happend := hexpands.append (.of_plain plain)
      rw [Progress.pendingTokens_eq_nil empty, List.append_nil] at happend
      exact happend
    · rw [Token.textOf_append, htext, Stock.textOf_mint_build notReference]

/-- A sequence begins in a frame of its own. -/
theorem emptied (h : Printing path [] text frame progress) :
    Printing path frame.tokens text frame.emptied progress where
  minted := h.minted
  nowhere := h.nowhere
  path_eq := h.path_eq
  cursor_eq := h.cursor_eq
  leaves := by
    obtain ⟨leaves, hexpands, htext⟩ := h.leaves
    refine ⟨leaves, ?_, htext⟩
    rw [Frame.emptied, List.append_nil]
    exact hexpands

/-- The tokens of a sequence go behind those of its node. -/
theorem collected {tried : Frame Input ρ} (h : Printing path frame.tokens text tried progress) :
    Printing path [] text ((frame.commit tried).collect tried.tokens) progress :=
  ⟨h.minted, h.nowhere, h.path_eq, h.cursor_eq, h.leaves⟩

end Printing

namespace Aligner

/-- Without input everything that is found is new. -/
theorem kept_grows_synthetic : Kept (· = Input.synthetic)
    fun before after : Progress Stock Input ρ => before.Minted → before.Grows after := by
  apply kept_grows_of
  · rintro _ terminal found rfl hprobe
    cases hprobe
    exact ⟨_, rfl⟩
  · rintro _ _ _ rfl
    rfl
  · rintro _ _ rfl
    rfl
  · rintro _ _ rfl hnext
    cases hnext

/-- What is left of the match of a node that prints the piece. -/
structure Prints (aligner : Aligner Stock ρ) (path : Ancestry) (before : Progress Stock Input ρ)
    (spelling : Spelling) (after : Progress Stock Input ρ) : Prop where
  grows : before.Grows after
  nowhere : after.Nowhere
  extent : spelling.extent = .nowhere
  printed : ∃ leaves, after.subtrees.Expands (spelling.tokens ++ after.pendingTokens) leaves ∧
    aligner.print path = some (Token.textOf leaves)

/-- A match without input fails for another reason than a missing terminal. -/
def Misprints (failure : Failure) (progress : Progress Stock Input ρ) : Prop :=
  failure.NotParsing ∧ progress.Nowhere

/-- Children are printed. -/
def PrintsBelow (aligner : Aligner Stock ρ) (levels : Nat) (path : Ancestry) : Prop :=
  ∀ node route (progress : Progress Stock Input ρ), progress.Minted → progress.pending = none →
    progress.Nowhere →
    (aligner.matchNode levels (.child path node route) .synthetic progress).Ends Misprints
      (aligner.Prints (.child path node route) progress)

variable {aligner : Aligner Stock ρ} {levels : Nat} {path : Ancestry} {held : List Token}
  {text : String} {frame found : Frame Input ρ} {progress after : Progress Stock Input ρ}
  {terminal : Stock}

/-- A child that was printed is stored for its reference, with its text behind that of the
frame. -/
theorem Prints.join {name : String} {route : Route} {node : Node Token} {spelling : Spelling}
    (prints : aligner.Prints (.child path node route)
      ((progress.draw (.spelled [.reference name])).note frame
        (.descend ⟨.reference name, progress.supply⟩ route)) spelling after)
    (h : Printing path held text frame progress) (empty : progress.pending = none) :
    ∃ piece, aligner.print (.child path node route) = some piece ∧
      ∀ joined : Frame Input ρ, joined.path = frame.path → joined.cursor = .synthetic →
        joined.tokens = frame.tokens ++ [⟨.reference name, progress.supply⟩] →
        Printing path held (text ++ piece) joined ((after.note frame
          (.record ⟨.reference name, progress.supply⟩ spelling)).record
            ⟨.reference name, progress.supply⟩ spelling) := by
  obtain ⟨leaves, hexpands, htext⟩ := h.leaves
  obtain ⟨inside, hinside, hprint⟩ := prints.printed
  obtain ⟨inner, slot, hinner, hslot, rfl⟩ := hinside.split
  have hdraw := h.minted.grows_draw [Lexeme.reference name]
  have hafter : (progress.draw (.spelled [.reference name])).Grows after :=
    (kept_grows_synthetic.note _ _ _ hdraw.minted).trans prints.grows
  have hnew := h.minted.get?_eq_none hafter
  have hsupply : progress.supply < after.supply := hafter.supply
  have hgrows := (hdraw.trans hafter).record hnew (Nat.le_refl _) hsupply spelling
  refine ⟨_, hprint, fun joined path_eq cursor_eq tokens_eq => ⟨hgrows.minted,
    (prints.nowhere.note (by simp)).record _ prints.extent, path_eq.trans h.path_eq, cursor_eq,
    leaves ++ (inner ++ slot), ?_, ?_⟩⟩
  · rw [Progress.pendingTokens_eq_nil empty, List.append_nil] at hexpands
    have hkept := Subtrees.extends_insert hnew spelling
    have hchild := (Subtrees.Expands.child rfl (Subtrees.get?_insert_self _ _ _)
      (hinner.mono hkept) .nil).append (hslot.mono hkept)
    have hall := (hexpands.mono hgrows.adds.kept).append hchild
    rw [tokens_eq]
    simp only [List.append_assoc, List.append_nil] at hall ⊢
    exact hall
  · rw [Token.textOf_append, htext]

/-- A terminal that is found prints its piece. -/
theorem Finding.prints
    (finding : aligner.Finding (aligner.matchNode levels) terminal frame progress found after)
    (blind : aligner.resolver.Blind) (children : aligner.PrintsBelow levels path)
    (empty : progress.pending = none) (h : Printing path held text frame progress) :
    ∃ piece, aligner.PrintsOn path frame.resolver [terminal] piece found.resolver ∧
      Printing path held (text ++ piece) found after := by
  have hcursor := h.cursor_eq
  cases finding with
  | plain probe notReference _ =>
      rw [hcursor] at probe
      have hplain := Input.plain_of_probe probe notReference progress.supply
      cases probe
      exact ⟨_, .plain notReference, (h.plain empty notReference hplain).note (by simp)⟩
  | separator probe notReference _ =>
      rw [hcursor] at probe
      have hplain := Input.plain_of_probe probe notReference progress.supply
      cases probe
      exact ⟨_, .plain notReference, (h.separator empty notReference hplain _).note (by simp)⟩
  | child probe isReference tokens resolved matched =>
      rw [hcursor] at probe
      rcases Stock.build_of_isReference isReference with hbuild | ⟨name, rfl⟩
      · cases probe
        have hnone : Token.mint progress.supply (terminal.build none) = _ := tokens
        rw [hbuild] at hnone
        cases hnone
      · cases probe
        cases tokens
        obtain ⟨hresolve, hnode⟩ := childAt?_eq_some resolved
        have hblind := blind frame.resolver ⟨.reference name, progress.supply⟩
          ⟨.reference name, 0⟩ rfl
        rw [h.path_eq] at hnode matched
        rw [hcursor] at matched
        have hprints := (children _ _ _ (h.minted.draw_note _ _ _) empty
          ((h.nowhere.draw _).note (by simp))).of_done matched
        obtain ⟨piece, hprint, hjoin⟩ := hprints.join h empty
        refine ⟨piece, ?_, ?_⟩
        · rw [Frame.move, joined, hblind]
          exact .reference (hblind ▸ hresolve) hnode hprint
        · apply Printing.note
          · apply hjoin
            · rfl
            · rw [Frame.move, joined, hcursor]
              rfl
            · rfl
          · simp

/-- Looking for a terminal fails for want of a child, or in a child. -/
theorem Breaking.misprints {failure : Failure}
    (breaking : aligner.Breaking (aligner.matchNode levels) terminal frame progress failure after)
    (children : aligner.PrintsBelow levels path) (empty : progress.pending = none)
    (h : Printing path held text frame progress) : Misprints failure after := by
  cases breaking with
  | unresolved _ _ _ _ => exact ⟨by simp [Failure.NotParsing], (h.nowhere.draw _).note (by simp)⟩
  | child probe _ _ _ failed =>
      have hcursor := h.cursor_eq
      rw [hcursor] at probe failed
      cases probe
      rw [h.path_eq] at failed
      exact (children _ _ _ (h.minted.draw_note _ _ _) empty
        ((h.nowhere.draw _).note (by simp))).of_failed failed

/-- Without input nothing is missing but an optional reference. -/
theorem find_ne_missed (cursor_eq : frame.cursor = .synthetic)
    (allowed : terminal.isOptionalReference = false) {matchChild : MatchChild Stock Input ρ} :
    aligner.find matchChild terminal frame progress ≠ .done (false, found) after := by
  intro h
  have hprobe : Reads.probe (frame.collect progress.pendingTokens).cursor terminal =
      some (.spelled (terminal.build none)) := by
    rw [Frame.collect, cursor_eq]
    rfl
  have htakeUp : aligner.takeUp matchChild terminal
      (Token.mint progress.supply (terminal.build none)) (frame.collect progress.pendingTokens)
      (progress.claimed.draw (.spelled (terminal.build none))) = .done (false, found) after := by
    rw [find, findHere, hprobe] at h
    exact h
  unfold takeUp at htakeUp
  split at htakeUp
  · next isReference =>
      obtain ⟨name, rfl⟩ := Stock.eq_reference isReference allowed
      obtain ⟨_, _, _, hpass⟩ := Run.andThen_eq_done_iff.mp htakeUp
      cases hpass
  · split at htakeUp
    · cases htakeUp
    · cases htakeUp

/-- Terminals that are found print their pieces one after the other. -/
theorem sequence_prints (blind : aligner.resolver.Blind)
    (children : aligner.PrintsBelow levels path) {terminals : List Stock}
    (allowed : ∀ terminal ∈ terminals, terminal.isOptionalReference = false)
    (h : Printing path held text frame progress) :
    (aligner.sequence (aligner.matchNode levels) terminals frame progress).Ends Misprints
      fun result after => result.1 = .matched ∧
        ∃ piece, aligner.PrintsOn path frame.resolver terminals piece result.2.resolver ∧
          Printing path held (text ++ piece) result.2 after := by
  induction terminals generalizing text frame progress with
  | nil => exact ⟨rfl, "", .nil _ _, by rw [String.append_empty]; exact h⟩
  | cons terminal rest ih =>
      obtain ⟨hfirst, hrest⟩ := List.forall_mem_cons.mp allowed
      rw [sequence]
      cases hfind : aligner.find (aligner.matchNode levels) terminal frame progress with
      | failed failure after => exact (find_eq_failed hfind).misprints children rfl h.claim
      | done result after =>
          obtain ⟨here, last⟩ := result
          cases here with
          | false => exact absurd hfind (find_ne_missed h.cursor_eq hfirst)
          | true =>
              obtain ⟨piece, hpiece, hprinting⟩ :=
                (find_eq_done_iff.mp hfind).prints blind children rfl h.claim
              apply (ih hrest hprinting).imp
              rintro ⟨outcome, tried⟩ state ⟨hmatched, more, hmore, hstate⟩
              refine ⟨hmatched, piece ++ more, hpiece.append hmore, ?_⟩
              rw [← String.append_assoc]
              exact hstate

/-- A procedure that makes demands prints them one after the other. -/
theorem drive_prints (blind : aligner.resolver.Blind) (children : aligner.PrintsBelow levels path)
    {takes : List (List Stock)} {procedure : Procedure Stock} (demands : procedure.Takes takes)
    (allowed : ∀ terminals ∈ takes, ∀ terminal ∈ terminals, terminal.isOptionalReference = false)
    (h : Printing path [] text frame progress) :
    (aligner.drive (aligner.matchNode levels) 0 procedure frame progress).Ends Misprints
      fun result after => ∃ last state piece, result = .spelled (spellingOf 0 last) ∧
        after = state.note last (.finish (spellingOf 0 last)) ∧
        aligner.PrintsOn path frame.resolver takes.flatten piece last.resolver ∧
        Printing path [] (text ++ piece) last state := by
  induction demands generalizing text frame progress with
  | done =>
      refine ⟨frame, progress, "", rfl, rfl, .nil _ _, ?_⟩
      rw [String.append_empty]
      exact h
  | @take terminals takes next _ ih =>
      obtain ⟨hfirst, hrest⟩ := List.forall_mem_cons.mp allowed
      rw [drive]
      apply (sequence_prints blind children hfirst h.emptied).andThen
      rintro ⟨outcome, tried⟩ state ⟨rfl, piece, hpiece, hprinting⟩
      refine (ih state.subtrees hrest (hprinting.collected.note ?_)).imp ?_
      · simp
      rintro result after ⟨last, state', more, hresult, hafter, hmore, hlast⟩
      refine ⟨last, state', piece ++ more, hresult, hafter, hpiece.append hmore, ?_⟩
      rw [← String.append_assoc]
      exact hlast

/-- An attempt at a node without input prints the node. -/
theorem attempt_prints (blind : aligner.resolver.Blind)
    (demands : aligner.grammar.Demands (·.isOptionalReference = false))
    (children : aligner.PrintsBelow levels path) (minted : progress.Minted)
    (empty : progress.pending = none) (nowhere : progress.Nowhere) :
    (aligner.attempt (aligner.matchNode levels) path .synthetic progress).Ends Misprints
      fun result after => ∃ spelling, result = .spelled spelling ∧ after.Nowhere ∧
        spelling.extent = .nowhere ∧
        ∃ leaves, after.subtrees.Expands (spelling.tokens ++ after.pendingTokens) leaves ∧
          aligner.print path = some (Token.textOf leaves) := by
  rw [attempt, Grammar.start]
  cases hrule : aligner.grammar.rule? path.node.type with
  | none => exact ⟨by simp [Failure.NotParsing], (nowhere.note (by simp)).note (by simp)⟩
  | some rule =>
      obtain ⟨takes, hallowed, htakes⟩ := demands _ _ hrule path
      have hopening : Printing path [] "" (aligner.opening path .synthetic) progress := by
        refine ⟨minted, nowhere, rfl, rfl, [], ?_, rfl⟩
        rw [Progress.pendingTokens_eq_nil empty]
        exact .nil
      refine (drive_prints blind children (htakes progress.subtrees) hallowed
        ((hopening.note ?_).note ?_)).imp ?_
      · simp
      · simp
      rintro _ _ ⟨last, state, piece, rfl, rfl, hprints, hlast⟩
      obtain ⟨leaves, hexpands, htext⟩ := hlast.leaves
      have hextent : (spellingOf 0 last).extent = .nowhere := by
        rw [spellingOf, hlast.cursor_eq]
        rfl
      refine ⟨_, rfl, hlast.nowhere.note ?_, hextent, leaves, hexpands, ?_⟩
      · rintro _ ⟨⟩
        exact hextent
      · have hprint := hprints [] "" rfl
        rw [List.append_nil, String.append_empty] at hprint
        rw [print_eq aligner hrule, (htakes .empty).demands_eq, htext, String.empty_append]
        exact hprint

/-- Where no attempt is given up, the first one is the match. -/
theorem restart_of_attempt_ends {matchChild : MatchChild Stock Input ρ} {cursor : Input}
    {failed : Failure → Progress Stock Input ρ → Prop}
    {done : Spelling → Progress Stock Input ρ → Prop} (left : Nat)
    (h : (aligner.attempt matchChild path cursor progress).Ends failed
      fun result after => ∃ spelling, result = .spelled spelling ∧ done spelling after) :
    (aligner.restart matchChild path left cursor progress).Ends failed done := by
  cases left with
  | zero =>
      rw [restart]
      apply h.andThen
      rintro _ after ⟨spelling, rfl, hdone⟩
      exact hdone
  | succ left =>
      rw [restart]
      apply h.andThen
      rintro _ after ⟨spelling, rfl, hdone⟩
      exact hdone

/-- A match of a node without input prints the node. -/
theorem matchNode_prints (blind : aligner.resolver.Blind)
    (demands : aligner.grammar.Demands (·.isOptionalReference = false)) (levels : Nat)
    (path : Ancestry) {progress : Progress Stock Input ρ} (minted : progress.Minted)
    (empty : progress.pending = none) (nowhere : progress.Nowhere) :
    (aligner.matchNode levels path .synthetic progress).Ends Misprints
      (aligner.Prints path progress) := by
  induction levels generalizing path progress with
  | zero => exact ⟨by simp [Failure.NotParsing], nowhere.note (by simp)⟩
  | succ levels ih =>
      have hchildren : aligner.PrintsBelow levels path :=
        fun node route _ hminted => ih (.child path node route) hminted
      have hmatch := restart_of_attempt_ends aligner.limits.maxFallbacks
        (attempt_prints blind demands hchildren minted empty nowhere)
      have hgrows : (aligner.matchNode (levels + 1) path .synthetic progress).Keeps _ progress _ :=
        kept_grows_synthetic.matchNode (levels + 1) path progress rfl
      rw [matchNode] at hgrows ⊢
      revert hmatch hgrows
      cases aligner.restart (aligner.matchNode levels) path aligner.limits.maxFallbacks .synthetic
          progress with
      | failed failure after => exact fun hmatch _ => hmatch
      | done spelling after =>
          rintro ⟨hnowhere, hextent, hprinted⟩ ⟨hgrows, _⟩
          exact ⟨hgrows minted, hnowhere, hextent, hprinted⟩

/-- Without input a match prints the tree. Where references are never optional and the demands of a
node depend on no child that was found, no terminal is ever missing, everything that is spelled or
stored has the empty extent, and the text of an alignment is that of the printer. -/
theorem run_synthetic_prints (aligner : Aligner Stock ρ)
    (demands : aligner.grammar.Demands (·.isOptionalReference = false))
    (blind : aligner.resolver.Blind) (root : Node Token) (supply : Nat) :
    (∀ failure, (aligner.run root Input.synthetic supply).1 = .error failure →
      failure.NotParsing) ∧
    (aligner.run root Input.synthetic supply).2.Nowhere ∧
    ∀ alignment, (aligner.run root Input.synthetic supply).1 = .ok alignment →
      alignment.root.extent = .nowhere ∧
      (∀ reference spelling, alignment.child? reference = some spelling →
        spelling.extent = .nowhere) ∧
      aligner.print (.root root) = some alignment.text := by
  have hmatch := matchNode_prints blind demands (aligner.limits.maxDepth + 1) (.root root)
    (Progress.minted_start supply) rfl (.start supply)
  rcases run_ends hmatch with ⟨failure, after, hrun, hfailed⟩ | ⟨spelling, after, hrun, hprints⟩
  · rw [hrun]
    refine ⟨?_, hfailed.2, by simp⟩
    rintro _ ⟨⟩
    exact hfailed.1
  · rw [hrun]
    refine ⟨by simp, ⟨hprints.nowhere.stored, hprints.nowhere.finished⟩, ?_⟩
    rintro _ ⟨⟩
    obtain ⟨leaves, hexpands, hprint⟩ := hprints.printed
    refine ⟨hprints.extent, hprints.nowhere.stored, ?_⟩
    rw [hprint, Alignment.text, Alignment.leaves, Alignment.leavesOf, hexpands.leaves_eq]

/-- A call with two names. -/
def printedCall : Node Token :=
  ⟨"Call", [("args", .list [⟨"Name", [], none, none⟩, ⟨"Name", [], none, none⟩])], none, none⟩

/-- A name has white space behind it, which the call claims. -/
def printedCallAligner : Aligner Stock ByName where
  grammar := .demanding
    [("Call", [[.keyword "call", .blank " ", .reference "args", .punctuator ","],
        [.optional (.punctuator ";"), .quotation "q", .reference "args"]]),
      ("Name", [[.identifier "a", .separator]])]
  resolver := .byName

/-- The white space of the first name stands in front of the comma, and that of the second name at
the end. -/
theorem run_synthetic_prints_printedCall :
    ∃ alignment,
      (printedCallAligner.run printedCall Input.synthetic 0).1 = .ok alignment ∧
      alignment.text = "call a ,'q'a " ∧
      printedCallAligner.print (.root printedCall) = some "call a ,'q'a " ∧
      alignment.root.extent = .nowhere := by
  have hrun : ((printedCallAligner.run printedCall Input.synthetic 0).1.toOption.map
      Alignment.text) = some "call a ,'q'a " := by
    decide +kernel
  obtain ⟨alignment, hfound, htext⟩ := Option.map_eq_some_iff.mp hrun
  have hok := eq_ok_of_toOption hfound
  have hdemands : printedCallAligner.grammar.Demands (·.isOptionalReference = false) :=
    (Grammar.settled_demanding (by decide)).demands
  obtain ⟨hextent, _, hprint⟩ := (run_synthetic_prints printedCallAligner hdemands
    Resolver.blind_byName printedCall 0).2.2 alignment hok
  exact ⟨alignment, hok, htext, htext ▸ hprint, hextent⟩

end Aligner

end TreeAlign
