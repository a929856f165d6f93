import TreeAlign.Proofs.Matching.Thread
import TreeAlign.Proofs.Terminal.Consuming

/-!
# What a match on attached tokens leaves unread

A match on attached tokens may finish a node while tokens of its list are
left. Nothing checks that: what is left is read by nobody, and its text is
missing from the result. This is the only way in which text gets lost. The
invariant compares the text of the list of a node with what the node has
collected, what is still in front of the cursor, and what the nodes that are
already finished have left unread.
-/

namespace TreeAlign

namespace Subtrees

/-- The characters that tokens stand for. -/
def charsOf (subtrees : Subtrees) (tokens : List Token) : List Char :=
  Token.charsOf (subtrees.expand tokens)

theorem charsOf_append (subtrees : Subtrees) (left right : List Token) :
    subtrees.charsOf (left ++ right) = subtrees.charsOf left ++ subtrees.charsOf right := by
  rw [charsOf, expand_append, Token.charsOf_append]
  rfl

theorem charsOf_of_plain (subtrees : Subtrees) {tokens : List Token}
    (plain : ∀ token ∈ tokens, token.isReference = false) :
    subtrees.charsOf tokens = Token.charsOf tokens := by
  have hexpands : subtrees.Expands tokens tokens := .of_plain plain
  rw [charsOf, hexpands.expand_eq]

/-- A reference stands for what its spelling stands for. -/
theorem charsOf_reference {subtrees : Subtrees} {reference : Token} {spelling : Spelling}
    {leaves : List Token} (isReference : reference.isReference = true)
    (stored : subtrees.get? reference = some spelling)
    (inside : subtrees.Expands spelling.tokens leaves) (rest : List Token) :
    subtrees.charsOf (reference :: rest) =
      subtrees.charsOf spelling.tokens ++ subtrees.charsOf rest :=
  calc
    subtrees.charsOf (reference :: rest) = subtrees.charsOf ([reference] ++ rest) := rfl
    _ = subtrees.charsOf [reference] ++ subtrees.charsOf rest := subtrees.charsOf_append _ _
    _ = subtrees.charsOf spelling.tokens ++ subtrees.charsOf rest := by
      rw [charsOf, expand_reference isReference stored inside]
      rfl

end Subtrees

theorem Alignment.toList_text (alignment : Alignment) :
    alignment.text.toList = alignment.subtrees.charsOf alignment.root.tokens := by
  rw [text, Token.toList_textOf, leaves, leavesOf, Subtrees.leaves_eq_expand]
  rfl

variable {τ ρ : Type}

/-- The tokens that a node has not read when it is finished. -/
def Moment.unread (moment : Moment τ Input ρ) : List Token :=
  match moment.act, moment.frame.cursor with
  | .finish _, .tokens reading => reading.remaining
  | _, _ => []

/-- The number of characters that the nodes finished so far have left unread. -/
def Progress.unreadLength (subtrees : Subtrees) (progress : Progress τ Input ρ) : Nat :=
  total (fun moment => (subtrees.charsOf moment.unread).length) progress.journal

namespace Progress

variable {subtrees : Subtrees} {progress : Progress τ Input ρ}

theorem unreadLength_note (subtrees : Subtrees) (progress : Progress τ Input ρ)
    (frame : Frame Input ρ) {act : Act τ} (h : ∀ spelling, act ≠ .finish spelling) :
    (progress.note frame act).unreadLength subtrees = progress.unreadLength subtrees := by
  have hunread : (⟨frame, progress.subtrees, progress.pending, act⟩ : Moment τ Input ρ).unread =
      [] := by
    cases act with
    | finish spelling => exact absurd rfl (h spelling)
    | _ => rfl
  have hempty : subtrees.charsOf [] = [] := subtrees.charsOf_of_plain (by simp)
  simp [unreadLength, note, hunread, hempty]

theorem unreadLength_finish {frame : Frame Input ρ} {reading : TokenCursor} (spelling : Spelling)
    (h : frame.cursor = .tokens reading) :
    (progress.note frame (.finish spelling)).unreadLength subtrees =
      (subtrees.charsOf reading.remaining).length + progress.unreadLength subtrees := by
  simp only [unreadLength, note, total_cons, Moment.unread, h]

/-- Nothing is lost exactly when every node has read all of its tokens that stand for text. -/
theorem unreadLength_eq_zero_iff :
    progress.unreadLength subtrees = 0 ↔
      ∀ moment ∈ progress.journal, subtrees.charsOf moment.unread = [] := by
  rw [unreadLength]
  generalize progress.journal = journal
  induction journal with
  | nil => simp
  | cons moment rest ih =>
      rw [total_cons, Nat.add_eq_zero_iff, ih, List.forall_mem_cons, List.length_eq_zero_iff]

end Progress

/-- What a match of a node has made of the list attached to the node. -/
structure Consumed (subtrees : Subtrees) (list : List Token) (low high : Nat)
    (before : Progress τ Input ρ) (tokens : List Token) (after : Progress τ Input ρ) : Prop where
  adds : before.subtrees.Adds after.subtrees low
  below : after.subtrees.Below high
  leaves : ∃ leaves, after.subtrees.Expands (tokens ++ after.pendingTokens) leaves ∧
    (Token.charsOf leaves).Sublist (subtrees.charsOf list) ∧
    (Token.charsOf leaves).length + after.unreadLength subtrees =
      (subtrees.charsOf list).length + before.unreadLength subtrees

/-- A frame and a state in the middle of reading the list of a node: the cursor, the state of the
resolver in the tree without tokens, a bound on the identities so far, and the leaves so far. -/
structure Midway (subtrees : Subtrees) (tokensAt : Route → Option (List Token)) (path : Ancestry)
    (list : List Token) (low high : Nat) (before : Progress τ Input ByName)
    (frame : Frame Input ByName) (progress : Progress τ Input ByName) (reading : TokenCursor)
    (resolver : ByName) (bound : Nat) (leaves : List Token) : Prop where
  path_eq : frame.path = path.attach tokensAt
  cursor : frame.cursor = .tokens reading
  text : reading.text = none
  resolver_eq : frame.resolver = resolver.attach fun rest => tokensAt (path.address ++ rest)
  adds : before.subtrees.Adds progress.subtrees low
  low_le : low ≤ bound
  below : progress.subtrees.Below bound
  threaded : ∃ last, Threaded subtrees tokensAt path resolver bound reading.remaining last high
  expands : progress.subtrees.Expands (frame.tokens ++ progress.pendingTokens) leaves
  sublist : (Token.charsOf leaves ++ subtrees.charsOf reading.remaining).Sublist
    (subtrees.charsOf list)
  length : (Token.charsOf leaves).length + (subtrees.charsOf reading.remaining).length +
    progress.unreadLength subtrees = (subtrees.charsOf list).length + before.unreadLength subtrees

namespace Midway

variable {subtrees : Subtrees} {tokensAt : Route → Option (List Token)} {path : Ancestry}
  {list : List Token} {low high bound : Nat} {before progress : Progress Stock Input ByName}
  {frame : Frame Input ByName} {reading : TokenCursor} {resolver : ByName} {leaves : List Token}

/-- What a terminal finds in the tokens. -/
theorem exists_found
    (h : Midway subtrees tokensAt path list low high before frame progress reading resolver bound
      leaves) {terminal : Stock} {found : Found}
    (probe : Reads.probe frame.cursor terminal = some found) :
    ∃ tokens, found = .stored tokens ∧ terminal.matchTokens reading.remaining = some tokens := by
  rw [h.cursor] at probe
  exact Input.stored_of_probe probe

/-- Tokens that are no references are read from the list into the node or into the slot. -/
theorem consume
    (h : Midway subtrees tokensAt path list low high before frame progress reading resolver bound
      leaves) {tokens : List Token} (hconsumes : Stock.Consumes reading.remaining tokens)
    {frame' : Frame Input ByName} {progress' : Progress Stock Input ByName}
    (hpath : frame'.path = frame.path) (hresolver : frame'.resolver = frame.resolver)
    (hcursor : frame'.cursor = Cursor.advance tokens progress.subtrees frame.cursor)
    (hsubtrees : progress'.subtrees = progress.subtrees)
    (htokens : frame'.tokens ++ progress'.pendingTokens =
      frame.tokens ++ progress.pendingTokens ++ tokens)
    (hunread : progress'.unreadLength subtrees = progress.unreadLength subtrees) :
    Midway subtrees tokensAt path list low high before frame' progress'
      (reading.advance tokens progress.subtrees) resolver bound (leaves ++ tokens) := by
  obtain ⟨⟨rest, hrest⟩, hplain⟩ := hconsumes
  have hremaining := TokenCursor.remaining_advance progress.subtrees hrest
  obtain ⟨last, hthreaded⟩ := h.threaded
  have hsublist := h.sublist
  have hlength := h.length
  rw [hrest] at hthreaded hsublist hlength
  rw [Subtrees.charsOf_append, Subtrees.charsOf_of_plain _ hplain] at hsublist hlength
  refine ⟨hpath.trans h.path_eq, ?_, h.text, hresolver.trans h.resolver_eq, ?_, h.low_le, ?_,
    ⟨last, ?_⟩, ?_, ?_, ?_⟩
  · rw [hcursor, h.cursor]
    rfl
  · rw [hsubtrees]
    exact h.adds
  · rw [hsubtrees]
    exact h.below
  · rw [hremaining]
    exact hthreaded.behind hplain
  · rw [htokens, hsubtrees]
    exact h.expands.append (.of_plain hplain)
  · rw [hremaining, Token.charsOf_append, List.append_assoc]
    exact hsublist
  · rw [hremaining, Token.charsOf_append, List.length_append, hunread]
    rw [List.length_append] at hlength
    omega

variable {aligner : Aligner Stock ByName} {matchChild : MatchChild Stock Input ByName}
  {after : Progress Stock Input ByName} {frame' : Frame Input ByName} {reference : Token}
  {spelling : Spelling}

/-- A reference in the list leads to the child that carries the tokens stored for it. -/
theorem matched_child (byName : aligner.resolver = .byName) {route route' : Route}
    {node node' : Node Token} {stored : Spelling} {state : Progress Stock Input ByName}
    (h : Midway subtrees tokensAt path list low high before frame progress reading resolver bound
      leaves)
    (hresolve : (resolver.resolve reference).1 = some route)
    (hnode : path.node.get? route = some node)
    (hattached : tokensAt (Ancestry.child path node route).address = some stored.tokens)
    (resolved : Aligner.childAt? frame (aligner.resolver.resolve frame.resolver reference).1 =
      some (route', node'))
    (matched : matchChild (.child frame.path node' route') (Cursor.forChild node' frame.cursor)
      state = .done spelling after) :
    ∃ reading', reading'.text = none ∧ reading'.remaining = stored.tokens ∧
      matchChild ((Ancestry.child path node route).attach tokensAt) (.tokens reading') state =
        .done spelling after := by
  obtain ⟨hroute, hget⟩ := Aligner.childAt?_eq_some resolved
  rw [byName] at hroute
  change (frame.resolver.resolve reference).1 = some route' at hroute
  rw [h.resolver_eq, ByName.resolve_attach, hresolve, Option.some.injEq] at hroute
  subst hroute
  rw [h.path_eq, Ancestry.get?_node_attach tokensAt hnode, Option.some.injEq] at hget
  subst hget
  refine ⟨reading.forChild ((Ancestry.child path node route).attach tokensAt).node, h.text, ?_, ?_⟩
  · apply TokenCursor.remaining_forChild
    rw [Ancestry.tokens_node_attach, hattached]
    rfl
  · rw [h.path_eq, h.cursor] at matched
    exact matched

/-- A child that has been matched is stored, and its reference is behind the cursor. -/
theorem child {start : Progress Stock Input ByName} (byName : aligner.resolver = .byName)
    (h : Midway subtrees tokensAt path list low high before frame progress reading resolver bound
      leaves) (empty : progress.pending = none) {rest : List Token} {route : Route}
    {stored : Spelling} {inner : List Token} {middle : Nat} {last : ByName}
    (hrest : reading.remaining = reference :: rest) (isReference : reference.isReference = true)
    (fresh : bound ≤ reference.id) (hstored : subtrees.get? reference = some stored)
    (inside : subtrees.Expands stored.tokens inner) (hlt : reference.id < middle)
    (tail : Threaded subtrees tokensAt path (resolver.resolve reference).2 middle rest last high)
    (consumed : Consumed subtrees stored.tokens (reference.id + 1) middle start spelling.tokens
      after) (hsubtrees : start.subtrees = progress.subtrees)
    (hunread : start.unreadLength subtrees = progress.unreadLength subtrees) :
    ∃ leaves', Midway subtrees tokensAt path list low high before
      ((aligner.joined frame reference route).move [reference]
        (after.subtrees.insert reference spelling))
      ((after.note frame' (.record reference spelling)).record reference spelling)
      (reading.advance [reference] (after.subtrees.insert reference spelling))
      (resolver.resolve reference).2 middle leaves' := by
  have hadds : progress.subtrees.Adds after.subtrees (reference.id + 1) := by
    rw [← hsubtrees]
    exact consumed.adds
  have hnew : after.subtrees.get? reference = none := hadds.get?_eq_none (h.below.mono fresh)
  have hgrown := Subtrees.extends_insert hnew spelling
  have hslot := Progress.pendingTokens_eq_nil empty
  have hremaining : (reading.advance [reference]
      (after.subtrees.insert reference spelling)).remaining = rest :=
    TokenCursor.remaining_advance _ hrest
  have hchars : subtrees.charsOf reading.remaining =
      subtrees.charsOf stored.tokens ++ subtrees.charsOf rest := by
    rw [hrest]
    exact Subtrees.charsOf_reference isReference hstored inside rest
  obtain ⟨found, hfound, hsublist, hlength⟩ := consumed.leaves
  obtain ⟨own, waiting, hown, hwaiting, rfl⟩ := hfound.split
  have hexpands := h.expands
  have hall := h.sublist
  have hsum := h.length
  rw [hslot, List.append_nil] at hexpands
  rw [hchars] at hall hsum
  refine ⟨leaves ++ (own ++ waiting), h.path_eq, ?_, h.text, ?_, ?_, ?_, ?_, ⟨last, ?_⟩, ?_, ?_,
    ?_⟩
  · show Cursor.advance [reference] _ frame.cursor = _
    rw [h.cursor]
    rfl
  · show (aligner.resolver.resolve frame.resolver reference).2 = _
    rw [byName, h.resolver_eq]
    show ((resolver.attach _).resolve reference).2 = _
    rw [ByName.resolve_attach]
  · have hle : low ≤ reference.id := Nat.le_trans h.low_le fresh
    exact (h.adds.trans hadds (Nat.le_succ_of_le hle)).insert hnew hle spelling
  · exact Nat.le_trans h.low_le (Nat.le_trans fresh (Nat.le_of_lt hlt))
  · exact consumed.below.insert hlt spelling
  · rw [hremaining]
    exact tail
  · have hchild : (after.subtrees.insert reference spelling).Expands [reference] (own ++ []) :=
      .child isReference (Subtrees.get?_insert_self _ _ _) (hown.mono hgrown) .nil
    have hold := hexpands.mono (hgrown.trans hadds.kept)
    have hnow := (hold.append hchild).append (hwaiting.mono hgrown)
    rw [List.append_nil, List.append_assoc leaves] at hnow
    exact hnow
  · rw [hremaining, Token.charsOf_append, List.append_assoc]
    have hinner := (hsublist.append (.refl (subtrees.charsOf rest))).append_left
      (Token.charsOf leaves)
    exact hinner.trans hall
  · rw [hremaining, Token.charsOf_append, List.length_append]
    rw [List.length_append] at hsum
    have hkept : ((after.note frame' (.record reference spelling)).record reference
        spelling).unreadLength subtrees = after.unreadLength subtrees :=
      Progress.unreadLength_note subtrees after frame' (by simp)
    omega

end Midway

namespace Input

/-- Attached tokens without a text behind them. -/
def IsTextless : Input → Prop
  | .tokens reading => reading.text = none
  | _ => False

theorem IsTextless.fallback_eq_error {cursor : Input} (h : cursor.IsTextless) :
    ∃ cause, Cursor.fallback cursor = .error cause := by
  cases cursor with
  | tokens reading =>
      have htext : reading.text = none := h
      refine ⟨.noFallback .tokens "original text is not available", ?_⟩
      simp [Cursor.fallback, fallback, TokenCursor.fallback, htext, Except.map]
  | _ => exact absurd h id

theorem IsTextless.medium_eq {cursor : Input} (h : cursor.IsTextless) :
    Cursor.medium cursor = .tokens := by
  cases cursor with
  | tokens reading => rfl
  | _ => exact absurd h id

theorem IsTextless.advance {cursor : Input} (h : cursor.IsTextless) (tokens : List Token)
    (subtrees : Subtrees) : (Cursor.advance tokens subtrees cursor).IsTextless := by
  cases cursor with
  | tokens reading => exact h
  | _ => exact absurd h id

theorem IsTextless.forChild {cursor : Input} (h : cursor.IsTextless) (child : Node Token) :
    (Cursor.forChild child cursor).IsTextless := by
  cases cursor with
  | tokens reading => exact h
  | _ => exact absurd h id

end Input

namespace Aligner

/-- A way to match nodes on the tokens attached to them, without text to fall back to. -/
def Consumes (subtrees : Subtrees) (tokensAt : Route → Option (List Token))
    (matchChild : MatchChild Stock Input ByName) : Prop :=
  ∀ (path : Ancestry) {reading : TokenCursor} {progress after : Progress Stock Input ByName}
    {spelling : Spelling} {last : ByName} {low high : Nat}, reading.text = none →
    Threaded subtrees tokensAt path { node := path.node } low reading.remaining last high →
    progress.subtrees.Below low → progress.pending = none →
    matchChild (path.attach tokensAt) (.tokens reading) progress = .done spelling after →
    Consumed subtrees reading.remaining low high progress spelling.tokens after

variable {aligner : Aligner Stock ByName} {matchChild : MatchChild Stock Input ByName}
  {subtrees : Subtrees} {tokensAt : Route → Option (List Token)}

/-- Every step of an attempt goes on reading the list of the node. -/
theorem Consumes.carries (consumes : Consumes subtrees tokensAt matchChild)
    (byName : aligner.resolver = .byName) (path : Ancestry) (list : List Token) (low high : Nat)
    (before : Progress Stock Input ByName) :
    aligner.Carries matchChild fun frame progress => ∃ reading resolver bound leaves,
      Midway subtrees tokensAt path list low high before frame progress reading resolver bound
        leaves where
  note frame' act hact := by
    rintro ⟨reading, resolver, bound, leaves, h⟩
    refine ⟨reading, resolver, bound, leaves, h.path_eq, h.cursor, h.text, h.resolver_eq, h.adds,
      h.low_le, h.below, h.threaded, h.expands, h.sublist, ?_⟩
    rw [Progress.unreadLength_note _ _ _ (by rintro spelling rfl; exact hact)]
    exact h.length
  claim := by
    rintro frame progress ⟨reading, resolver, bound, leaves, h⟩
    refine ⟨reading, resolver, bound, leaves, h.path_eq, h.cursor, h.text, h.resolver_eq, h.adds,
      h.low_le, h.below, h.threaded, ?_, h.sublist, h.length⟩
    rw [Progress.pendingTokens_claimed, List.append_nil]
    exact h.expands
  plain := by
    rintro frame progress terminal found ⟨reading, resolver, bound, leaves, h⟩ empty probe
      notReference notSeparator
    obtain ⟨tokens, rfl, hmatch⟩ := h.exists_found probe
    have hconsumes := Stock.consumes_of_matchTokens notReference hmatch
    have hslot := Progress.pendingTokens_eq_nil empty
    refine ⟨_, resolver, bound, _, h.consume hconsumes rfl rfl rfl rfl ?_ rfl⟩
    rw [Progress.pendingTokens_draw, hslot, List.append_nil, List.append_nil]
    rfl
  separator := by
    rintro frame frame' progress terminal found ⟨reading, resolver, bound, leaves, h⟩ empty probe
      notReference isSeparator
    obtain ⟨tokens, rfl, hmatch⟩ := h.exists_found probe
    have hconsumes := Stock.consumes_of_matchTokens notReference hmatch
    have hslot := Progress.pendingTokens_eq_nil empty
    refine ⟨_, resolver, bound, _, h.consume hconsumes rfl rfl rfl rfl ?_ ?_⟩
    · rw [Progress.pendingTokens_defer, hslot, List.append_nil]
      rfl
    · exact Progress.unreadLength_note subtrees (progress.draw (.stored tokens)) frame' (by simp)
  child := by
    rintro frame frame' progress terminal found reference more route node spelling after
      ⟨reading, resolver, bound, leaves, h⟩ _ _ empty probe isReference tokens resolved matched
    obtain ⟨stored, rfl, hmatch⟩ := h.exists_found probe
    change stored = reference :: more at tokens
    subst tokens
    obtain ⟨rfl, hreference, rest, hrest⟩ := Stock.reference_of_matchTokens isReference hmatch
    obtain ⟨last, hthreaded⟩ := h.threaded
    rw [hrest] at hthreaded
    cases hthreaded with
    | leaf plain _ => exact absurd (plain.symm.trans hreference) (by simp)
    | child _ fresh hresolve hnode hstored hattached inside tail =>
        obtain ⟨reading', htext, hremaining, hmatched⟩ :=
          h.matched_child byName hresolve hnode hattached resolved matched
        rw [← hremaining] at inside
        have hbelow : (((progress.draw (.stored [reference])).note frame'
            (.descend reference route)).subtrees).Below (reference.id + 1) :=
          h.below.mono (Nat.le_succ_of_le fresh)
        have hconsumed := consumes _ htext inside hbelow empty hmatched
        rw [hremaining] at inside hconsumed
        obtain ⟨inner, hinner⟩ := inside.exists_leaves
        obtain ⟨leaves', hmidway⟩ := h.child byName empty hrest hreference fresh hstored hinner
          inside.low_le_high tail hconsumed rfl (Progress.unreadLength_note _ _ _ (by simp))
        exact ⟨_, _, _, leaves', hmidway⟩

/-- Without a text behind the tokens, no other form of the input is ever reached. -/
theorem kept_textless {ρ : Type} :
    Kept Input.IsTextless fun _ _ : Progress Stock Input ρ => True where
  refl _ := trivial
  trans _ _ := trivial
  note _ _ _ := trivial
  claim _ := trivial
  defer _ _ _ := trivial
  draw _ _ := trivial
  record _ _ _ _ := trivial
  advance h := h.advance _ _
  forChild h := h.forChild _
  fallback := by
    intro cursor next hcursor h
    obtain ⟨cause, hcause⟩ := hcursor.fallback_eq_error
    rw [hcause] at h
    exact absurd h (by simp)

/-- A grammar that takes only consumes the lists of the nodes, up to what the nodes leave unread. -/
theorem consumes_matchNode (byName : aligner.resolver = .byName)
    (takes : aligner.grammar.TakesOnly) (levels : Nat) :
    Consumes subtrees tokensAt (aligner.matchNode levels) := by
  induction levels with
  | zero =>
      intro path reading progress after spelling last low high _ _ _ _ h
      simp [matchNode, Aligner.fail] at h
  | succ levels ih =>
      intro path reading progress after spelling last low high htext hthreaded hbelow hempty h
      have hslot := Progress.pendingTokens_eq_nil hempty
      have hopening : Midway subtrees tokensAt path reading.remaining low high progress
          (aligner.opening (path.attach tokensAt) (.tokens reading)) progress reading
          { node := path.node } low [] := by
        refine ⟨rfl, rfl, htext, ?_, .refl _ _, Nat.le_refl _, hbelow, ⟨last, hthreaded⟩, ?_,
          .refl _, ?_⟩
        · rw [opening, byName]
          exact congrArg (fun node => ({ node } : ByName)) (Ancestry.node_attach tokensAt path)
        · rw [hslot]
          exact .nil
        · simp
      have hattempt : aligner.attempt (aligner.matchNode levels) (path.attach tokensAt)
          (.tokens reading) progress = .done (.spelled spelling) after :=
        kept_textless.attempt_of_matchNode (fun _ => Input.IsTextless.fallback_eq_error) htext h
      obtain ⟨frame, state, ⟨reading', resolver, bound, leaves, hmidway⟩, rfl, rfl⟩ :=
        (ih.carries byName path reading.remaining low high progress).attempt takes
          ⟨_, _, _, _, hopening⟩ hattempt
      obtain ⟨last', hrest⟩ := hmidway.threaded
      refine ⟨hmidway.adds, hmidway.below.mono hrest.low_le_high, leaves, hmidway.expands, ?_, ?_⟩
      · exact (List.sublist_append_left _ _).trans hmidway.sublist
      · have hlength := hmidway.length
        rw [Progress.unreadLength_finish _ hmidway.cursor]
        omega

end Aligner

end TreeAlign
