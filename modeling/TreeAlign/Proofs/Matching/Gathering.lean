import TreeAlign.Proofs.Matching.Accounting
import TreeAlign.Proofs.Matching.Unread

/-!
# A match on attached tokens keeps accounts

Every node that is matched on its own tokens accounts for the tokens that it
has read, and its extent is as long as the leaves that were counted. A node
for which a required token is missing is begun again on the text, if there
is one, and its parent accounts for it as a whole.

When there is no text to fall back to, all nodes are read from their tokens.
-/

namespace TreeAlign

/-- What a match of a node on its own tokens has left behind. -/
structure Gathered {ρ : Type} (before : Progress Stock Input ρ) (path : Ancestry) (start : Nat)
    (spelling : Spelling) (after : Progress Stock Input ρ) : Prop where
  node : spelling.node = path.node
  medium : spelling.extent.medium = .tokens
  start_eq : spelling.extent.start = start
  later : before.Later after
  plain : Token.Plain after.pendingTokens
  account : after.RecordsOnce → ∃ leaves counted strays,
    after.Account ((path.node.tokens.getD []).take (Progress.readAt after.journal)) spelling.tokens
      after.pendingTokens leaves counted strays ∧
    spelling.extent.stop = start + counted.length

/-- A frame and a state in the middle of reading the tokens of a node. -/
structure Gathering {ρ : Type} (before : Progress Stock Input ρ) (path : Ancestry) (start : Nat)
    (frame : Frame Input ρ) (progress : Progress Stock Input ρ) (reading : TokenCursor) : Prop where
  path_eq : frame.path = path
  cursor : frame.cursor = .tokens reading
  list : reading.tokens = path.node.tokens.getD []
  bound : reading.index ≤ reading.tokens.length
  later : before.Later progress
  plain : Token.Plain progress.pendingTokens
  account : progress.RecordsOnce → ∃ leaves counted strays,
    progress.Account (reading.tokens.take reading.index) frame.tokens progress.pendingTokens leaves
      counted strays ∧ reading.offset = start + counted.length

namespace Gathering

variable {ρ : Type} {before progress after : Progress Stock Input ρ} {path : Ancestry}
  {start : Nat} {frame frame' : Frame Input ρ} {reading : TokenCursor}

/-- A later state in which nothing was read and the slot is the same. -/
theorem wait (h : Gathering before path start frame progress reading)
    (later : progress.Later after) (slot : after.pendingTokens = progress.pendingTokens) :
    Gathering before path start frame after reading where
  path_eq := h.path_eq
  cursor := h.cursor
  list := h.list
  bound := h.bound
  later := h.later.trans later
  plain := slot ▸ h.plain
  account once := by
    obtain ⟨leaves, counted, strays, haccount, hoffset⟩ := h.account (once.earlier later.noted)
    rw [slot]
    exact ⟨leaves, counted, strays, haccount.mono later h.later.booked once, hoffset⟩

/-- The cursor has passed tokens that are accounted for. -/
theorem pass (h : Gathering before path start frame progress reading)
    (empty : progress.pending = none) {more own rest : List Token} {subtrees : Subtrees}
    (hrest : reading.remaining = more ++ rest) (hpath : frame'.path = frame.path)
    (hcursor : frame'.cursor = Cursor.advance more subtrees frame.cursor)
    (htokens : frame'.tokens = frame.tokens ++ own) (later : progress.Later after)
    (plain : Token.Plain after.pendingTokens)
    (part : after.RecordsOnce → ∃ inner counted strays,
      after.Account more own after.pendingTokens inner counted strays ∧
        total (TokenCursor.leavesOf subtrees) more = counted.length) :
    Gathering before path start frame' after (reading.advance more subtrees) where
  path_eq := hpath.trans h.path_eq
  cursor := by
    rw [hcursor, h.cursor]
    rfl
  list := h.list
  bound := Nat.min_le_right _ _
  later := h.later.trans later
  plain := plain
  account once := by
    obtain ⟨leaves, counted, strays, haccount, hoffset⟩ := h.account (once.earlier later.noted)
    obtain ⟨inner, more', strays', hpart, htotal⟩ := part once
    rw [Progress.pendingTokens_eq_nil empty] at haccount
    have hjoined := (haccount.mono later h.later.booked once).join hpart
    rw [← TokenCursor.take_advance hrest, ← htokens] at hjoined
    refine ⟨leaves ++ inner, counted ++ more', strays ++ strays', ?_, ?_⟩
    · rw [TokenCursor.index_advance subtrees h.bound hrest]
      exact hjoined
    · show reading.offset + total (TokenCursor.leavesOf subtrees) more = _
      rw [List.length_append]
      omega

end Gathering

namespace Aligner

variable {ρ : Type} {aligner : Aligner Stock ρ} {matchChild : MatchChild Stock Input ρ}

/-- A way to match nodes on their own tokens, or on the text after all. -/
def Gathers (matchChild : MatchChild Stock Input ρ) : Prop :=
  ∀ (path : Ancestry) (reading : TokenCursor) {progress after : Progress Stock Input ρ}
    {spelling : Spelling}, reading.tokens = path.node.tokens.getD [] → reading.index = 0 →
    progress.Booked → progress.pending = none →
    matchChild path (.tokens reading) progress = .done spelling after →
    Gathered progress path reading.offset spelling after ∨ Fallen progress spelling after

/-- Every step of an attempt on the tokens of a node keeps accounts. -/
theorem Gathers.carries (gathers : Gathers matchChild) (before : Progress Stock Input ρ)
    (path : Ancestry) (start : Nat) :
    aligner.Carries matchChild fun frame progress =>
      ∃ reading, Gathering before path start frame progress reading where
  note := by
    rintro frame progress frame' act _ ⟨reading, h⟩
    exact ⟨reading, h.wait (h.later.booked.later_note frame' act) rfl⟩
  claim := by
    rintro frame progress ⟨reading, h⟩
    have hclaim := h.later.booked.later (.claim progress)
    refine ⟨reading, h.path_eq, h.cursor, h.list, h.bound, h.later.trans hclaim,
      Token.plain_nil, ?_⟩
    intro once
    obtain ⟨leaves, counted, strays, haccount, hoffset⟩ := h.account once
    exact ⟨leaves, counted, strays,
      (haccount.mono hclaim h.later.booked once).claimed h.plain, hoffset⟩
  plain := by
    rintro frame progress terminal found ⟨reading, h⟩ empty probe notReference _
    rw [h.cursor] at probe
    obtain ⟨tokens, rfl, hmatch⟩ := Input.stored_of_probe probe
    obtain ⟨⟨rest, hrest⟩, hplain⟩ := Stock.consumes_of_matchTokens notReference hmatch
    have hdraw := h.later.booked.later (.draw progress (.stored tokens))
    refine ⟨_, h.pass empty hrest rfl rfl rfl hdraw h.plain ?_⟩
    intro _
    have hwaiting : (progress.draw (.stored tokens)).Account tokens [] tokens tokens tokens [] :=
      .waiting hplain
    rw [Progress.pendingTokens_draw, Progress.pendingTokens_eq_nil empty]
    exact ⟨tokens, tokens, [], hwaiting.claimed hplain, TokenCursor.total_leavesOf _ hplain⟩
  separator := by
    rintro frame frame' progress terminal found ⟨reading, h⟩ empty probe notReference _
    rw [h.cursor] at probe
    obtain ⟨tokens, rfl, hmatch⟩ := Input.stored_of_probe probe
    obtain ⟨⟨rest, hrest⟩, hplain⟩ := Stock.consumes_of_matchTokens notReference hmatch
    have hdraw := h.later.booked.later (.draw progress (.stored tokens))
    have hdefer := hdraw.trans (hdraw.booked.later_defer frame' tokens terminal)
    refine ⟨_, h.pass empty hrest rfl rfl (List.append_nil _).symm hdefer hplain ?_⟩
    intro _
    exact ⟨tokens, tokens, [], .waiting hplain, TokenCursor.total_leavesOf _ hplain⟩
  child := by
    rintro frame frame' progress terminal found reference more route node spelling after
      ⟨reading, h⟩ _ _ empty probe isReference tokens resolved matched
    rw [h.cursor] at probe matched
    obtain ⟨stored, rfl, hmatch⟩ := Input.stored_of_probe probe
    change stored = reference :: more at tokens
    subst tokens
    obtain ⟨rfl, hreference, rest, hrest⟩ := Stock.reference_of_matchTokens isReference hmatch
    have hdraw := h.later.booked.later (.draw progress (.stored [reference]))
    have henter := hdraw.trans (hdraw.booked.later_note frame' (.descend reference route))
    have hstored : (after.subtrees.insert reference spelling).get? reference = some spelling :=
      Subtrees.get?_insert_self _ _ _
    have hreceipt := after.receipt_record frame' reference spelling
    rcases gathers (.child frame.path node route) (reading.forChild node) rfl rfl
      henter.booked empty matched with hgathered | hfallen
    · have hafter := henter.trans hgathered.later
      have hrecord := hafter.booked.later_record frame' reference spelling
      refine ⟨_, h.pass empty hrest rfl rfl rfl (hafter.trans hrecord) hgathered.plain ?_⟩
      intro once
      obtain ⟨inner, counted, strays, haccount, hstop⟩ :=
        hgathered.account (once.earlier hrecord.noted)
      refine ⟨inner, counted, strays, .child hreference hstored hgathered.medium ?_
        (haccount.mono hrecord hafter.booked once), ?_⟩
      · rw [Receipt.source_of_tokens hgathered.medium, hreceipt, hgathered.node]
      · rw [total_cons, total_nil, TokenCursor.leavesOf_child hreference hstored hgathered.medium,
          hstop, hgathered.start_eq]
        omega
    · have hafter := henter.trans hfallen.later
      have hrecord := hafter.booked.later_record frame' reference spelling
      refine ⟨_, h.pass empty hrest rfl rfl rfl (hafter.trans hrecord) hfallen.plain ?_⟩
      intro once
      obtain ⟨inner, hinner⟩ := hfallen.expands (once.earlier hrecord.noted)
      have hinside := hinner.mono hrecord hafter.booked once
      refine ⟨inner ++ after.pendingTokens, inner, after.pendingTokens,
        .fallen hreference hstored hfallen.medium (congrArg Receipt.slot hreceipt) hfallen.plain
          hinside, ?_⟩
      rw [total_cons, total_nil,
        TokenCursor.leavesOf_fallen hreference hstored hfallen.medium hinside.expands]
      omega

/-- Every level of a match with a grammar that takes only keeps accounts. -/
theorem gathers_matchNode (takes : aligner.grammar.TakesOnly) (levels : Nat) :
    Gathers (aligner.matchNode levels) := by
  induction levels with
  | zero =>
      intro path reading progress after spelling _ _ _ _ h
      simp [matchNode, fail] at h
  | succ levels ih =>
      intro path reading progress after spelling hlist hindex booked empty h
      rcases restart_eq_done h with
        hspelled | ⟨_, reached, state, next, fewer, _, hgiven, hfall, hrest⟩
      · have hslot := Progress.pendingTokens_eq_nil empty
        have hplain : Token.Plain progress.pendingTokens := by
          rw [hslot]
          exact Token.plain_nil
        have hopening : Gathering progress path reading.offset
            (aligner.opening path (.tokens reading)) progress reading := by
          refine ⟨rfl, rfl, hlist, by omega, .refl booked, hplain, fun _ => ⟨[], [], [], ?_, rfl⟩⟩
          rw [hindex, List.take_zero, hslot]
          exact .start progress
        obtain ⟨last, state, ⟨reading', hlast⟩, rfl, rfl⟩ :=
          (ih.carries progress path reading.offset).attempt takes ⟨reading, hopening⟩ hspelled
        have hfinish := hlast.wait (hlast.later.booked.later_note last
          (.finish (spellingOf reading.offset last))) rfl
        have hread : Progress.readAt (state.note last
            (.finish (spellingOf reading.offset last))).journal = reading'.index := by
          simp only [Progress.readAt, Progress.note, Moment.read, hlast.cursor]
        refine Or.inl ⟨congrArg Ancestry.node hlast.path_eq, ?_, rfl, hfinish.later, hfinish.plain,
          ?_⟩
        · simp only [spellingOf, hlast.cursor]
          rfl
        · intro once
          obtain ⟨leaves, counted, strays, haccount, hoffset⟩ := hfinish.account once
          rw [hlast.list, ← hread] at haccount
          refine ⟨leaves, counted, strays, haccount, ?_⟩
          simp only [spellingOf, hlast.cursor]
          exact hoffset
      · have hmoves : (aligner.attempt (aligner.matchNode levels) path (.tokens reading)
            progress).LeadsFrom progress EmptyIfAbandoned :=
          (movesOnly_matchNode levels).attempt path _ empty
        rw [hgiven] at hmoves
        have hstate : progress.Later state := hmoves.1.later booked
        have hfallen := fallen_of_restart takes (Input.isText_of_fallback hfall) hstate.booked
          (hmoves.2 _ _ rfl) hrest
        exact Or.inr ⟨hfallen.medium, hstate.trans hfallen.later, hfallen.plain, hfallen.expands⟩

/-- A whole match that reads the root from its tokens accounts for them. What is left in the slot at
the end belongs to the root. -/
theorem account_of_run (takes : aligner.grammar.TakesOnly) {root : Node Token}
    {reading : TokenCursor} (list : reading.tokens = root.tokens.getD [])
    (start : reading.index = 0) {supply : Nat} {alignment : Alignment}
    {progress : Progress Stock Input ρ}
    (h : aligner.run root (Input.tokens reading) supply = (.ok alignment, progress))
    (once : progress.RecordsOnce) (medium : alignment.root.extent.medium = .tokens) :
    ∃ counted strays,
      progress.Account ((root.tokens.getD []).take (Progress.readAt progress.journal))
        alignment.root.tokens [] alignment.leaves counted strays ∧
      alignment.root.node = root ∧ alignment.subtrees = progress.subtrees ∧
      alignment.root.extent.stop = alignment.root.extent.start + counted.length := by
  obtain ⟨spelling, after, hmatch, rfl, hrun⟩ := run_eq_ok (congrArg Prod.fst h)
  obtain rfl : after.claimed = progress := by rw [← hrun, h]
  rcases gathers_matchNode takes _ (.root root) reading list start (Progress.booked_start supply) rfl
    hmatch with hgathered | hfallen
  · have hclaim := hgathered.later.booked.later (.claim after)
    obtain ⟨leaves, counted, strays, haccount, hstop⟩ := hgathered.account once
    have hroot := (haccount.mono hclaim hgathered.later.booked once).claimed hgathered.plain
    have hexpands := hroot.expands
    rw [List.append_nil] at hexpands
    have hleaves : after.subtrees.leaves
        { spelling with tokens := spelling.tokens ++ after.pendingTokens } = leaves :=
      hexpands.leaves_eq
    refine ⟨counted, strays, ?_, hgathered.node, rfl, ?_⟩
    · rw [← hleaves] at hroot
      exact hroot
    · show spelling.extent.stop = spelling.extent.start + counted.length
      rw [hstop, hgathered.start_eq]
  · exact absurd (hfallen.medium.symm.trans medium) (by simp)

end Aligner

namespace Subtrees

/-- All children in the store were read from tokens. -/
def TokensOnly (subtrees : Subtrees) : Prop :=
  ∀ token spelling, subtrees.get? token = some spelling → spelling.extent.medium = .tokens

theorem tokensOnly_empty : empty.TokensOnly := by
  intro token spelling h
  simp [get?, empty] at h

theorem TokensOnly.insert {subtrees : Subtrees} (h : subtrees.TokensOnly) (reference : Token)
    {spelling : Spelling} (medium : spelling.extent.medium = .tokens) :
    (subtrees.insert reference spelling).TokensOnly := by
  intro token found hget
  rw [get?_insert] at hget
  split at hget
  · cases hget
    exact medium
  · exact h token found hget

end Subtrees

namespace Aligner

variable {ρ : Type} {aligner : Aligner Stock ρ} {matchChild : MatchChild Stock Input ρ}

/-- A way to match nodes that reads all of them from tokens when there is no text. -/
def ReadsTokens (matchChild : MatchChild Stock Input ρ) : Prop :=
  ∀ (path : Ancestry) {cursor : Input} {progress after : Progress Stock Input ρ}
    {spelling : Spelling}, cursor.IsTextless → progress.subtrees.TokensOnly →
    matchChild path cursor progress = .done spelling after →
    spelling.extent.medium = .tokens ∧ after.subtrees.TokensOnly

theorem ReadsTokens.carries (reads : ReadsTokens matchChild) :
    aligner.Carries matchChild fun frame progress =>
      frame.cursor.IsTextless ∧ progress.subtrees.TokensOnly where
  note _ _ _ h := h
  claim h := h
  plain h _ _ _ _ := ⟨h.1.advance _ _, h.2⟩
  separator h _ _ _ _ := ⟨h.1.advance _ _, h.2⟩
  child {frame frame' progress terminal found reference more route node spelling after}
      h _ _ _ _ _ _ _ matched := by
    have honly : ((progress.draw found).note frame'
        (.descend reference route)).subtrees.TokensOnly := h.2
    obtain ⟨hmedium, hafter⟩ := reads _ (h.1.forChild node) honly matched
    exact ⟨h.1.advance _ _, hafter.insert reference hmedium⟩

theorem readsTokens_matchNode (takes : aligner.grammar.TakesOnly) (levels : Nat) :
    ReadsTokens (aligner.matchNode levels) := by
  induction levels with
  | zero =>
      intro path cursor progress after spelling _ _ h
      simp [matchNode, fail] at h
  | succ levels ih =>
      intro path cursor progress after spelling textless only h
      have hattempt := kept_textless.attempt_of_matchNode
        (fun _ => Input.IsTextless.fallback_eq_error) textless h
      obtain ⟨last, state, ⟨htextless, honly⟩, rfl, rfl⟩ :=
        ih.carries.attempt takes ⟨textless, only⟩ hattempt
      exact ⟨htextless.medium_eq, honly⟩

end Aligner

end TreeAlign
