import TreeAlign.Proofs.Matching.Ranking
import TreeAlign.Proofs.Spelling.LeafCount

/-!
# Children that were not read from tokens

Everywhere but in attached tokens a reference is new when it is followed, and
the references of its child are drawn after it. So identities go up along all
chains of references that begin in a child which was not read from tokens,
and they never reach the supply. Such a chain ends, and the leaves of the
child can be counted, at whatever moment of a match it is passed. This needs
a grammar that emits no references but those that it has found itself.

A reference that is attached to a node may be stored more than once. What is
stored for it then is read from tokens, or the references in it are new. In
either case nothing that is new leads back to it.
-/

namespace TreeAlign

variable {τ σ ρ : Type}

/-- A moment ends if its cursor can be moved past anything. -/
theorem Moment.ends_of_moves [Cursor σ] {moment : Moment τ σ ρ}
    (moves : ∀ tokens, Cursor.advanceEnds tokens moment.subtrees moment.frame.cursor = true) :
    moment.ends = true := by
  rw [ends]
  split
  · exact moves _
  · rfl

namespace Progress

theorem ends_iff [Cursor σ] {progress : Progress τ σ ρ} :
    progress.ends = true ↔ ∀ moment ∈ progress.journal, moment.ends = true := by
  simp [ends, moments]

theorem ends_note [Cursor σ] {progress : Progress τ σ ρ} (h : progress.ends = true)
    {frame : Frame σ ρ} {act : Act τ}
    (new : Moment.ends ⟨frame, progress.subtrees, progress.pending, act⟩ = true) :
    (progress.note frame act).ends = true :=
  ends_iff.mpr (List.forall_mem_cons.mpr ⟨new, ends_iff.mp h⟩)

end Progress

/-- All references among the tokens have identities from the first number on and below the second. -/
def Token.Recent (low high : Nat) (tokens : List Token) : Prop :=
  ∀ token ∈ tokens, token.isReference = true → low ≤ token.id ∧ token.id < high

namespace Token.Recent

variable {low low' high high' : Nat} {tokens others : List Token}

theorem of_plain (plain : Token.Plain tokens) : Token.Recent low high tokens := by
  intro token hmem hreference
  exact absurd hreference (by simp [plain token hmem])

theorem nil : Token.Recent low high [] :=
  of_plain Token.plain_nil

theorem mono (h : Token.Recent low high tokens) (hlow : low' ≤ low) (hhigh : high ≤ high') :
    Token.Recent low' high' tokens := by
  intro token hmem hreference
  obtain ⟨hfrom, hto⟩ := h token hmem hreference
  exact ⟨Nat.le_trans hlow hfrom, Nat.lt_of_lt_of_le hto hhigh⟩

theorem append (h : Token.Recent low high tokens) (h' : Token.Recent low high others) :
    Token.Recent low high (tokens ++ others) := by
  intro token hmem
  rcases List.mem_append.mp hmem with hmem | hmem
  · exact h token hmem
  · exact h' token hmem

end Token.Recent

namespace Subtrees

/-- What is stored for a new identity, or was not read from tokens, has new references only, with
identities above the one it is stored for. New are the identities from the first number on, and
those from the second on have not been drawn. -/
def Layered (subtrees : Subtrees) (low high : Nat) : Prop :=
  ∀ token spelling, subtrees.get? token = some spelling →
    low ≤ token.id ∨ spelling.extent.medium ≠ .tokens →
      Token.Recent (max low (token.id + 1)) high spelling.tokens

namespace Layered

variable {subtrees : Subtrees} {low high high' : Nat}

theorem empty (low high : Nat) : (Subtrees.empty).Layered low high := by
  intro token spelling hget
  simp [get?, Subtrees.empty] at hget

theorem mono (h : subtrees.Layered low high) (le : high ≤ high') : subtrees.Layered low high' :=
  fun token spelling hget hnew => (h token spelling hget hnew).mono (Nat.le_refl _) le

theorem insert (h : subtrees.Layered low high) {reference : Token} {spelling : Spelling}
    (new : low ≤ reference.id ∨ spelling.extent.medium ≠ .tokens →
      Token.Recent (max low (reference.id + 1)) high spelling.tokens) :
    (subtrees.insert reference spelling).Layered low high := by
  intro token found hget
  rw [get?_insert] at hget
  split at hget
  · next hid =>
      cases hget
      rw [← hid]
      exact new
  · exact h token found hget

/-- Following new references ends before the identities reach the supply. -/
theorem endsWithin (h : subtrees.Layered low high) {levels least : Nat} {tokens : List Token}
    (new : low ≤ least) (recent : Token.Recent least high tokens) (enough : high ≤ least + levels) :
    subtrees.EndsWithin levels tokens := by
  induction levels generalizing least tokens with
  | zero =>
      intro token hmem
      cases hchild : subtrees.child? token with
      | none => rfl
      | some spelling =>
          obtain ⟨isReference, _⟩ := child?_eq_some_iff.mp hchild
          have hbounds := recent token hmem isReference
          omega
  | succ levels ih =>
      intro token hmem spelling hchild
      obtain ⟨isReference, stored⟩ := child?_eq_some_iff.mp hchild
      have hbounds := recent token hmem isReference
      have hinside := h token spelling stored (Or.inl (Nat.le_trans new hbounds.1))
      exact ih (Nat.le_max_left _ _) hinside (by omega)

/-- All children that were not read from tokens have leaves that can be counted. -/
theorem countable (h : subtrees.Layered low high) (token : Token) :
    TokenCursor.Countable subtrees token := by
  apply TokenCursor.countable_of_ends
  intro child hchild hmedium
  obtain ⟨_, stored⟩ := child?_eq_some_iff.mp hchild
  have hrecent := h token child stored (Or.inr hmedium)
  exact ⟨high, h.endsWithin (Nat.le_max_left _ _) hrecent (Nat.le_add_left high _)⟩

end Layered

end Subtrees

namespace Input

variable {cursor next : Input}

theorem medium_advance (tokens : List Token) (subtrees : Subtrees) :
    Cursor.medium (Cursor.advance tokens subtrees cursor) = Cursor.medium cursor := by
  cases cursor <;> rfl

theorem medium_forChild (child : Node Token) :
    Cursor.medium (Cursor.forChild child cursor) = Cursor.medium cursor := by
  cases cursor <;> rfl

theorem medium_ne_tokens_of_fallback (h : Cursor.fallback cursor = .ok next) :
    Cursor.medium next ≠ .tokens := by
  obtain ⟨place, rfl⟩ := isText_of_fallback h
  exact Medium.noConfusion

/-- In a store with layers every cursor can be moved past anything. -/
theorem advanceEnds_of_layered {subtrees : Subtrees} {low high : Nat}
    (h : subtrees.Layered low high) (tokens : List Token) (cursor : Input) :
    Cursor.advanceEnds tokens subtrees cursor = true := by
  cases cursor with
  | text place => rfl
  | tokens reading => exact TokenCursor.advanceEnds_iff.mpr fun token _ => h.countable token
  | synthetic => rfl

end Input

/-- The store has layers, the slot has no references in it, and all moments so far have come to an
end. -/
structure Progress.Layered (low : Nat) (progress : Progress τ Input ρ) : Prop where
  grown : low ≤ progress.supply
  store : progress.subtrees.Layered low progress.supply
  slot : Token.Plain progress.pendingTokens
  ends : progress.ends = true

namespace Progress.Layered

variable {low : Nat} {progress : Progress τ Input ρ}

theorem start (supply : Nat) : ({ supply } : Progress τ Input ρ).Layered supply :=
  ⟨Nat.le_refl _, .empty _ _, Token.plain_nil, rfl⟩

theorem note (h : progress.Layered low) (frame : Frame Input ρ) (act : Act τ) :
    (progress.note frame act).Layered low := by
  refine ⟨h.grown, h.store, h.slot, ends_note h.ends (Moment.ends_of_moves ?_)⟩
  intro tokens
  exact Input.advanceEnds_of_layered h.store tokens frame.cursor

theorem claimed (h : progress.Layered low) : progress.claimed.Layered low :=
  { h with slot := Token.plain_nil }

theorem defer (h : progress.Layered low) {tokens : List Token} (plain : Token.Plain tokens)
    (terminal : τ) : (progress.defer tokens terminal).Layered low :=
  { h with slot := plain }

theorem draw (h : progress.Layered low) (found : Found) : (progress.draw found).Layered low := by
  have hle := progress.supply_le_draw found
  exact { h with grown := Nat.le_trans h.grown hle, store := h.store.mono hle }

theorem record (h : progress.Layered low) {reference : Token} {spelling : Spelling}
    (new : low ≤ reference.id ∨ spelling.extent.medium ≠ .tokens →
      Token.Recent (max low (reference.id + 1)) progress.supply spelling.tokens) :
    (progress.record reference spelling).Layered low :=
  { h with store := h.store.insert new }

end Progress.Layered

/-- What a match of a node leaves behind. Away from attached tokens the spelling has references only
that were drawn on the way, and the match does not come back to attached tokens. -/
structure Layered (low : Nat) (cursor : Input) (before : Progress τ Input ρ) (spelling : Spelling)
    (after : Progress τ Input ρ) : Prop where
  layered : after.Layered low
  drawn : before.supply ≤ after.supply
  recent : spelling.extent.medium ≠ .tokens →
    Token.Recent before.supply after.supply spelling.tokens
  away : Cursor.medium cursor ≠ .tokens → spelling.extent.medium ≠ .tokens

/-- A cursor and a state in the middle of matching a node, and the cursor and the state in which that
began. Away from attached tokens all references that are held were drawn on the way. -/
structure Layering (root : Node Token) (source : Input) (low : Nat) (node : Node Token)
    (origin : Input) (before : Progress τ Input ρ) (held : List Token) (cursor : Input)
    (progress : Progress τ Input ρ) : Prop where
  layered : progress.Layered low
  drawn : before.supply ≤ progress.supply
  follows : cursor.Follows root source node
  recent : Cursor.medium cursor ≠ .tokens → Token.Recent before.supply progress.supply held
  away : Cursor.medium origin ≠ .tokens → Cursor.medium cursor ≠ .tokens

namespace Layering

variable {root node : Node Token} {source origin cursor : Input} {low : Nat}
  {before progress after : Progress τ Input ρ} {held tokens : List Token}

theorem later (h : Layering root source low node origin before held cursor progress)
    (layered : after.Layered low) (grown : progress.supply ≤ after.supply) :
    Layering root source low node origin before held cursor after :=
  { h with
    layered := layered
    drawn := Nat.le_trans h.drawn grown
    recent := fun hmedium => (h.recent hmedium).mono (Nat.le_refl _) grown }

theorem collect (h : Layering root source low node origin before held cursor progress)
    (recent : Cursor.medium cursor ≠ .tokens → Token.Recent before.supply progress.supply tokens) :
    Layering root source low node origin before (held ++ tokens) cursor progress :=
  { h with recent := fun hmedium => (h.recent hmedium).append (recent hmedium) }

theorem advance (h : Layering root source low node origin before held cursor progress)
    (tokens : List Token) (subtrees : Subtrees) :
    Layering root source low node origin before held (Cursor.advance tokens subtrees cursor)
      progress := by
  refine ⟨h.layered, h.drawn, h.follows.advance _ _, ?_, ?_⟩
  · rw [Input.medium_advance]
    exact h.recent
  · rw [Input.medium_advance]
    exact h.away

end Layering

namespace Aligner

variable {aligner : Aligner Stock ρ} {matchChild : MatchChild Stock Input ρ} {root : Node Token}
  {source : Input} {low : Nat}

/-- All references attached to nodes of the tree have identities below the bound. -/
def AttachedBelow (root : Node Token) (source : Input) (low : Nat) : Prop :=
  ∀ node token, AttachedTo root source node token → token.isReference = true → token.id < low

/-- A way to match the nodes of a tree that keeps the layers of the store. -/
def LayersBelow (root : Node Token) (source : Input) (low : Nat)
    (matchChild : MatchChild Stock Input ρ) : Prop :=
  ∀ path cursor (progress : Progress Stock Input ρ), (Ancestry.root root).LeadsTo path →
    cursor.Follows root source path.node → progress.Layered low →
    (matchChild path cursor progress).Ends (fun _ after => after.ends = true)
      (Layered low cursor progress)

/-- A reference that is found is attached and old, or it is the next that is drawn. -/
theorem old_or_next_of_probe (attached : AttachedBelow root source low) {cursor : Input}
    {node : Node Token} (follows : cursor.Follows root source node) {terminal : Stock}
    {found : Found} {reference : Token} {progress : Progress Stock Input ρ}
    (probe : Reads.probe cursor terminal = some found)
    (finds : Input.FindsReference progress.supply cursor found reference) :
    (Cursor.medium cursor = .tokens ∧ reference.id < low) ∨
      (Cursor.medium cursor ≠ .tokens ∧ reference.id = progress.supply ∧
        (progress.draw found).supply = progress.supply + 1) := by
  cases finds with
  | new cursor name =>
      refine Or.inr ⟨?_, rfl, rfl⟩
      cases cursor with
      | text place => exact Medium.noConfusion
      | tokens reading =>
          obtain ⟨_, hstored, _⟩ := Input.stored_of_probe probe
          cases hstored
      | synthetic => exact Medium.noConfusion
  | @attached reading reference rest isReference next =>
      have hhere := follows reading rfl reference (Input.mem_tokens_of_remaining next)
      exact Or.inl ⟨rfl, attached node reference hhere isReference⟩

theorem LayersBelow.upholds (layers : LayersBelow root source low matchChild)
    (attached : AttachedBelow root source low) {path : Ancestry}
    (hpath : (Ancestry.root root).LeadsTo path) (origin : Input) (before : Progress Stock Input ρ) :
    aligner.Upholds matchChild path Token.Own
      (Layering root source low path.node origin before [])
      (Layering root source low path.node origin before)
      fun _ progress => progress.ends = true where
  begin h := h.later (h.layered.note _ _) (Nat.le_refl _)
  note h _ _ := h.later (h.layered.note _ _) (Nat.le_refl _)
  claim h := (h.collect fun _ => .of_plain h.layered.slot).later h.layered.claimed (Nat.le_refl _)
  draw {held cursor progress terminal found} h _ _ :=
    h.later (h.layered.draw found) (progress.supply_le_draw found)
  plain {held cursor progress terminal found} h probe notReference _ := by
    have hplain := Input.plain_of_probe probe notReference progress.supply
    have hdraw := h.later (h.layered.draw found) (progress.supply_le_draw found)
    exact (hdraw.collect fun _ => .of_plain hplain).advance _ _
  separator {held progress frame terminal found} h _ probe notReference _ := by
    have hplain := Input.plain_of_probe probe notReference progress.supply
    have hnote := (h.layered.draw found).note
      (frame.move (found.tokens progress.supply) progress.subtrees)
      (.defer (found.tokens progress.supply))
    have hdefer := h.later (hnote.defer hplain terminal) (progress.supply_le_draw found)
    exact hdefer.advance _ _
  child {held progress frame terminal found reference more route node}
      h fits _ probe isReference tokens hnode := by
    obtain ⟨rfl, finds⟩ := Input.finds_of_probe probe isReference tokens
    obtain rfl := fits.path_eq
    have hchild : (Ancestry.root root).LeadsTo (.child frame.path node route) := .child hpath hnode
    have hfollows : (Cursor.forChild node frame.cursor).Follows root source node :=
      .descend hchild frame.cursor
    have hreference := old_or_next_of_probe attached h.follows probe finds
    have henter := (h.layered.draw found).note frame (.descend reference route)
    refine (layers _ _ _ hchild hfollows henter).imp ?_
    rintro spelling after ⟨hafter, hdrawn, hrecent, haway⟩
    have hdrawn : (progress.draw found).supply ≤ after.supply := hdrawn
    have hle := Nat.le_trans (progress.supply_le_draw found) hdrawn
    have hrecord : ((after.note frame (.record reference spelling)).record reference
        spelling).Layered low := by
      apply (hafter.note frame _).record
      intro hnew
      rcases hreference with ⟨_, hold⟩ | ⟨hmedium, hid, hnext⟩
      · -- what is stored for an old reference is bound only if it was not read from tokens
        have hchildMedium := hnew.resolve_left (Nat.not_le.mpr hold)
        have hgrown := henter.grown
        exact (hrecent hchildMedium).mono (by omega) (Nat.le_refl _)
      · have hchildMedium := haway (by rwa [Input.medium_forChild])
        have hgrown := h.layered.grown
        refine (hrecent hchildMedium).mono ?_ (Nat.le_refl _)
        change _ ≤ (progress.draw found).supply
        omega
    have hnew : Cursor.medium frame.cursor ≠ .tokens →
        Token.Recent before.supply after.supply [reference] := by
      intro hmedium token hmem _
      obtain rfl := List.mem_singleton.mp hmem
      have hbefore := h.drawn
      rcases hreference with ⟨htokens, _⟩ | ⟨_, hid, hnext⟩
      · exact absurd htokens hmedium
      · omega
    exact ((h.later hrecord hle).collect hnew).advance _ _
  emit {known held cursor progress tokens} h hknown own := by
    apply h.collect
    intro hmedium token hmem isReference
    exact h.recent hmedium token (hknown (own token hmem isReference)) isReference
  raise h _ _ := (h.layered.note _ _).ends

/-- Every level of a match keeps the layers of the store. -/
theorem layersBelow_matchNode (emits : aligner.grammar.Emits Token.Own)
    (attached : AttachedBelow root source low) (levels : Nat) :
    LayersBelow root source low (aligner.matchNode levels) := by
  induction levels with
  | zero =>
      intro path cursor progress _ _ h
      exact (h.note _ _).ends
  | succ levels ih =>
      intro path cursor progress hpath hfollows h
      have hstart : Layering root source low path.node cursor progress [] cursor progress :=
        ⟨h, Nat.le_refl _, hfollows, fun _ => .nil, id⟩
      rw [matchNode]
      apply ((ih.upholds attached hpath cursor progress).restart emits ?_ hstart).imp
      · rintro spelling after ⟨start, held, last, fits, hafter, rfl⟩
        refine ⟨hafter.layered, hafter.drawn, ?_, hafter.away⟩
        intro hmedium token hmem
        exact hafter.recent hmedium token (fits.tokens hmem)
      · intro held cursor next state h _ hnext
        have hmedium := Input.medium_ne_tokens_of_fallback hnext
        exact ⟨h.layered, h.drawn, .fallback hnext, fun _ => .nil, fun _ => hmedium⟩

end Aligner

end TreeAlign
