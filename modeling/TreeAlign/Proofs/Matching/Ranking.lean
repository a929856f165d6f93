import TreeAlign.Proofs.Matching.Fallback
import TreeAlign.Proofs.Matching.Holding
import TreeAlign.Proofs.Matching.Probing
import TreeAlign.Proofs.Spelling.Ending
import TreeAlign.Proofs.Tree.Address

/-!
# Heights of the nodes that references belong to

The journal tells at which node the child of a reference was entered. When
no identity is attached to two nodes, all moments agree on the height of
that node: an attached reference is followed at the one node that it is
attached to, and a new reference is followed once. A child is lower than the
node that it is entered from, and the references of its spelling were
followed at the child. So heights go down along every chain of references,
in every store of a match, also where a child was stored again or belongs to
an attempt that was given up.
-/

namespace TreeAlign

variable {τ σ ρ : Type}

/-- A token is attached to a node of the tree that is matched. To the root belong the tokens at the
cursor, and to its descendants their own. -/
inductive AttachedTo (root : Node Token) : Input → Node Token → Token → Prop where
  | root {reading : TokenCursor} {token : Token} (mem : token ∈ reading.tokens) :
      AttachedTo root (.tokens reading) root token
  | below {cursor : Input} {route : Route} {node : Node Token} {token : Token}
      (found : root.get? route = some node) (mem : token ∈ node.tokens.getD []) :
      AttachedTo root cursor node token

/-- No identity of a reference is attached to two nodes, and the supply is above all of them. -/
structure Distinct (root : Node Token) (cursor : Input) (supply : Nat) : Prop where
  once : ∀ {node node' token token'}, AttachedTo root cursor node token →
    AttachedTo root cursor node' token' → token.isReference = true → token'.isReference = true →
    token.id = token'.id → node = node'
  below : ∀ {node token}, AttachedTo root cursor node token → token.isReference = true →
    token.id < supply

/-- The cursor of an attempt reads tokens that are attached to the node, or no tokens at all. -/
def Input.Follows (cursor : Input) (root : Node Token) (source : Input) (node : Node Token) : Prop :=
  ∀ reading, cursor = .tokens reading → ∀ token ∈ reading.tokens, AttachedTo root source node token

namespace Input.Follows

variable {root node : Node Token} {source cursor : Input}

theorem start (root : Node Token) (source : Input) : source.Follows root source root := by
  rintro reading rfl token hmem
  exact .root hmem

theorem advance (h : cursor.Follows root source node) (tokens : List Token)
    (subtrees : Subtrees) : (Cursor.advance tokens subtrees cursor).Follows root source node := by
  intro reading hreading
  cases cursor with
  | tokens old =>
      cases hreading
      exact h old rfl
  | text place => exact Input.noConfusion hreading
  | synthetic => exact Input.noConfusion hreading

theorem forChild {route : Route} (found : root.get? route = some node) (cursor : Input) :
    (Cursor.forChild node cursor).Follows root source node := by
  intro reading hreading token hmem
  cases cursor with
  | tokens old =>
      cases hreading
      exact .below found hmem
  | text place => exact Input.noConfusion hreading
  | synthetic => exact Input.noConfusion hreading

/-- A cursor that is opened for a child of the tree reads what is attached to the child. -/
theorem descend {path : Ancestry} {route : Route}
    (below : (Ancestry.root root).LeadsTo (.child path node route)) (cursor : Input) :
    (Cursor.forChild node cursor).Follows root source node := by
  rcases below.get?_address with hroot | hfound
  · exact Ancestry.noConfusion hroot
  · exact .forChild hfound cursor

theorem fallback {next : Input} (h : Cursor.fallback cursor = .ok next) :
    next.Follows root source node := by
  intro reading hreading
  obtain ⟨place, rfl⟩ := isText_of_fallback h
  exact Input.noConfusion hreading

end Input.Follows

namespace Progress

/-- The child of a reference with the identity was entered at a node of the height. -/
def EntersAt (progress : Progress τ σ ρ) (id height : Nat) : Prop :=
  ∃ moment ∈ progress.journal, ∃ reference route, moment.act = .descend reference route ∧
    reference.id = id ∧ moment.frame.path.node.height = height

/-- All references among the tokens were followed at a node of the height. -/
def EntersAll (progress : Progress τ σ ρ) (tokens : List Token) (height : Nat) : Prop :=
  ∀ token ∈ tokens, token.isReference = true → progress.EntersAt token.id height

/-- What is stored for an identity is lower than a node at which the identity was followed, and the
references in it were followed at its own node. -/
def Ranks (progress : Progress τ σ ρ) (subtrees : Subtrees) : Prop :=
  ∀ token spelling, subtrees.get? token = some spelling →
    (∃ height, progress.EntersAt token.id height ∧ spelling.node.height < height) ∧
      progress.EntersAll spelling.tokens spelling.node.height

variable {before progress after : Progress τ σ ρ}

theorem EntersAt.mono {id height : Nat} (h : before.EntersAt id height)
    (noted : before.journal <:+ after.journal) : after.EntersAt id height := by
  obtain ⟨moment, hmem, hact⟩ := h
  exact ⟨moment, noted.subset hmem, hact⟩

/-- A child was entered at the last moment or before. -/
theorem EntersAt.of_note {frame : Frame σ ρ} {act : Act τ} {id height : Nat}
    (h : (progress.note frame act).EntersAt id height) :
    (∃ reference route, act = .descend reference route ∧ reference.id = id ∧
      frame.path.node.height = height) ∨ progress.EntersAt id height := by
  obtain ⟨moment, hmem, hact⟩ := h
  rcases List.mem_cons.mp hmem with rfl | hmem
  · exact Or.inl hact
  · exact Or.inr ⟨moment, hmem, hact⟩

theorem EntersAll.mono {tokens : List Token} {height : Nat} (h : before.EntersAll tokens height)
    (noted : before.journal <:+ after.journal) : after.EntersAll tokens height :=
  fun token hmem hreference => (h token hmem hreference).mono noted

theorem EntersAll.append {tokens more : List Token} {height : Nat}
    (h : progress.EntersAll tokens height) (h' : progress.EntersAll more height) :
    progress.EntersAll (tokens ++ more) height := by
  intro token hmem
  rcases List.mem_append.mp hmem with hmem | hmem
  · exact h token hmem
  · exact h' token hmem

theorem entersAll_of_plain {tokens : List Token} (plain : Token.Plain tokens) (height : Nat) :
    progress.EntersAll tokens height := by
  intro token hmem hreference
  exact absurd hreference (by simp [plain token hmem])

theorem Ranks.mono {subtrees : Subtrees} (h : before.Ranks subtrees)
    (noted : before.journal <:+ after.journal) : after.Ranks subtrees := by
  intro token spelling hget
  obtain ⟨⟨height, henters, hlower⟩, hall⟩ := h token spelling hget
  exact ⟨⟨height, henters.mono noted, hlower⟩, hall.mono noted⟩

theorem Ranks.insert {subtrees : Subtrees} (h : progress.Ranks subtrees) {reference : Token}
    {spelling : Spelling} {height : Nat} (enters : progress.EntersAt reference.id height)
    (lower : spelling.node.height < height)
    (all : progress.EntersAll spelling.tokens spelling.node.height) :
    progress.Ranks (subtrees.insert reference spelling) := by
  intro token found hget
  rw [Subtrees.get?_insert] at hget
  split at hget
  · next hid =>
      cases hget
      exact ⟨⟨height, hid ▸ enters, lower⟩, all⟩
  · exact h token found hget

/-- The moments so far agree on the heights of identities, and all stores are ranked by them. -/
structure Ranked (root : Node Token) (source : Input) (supply : Nat) (progress : Progress τ σ ρ) :
    Prop where
  grown : supply ≤ progress.supply
  low : ∀ {id height}, progress.EntersAt id height → height ≤ root.height
  drawn : ∀ {id height}, progress.EntersAt id height → id < progress.supply
  attached : ∀ {id height}, progress.EntersAt id height → id < supply →
    ∃ node token, AttachedTo root source node token ∧ token.isReference = true ∧ token.id = id ∧
      node.height = height
  unique : ∀ {id height height'}, progress.EntersAt id height → progress.EntersAt id height' →
    height = height'
  past : ∀ moment ∈ progress.journal, progress.Ranks moment.subtrees
  present : progress.Ranks progress.subtrees
  slot : Token.Plain progress.pendingTokens

namespace Ranked

variable {root : Node Token} {source : Input} {supply : Nat}

theorem start (root : Node Token) (source : Input) (supply : Nat) :
    ({ supply } : Progress τ σ ρ).Ranked root source supply := by
  have hnone : ∀ {id height}, ¬ ({ supply } : Progress τ σ ρ).EntersAt id height := by
    rintro id height ⟨moment, hmem, _⟩
    exact absurd hmem (by simp)
  refine ⟨Nat.le_refl _, fun h => absurd h hnone, fun h => absurd h hnone,
    fun h => absurd h hnone, fun h => absurd h hnone, by simp, ?_, Token.plain_nil⟩
  intro token spelling hget
  simp [Subtrees.get?, Subtrees.empty] at hget

/-- A moment in which no child is entered changes nothing. -/
theorem note (h : progress.Ranked root source supply) (frame : Frame σ ρ) {act : Act τ}
    (enters : ∀ reference route, act ≠ .descend reference route) :
    (progress.note frame act).Ranked root source supply := by
  have hback : ∀ {id height}, (progress.note frame act).EntersAt id height →
      progress.EntersAt id height := by
    intro id height henters
    rcases henters.of_note with ⟨reference, route, hact, _⟩ | henters
    · exact absurd hact (enters reference route)
    · exact henters
  have hnoted : progress.journal <:+ (progress.note frame act).journal := List.suffix_cons _ _
  refine ⟨h.grown, fun henters => h.low (hback henters), fun henters => h.drawn (hback henters),
    fun henters => h.attached (hback henters),
    fun henters henters' => h.unique (hback henters) (hback henters'), ?_, h.present.mono hnoted,
    h.slot⟩
  exact List.forall_mem_cons.mpr
    ⟨h.present.mono hnoted, fun moment hmem => (h.past moment hmem).mono hnoted⟩

theorem claimed (h : progress.Ranked root source supply) :
    progress.claimed.Ranked root source supply :=
  { h with slot := Token.plain_nil }

theorem defer (h : progress.Ranked root source supply) {tokens : List Token}
    (plain : Token.Plain tokens) (terminal : τ) :
    (progress.defer tokens terminal).Ranked root source supply :=
  { h with slot := plain }

theorem draw (h : progress.Ranked root source supply) (found : Found) :
    (progress.draw found).Ranked root source supply := by
  have hle := progress.supply_le_draw found
  exact { h with
    grown := Nat.le_trans h.grown hle
    drawn := fun henters => Nat.lt_of_lt_of_le (h.drawn henters) hle }

/-- What is known of a reference that is found at a node: it has been drawn, it is attached if it is
old, and if it was followed before then at nodes of this height. -/
theorem of_finds {progress : Progress τ Input ρ} (h : progress.Ranked root source supply)
    (distinct : Distinct root source supply) {cursor : Input} {node : Node Token}
    (follows : cursor.Follows root source node) {found : Found} {reference : Token}
    (finds : Input.FindsReference progress.supply cursor found reference) :
    reference.id < (progress.draw found).supply ∧
      (reference.id < supply → ∃ other token, AttachedTo root source other token ∧
        token.isReference = true ∧ token.id = reference.id ∧ other.height = node.height) ∧
      ∀ {height}, progress.EntersAt reference.id height → height = node.height := by
  cases finds with
  | new cursor name =>
      refine ⟨Nat.lt_succ_self _, fun hold => ?_, fun henters => ?_⟩
      · exact absurd hold (Nat.not_lt.mpr h.grown)
      · exact absurd (h.drawn henters) (Nat.lt_irrefl _)
  | @attached reading reference rest isReference next =>
      have hhere := follows reading rfl reference (Input.mem_tokens_of_remaining next)
      have hold := distinct.below hhere isReference
      refine ⟨Nat.lt_of_lt_of_le hold h.grown,
        fun _ => ⟨node, reference, hhere, isReference, rfl, rfl⟩, fun henters => ?_⟩
      obtain ⟨other, token, hthere, htoken, hid, rfl⟩ := h.attached henters hold
      rw [distinct.once hthere hhere htoken isReference hid]

/-- A child is entered: the reference is new, or it was followed at this node before if at all. -/
theorem enter {progress : Progress τ Input ρ} (h : progress.Ranked root source supply)
    (distinct : Distinct root source supply) {frame : Frame Input ρ}
    (hpath : (Ancestry.root root).LeadsTo frame.path)
    (follows : frame.cursor.Follows root source frame.path.node) {found : Found} {reference : Token}
    (finds : Input.FindsReference progress.supply frame.cursor found reference) (route : Route) :
    ((progress.draw found).note frame (.descend reference route)).Ranked root source supply := by
  have hdraw := h.draw found
  obtain ⟨hlt, hattached, hsame⟩ := h.of_finds distinct follows finds
  have hcases : ∀ {id height},
      ((progress.draw found).note frame (.descend reference route)).EntersAt id height →
      (id = reference.id ∧ height = frame.path.node.height) ∨ progress.EntersAt id height := by
    intro id height henters
    rcases henters.of_note with ⟨other, way, hact, hid, hheight⟩ | henters
    · cases hact
      exact Or.inl ⟨hid.symm, hheight.symm⟩
    · exact Or.inr henters
  have hheight : frame.path.node.height ≤ root.height := by
    have hle : frame.path.depth + frame.path.node.height ≤ 0 + root.height :=
      hpath.depth_add_height_le
    omega
  have hnoted : progress.journal <:+
      ((progress.draw found).note frame (.descend reference route)).journal := List.suffix_cons _ _
  constructor
  · exact hdraw.grown
  · intro id height henters
    rcases hcases henters with ⟨_, rfl⟩ | henters
    · exact hheight
    · exact h.low henters
  · intro id height henters
    rcases hcases henters with ⟨rfl, _⟩ | henters
    · exact hlt
    · exact hdraw.drawn henters
  · intro id height henters hold
    rcases hcases henters with ⟨rfl, rfl⟩ | henters
    · exact hattached hold
    · exact h.attached henters hold
  · intro id height height' henters henters'
    rcases hcases henters with ⟨rfl, rfl⟩ | henters
    · rcases hcases henters' with ⟨_, rfl⟩ | henters'
      · rfl
      · exact (hsame henters').symm
    · rcases hcases henters' with ⟨rfl, rfl⟩ | henters'
      · exact hsame henters
      · exact h.unique henters henters'
  · exact List.forall_mem_cons.mpr
      ⟨h.present.mono hnoted, fun moment hmem => (h.past moment hmem).mono hnoted⟩
  · exact h.present.mono hnoted
  · exact h.slot

theorem record (h : progress.Ranked root source supply) {reference : Token} {spelling : Spelling}
    {height : Nat} (enters : progress.EntersAt reference.id height)
    (lower : spelling.node.height < height)
    (all : progress.EntersAll spelling.tokens spelling.node.height) :
    (progress.record reference spelling).Ranked root source supply :=
  { h with present := h.present.insert enters lower all }

/-- Following references that were followed at nodes of one height ends within that height. -/
theorem endsWithin (h : progress.Ranked root source supply) {subtrees : Subtrees}
    (ranks : progress.Ranks subtrees) {height : Nat} {tokens : List Token}
    (all : progress.EntersAll tokens height) : subtrees.EndsWithin height tokens := by
  induction height using Nat.strongRecOn generalizing tokens with
  | ind height ih =>
      have hlower : ∀ token ∈ tokens, ∀ spelling, subtrees.child? token = some spelling →
          spelling.node.height < height ∧
            progress.EntersAll spelling.tokens spelling.node.height := by
        intro token hmem spelling hchild
        obtain ⟨isReference, stored⟩ := Subtrees.child?_eq_some_iff.mp hchild
        obtain ⟨⟨other, henters, hlt⟩, hall⟩ := ranks token spelling stored
        rw [h.unique (all token hmem isReference) henters]
        exact ⟨hlt, hall⟩
      cases height with
      | zero =>
          intro token hmem
          cases hchild : subtrees.child? token with
          | none => rfl
          | some spelling => exact absurd (hlower token hmem spelling hchild).1 (Nat.not_lt_zero _)
      | succ height =>
          intro token hmem spelling hchild
          obtain ⟨hlt, hall⟩ := hlower token hmem spelling hchild
          exact (ih _ hlt hall).mono (Nat.le_of_lt_succ hlt)

end Ranked

end Progress

/-- What a match of a node leaves behind: a spelling of the node whose references were followed
there. -/
structure Ranked (root : Node Token) (source : Input) (supply : Nat) (before : Progress τ σ ρ)
    (node : Node Token) (spelling : Spelling) (after : Progress τ σ ρ) : Prop where
  ranked : after.Ranked root source supply
  noted : before.journal <:+ after.journal
  node_eq : spelling.node = node
  enters : after.EntersAll spelling.tokens node.height

/-- A cursor and a state in the middle of matching a node, with references held that were followed
at the node. -/
structure Ranking (root : Node Token) (source : Input) (supply : Nat) (before : Progress τ Input ρ)
    (node : Node Token) (held : List Token) (cursor : Input) (progress : Progress τ Input ρ) :
    Prop where
  ranked : progress.Ranked root source supply
  noted : before.journal <:+ progress.journal
  follows : cursor.Follows root source node
  enters : progress.EntersAll held node.height

namespace Aligner

variable {aligner : Aligner Stock ρ} {matchChild : MatchChild Stock Input ρ} {root : Node Token}
  {source : Input} {supply : Nat}

/-- A way to match the nodes of a tree that ranks what it stores. -/
def RanksBelow (root : Node Token) (source : Input) (supply : Nat)
    (matchChild : MatchChild Stock Input ρ) : Prop :=
  ∀ path cursor (progress : Progress Stock Input ρ), (Ancestry.root root).LeadsTo path →
    cursor.Follows root source path.node → progress.Ranked root source supply →
    (matchChild path cursor progress).Ends (fun _ after => after.Ranked root source supply)
      (Ranked root source supply progress path.node)

theorem RanksBelow.upholds (ranks : RanksBelow root source supply matchChild)
    (distinct : Distinct root source supply) {path : Ancestry}
    (hpath : (Ancestry.root root).LeadsTo path) (before : Progress Stock Input ρ) :
    aligner.Upholds matchChild path Token.Own
      (Ranking root source supply before path.node [])
      (Ranking root source supply before path.node)
      fun _ progress => progress.Ranked root source supply where
  begin h := ⟨h.ranked.note _ (by simp), h.noted.trans (List.suffix_cons _ _), h.follows,
    h.enters.mono (List.suffix_cons _ _)⟩
  note {held progress frame act} h _ inner := by
    refine ⟨h.ranked.note frame ?_, h.noted.trans (List.suffix_cons _ _), h.follows,
      h.enters.mono (List.suffix_cons _ _)⟩
    rintro reference route rfl
    exact inner
  claim h := ⟨h.ranked.claimed, h.noted, h.follows,
    h.enters.append (Progress.entersAll_of_plain h.ranked.slot _)⟩
  draw h _ _ := ⟨h.ranked.draw _, h.noted, h.follows, h.enters⟩
  plain {held cursor progress terminal found} h probe notReference _ := by
    have hplain := Input.plain_of_probe probe notReference progress.supply
    exact ⟨h.ranked.draw _, h.noted, h.follows.advance _ _,
      h.enters.append (Progress.entersAll_of_plain hplain _)⟩
  separator {held progress frame terminal found} h _ probe notReference _ := by
    have hplain := Input.plain_of_probe probe notReference progress.supply
    refine ⟨Progress.Ranked.defer ?_ hplain terminal, h.noted.trans (List.suffix_cons _ _),
      h.follows.advance _ _, h.enters.mono (List.suffix_cons _ _)⟩
    exact (h.ranked.draw found).note _ (by simp)
  child {held progress frame terminal found reference more route node}
      h fits _ probe isReference tokens hnode := by
    obtain ⟨rfl, finds⟩ := Input.finds_of_probe probe isReference tokens
    obtain rfl := fits.path_eq
    have hchild : (Ancestry.root root).LeadsTo (.child frame.path node route) :=
      .child hpath hnode
    have hfollows : (Cursor.forChild node frame.cursor).Follows root source node :=
      .descend hchild frame.cursor
    have henter := h.ranked.enter distinct hpath h.follows finds route
    refine (ranks _ _ _ hchild hfollows henter).imp ?_
    rintro spelling after ⟨hafter, hnoted, hnode_eq, henters⟩
    -- the moment in which the child was entered is still in the journal
    have hreference : after.EntersAt reference.id frame.path.node.height :=
      ⟨_, hnoted.subset (List.mem_cons_self ..), reference, route, rfl, rfl, rfl⟩
    have hbefore : progress.journal <:+ after.journal := (List.suffix_cons _ _).trans hnoted
    have hrecord : progress.journal <:+ (after.note frame (.record reference spelling)).journal :=
      hbefore.trans (List.suffix_cons _ _)
    rw [← hnode_eq] at henters
    have hlower : spelling.node.height < frame.path.node.height :=
      hnode_eq ▸ Node.height_lt_of_get? hnode
    refine ⟨?_, h.noted.trans hrecord, h.follows.advance _ _, ?_⟩
    · exact (hafter.note frame (by simp)).record (hreference.mono (List.suffix_cons _ _)) hlower
        (henters.mono (List.suffix_cons _ _))
    · apply (h.enters.mono hrecord).append
      intro token hmem _
      obtain rfl := List.mem_singleton.mp hmem
      exact hreference.mono (List.suffix_cons _ _)
  emit {known held cursor progress tokens} h hknown own := by
    refine ⟨h.ranked, h.noted, h.follows, h.enters.append ?_⟩
    intro token hmem hreference
    exact h.enters token (hknown (own token hmem hreference)) hreference
  raise h _ _ := h.ranked.note _ (by simp)

/-- Every level of a match ranks what it stores. -/
theorem ranksBelow_matchNode (emits : aligner.grammar.Emits Token.Own)
    (distinct : Distinct root source supply) (levels : Nat) :
    RanksBelow root source supply (aligner.matchNode levels) := by
  induction levels with
  | zero =>
      intro path cursor progress _ _ h
      exact h.note _ (by simp)
  | succ levels ih =>
      intro path cursor progress hpath hfollows h
      have again : ∀ {held : List Token} {cursor next : Input} {state : Progress Stock Input ρ},
          Ranking root source supply progress path.node held cursor state →
          state.pending = none → Cursor.fallback cursor = .ok next →
          Ranking root source supply progress path.node [] next state :=
        fun h _ hnext => ⟨h.ranked, h.noted, .fallback hnext, by simp [Progress.EntersAll]⟩
      have hstart : Ranking root source supply progress path.node [] cursor progress :=
        ⟨h, List.suffix_rfl, hfollows, by simp [Progress.EntersAll]⟩
      rw [matchNode]
      apply ((ih.upholds distinct hpath progress).restart emits again hstart).imp
      rintro spelling after ⟨start, held, last, fits, hafter, rfl⟩
      refine ⟨hafter.ranked, hafter.noted, congrArg Ancestry.node fits.path_eq, ?_⟩
      intro token hmem
      exact hafter.enters token (fits.tokens hmem)

end Aligner

end TreeAlign
