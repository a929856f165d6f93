import TreeAlign.Proofs.Grammar.Settled
import TreeAlign.Proofs.Matching.Weave

/-!
# Alignments with flat text lose nothing

When a grammar takes only, the leaves of the aligned tree are the text that
the root covers. Every other node covers its own leaves and the white space
that waited in the slot when the node was done. That white space is not
lost: it stands in the tokens of a node above, right behind the reference
below which the node comes last.

## Implementation notes

While a node is being matched the white space of its last child may still
wait in the slot. The invariant of a derivation therefore has a third case
besides white space that was there in full and white space that has already
surfaced: the slot, behind tokens that end in the node.
-/

namespace TreeAlign

namespace Subtrees

variable {subtrees : Subtrees}

/-- The spelling is reached from the tokens through references. -/
inductive Reaches (subtrees : Subtrees) (spelling : Spelling) : List Token → Prop where
  | here {tokens : List Token} {reference : Token} (mem : reference ∈ tokens)
      (found : subtrees.child? reference = some spelling) : Reaches subtrees spelling tokens
  | deeper {tokens : List Token} {reference : Token} {child : Spelling} (mem : reference ∈ tokens)
      (found : subtrees.child? reference = some child)
      (inside : Reaches subtrees spelling child.tokens) : Reaches subtrees spelling tokens

/-- The last token is a reference to the spelling, or to one that ends in the spelling. -/
inductive EndsIn (subtrees : Subtrees) (spelling : Spelling) : List Token → Prop where
  | here {before : List Token} {reference : Token}
      (found : subtrees.child? reference = some spelling) :
      EndsIn subtrees spelling (before ++ [reference])
  | deeper {before : List Token} {reference : Token} {child : Spelling}
      (found : subtrees.child? reference = some child)
      (inside : EndsIn subtrees spelling child.tokens) :
      EndsIn subtrees spelling (before ++ [reference])

/-- The slot stands right behind tokens that end in the spelling, in the given tokens or in those
of a spelling reached from them. -/
inductive Surfaces (subtrees : Subtrees) (spelling : Spelling) (slot : List Token) :
    List Token → Prop where
  | here {before after : List Token} (ends : subtrees.EndsIn spelling before) :
      Surfaces subtrees spelling slot (before ++ slot ++ after)
  | deeper {tokens : List Token} {reference : Token} {child : Spelling} (mem : reference ∈ tokens)
      (found : subtrees.child? reference = some child)
      (inside : Surfaces subtrees spelling slot child.tokens) :
      Surfaces subtrees spelling slot tokens

theorem child?_eq_none {token : Token} (h : token.isReference = false) :
    subtrees.child? token = none := by
  simp [child?, h]

theorem child?_eq_get? {token : Token} (h : token.isReference = true) :
    subtrees.child? token = subtrees.get? token := by
  simp [child?, h]

theorem not_reaches_nil (spelling : Spelling) : ¬ subtrees.Reaches spelling [] := by
  intro h
  cases h with
  | here mem _ => exact absurd mem (by simp)
  | deeper mem _ _ => exact absurd mem (by simp)

/-- What is reached from a list is reached from one of its two parts. -/
theorem Reaches.append_cases {spelling : Spelling} {left right : List Token}
    (h : subtrees.Reaches spelling (left ++ right)) :
    subtrees.Reaches spelling left ∨ subtrees.Reaches spelling right := by
  cases h with
  | here mem found =>
      rcases List.mem_append.mp mem with mem | mem
      · exact Or.inl (.here mem found)
      · exact Or.inr (.here mem found)
  | deeper mem found inside =>
      rcases List.mem_append.mp mem with mem | mem
      · exact Or.inl (.deeper mem found inside)
      · exact Or.inr (.deeper mem found inside)

/-- Tokens that are no references reach nothing. -/
theorem not_reaches_of_plain {spelling : Spelling} {tokens : List Token}
    (h : ∀ token ∈ tokens, token.isReference = false) : ¬ subtrees.Reaches spelling tokens := by
  intro hreach
  cases hreach with
  | here mem found => simp [child?_eq_none (h _ mem)] at found
  | deeper mem found _ => simp [child?_eq_none (h _ mem)] at found

theorem Surfaces.append {spelling : Spelling} {slot tokens : List Token}
    (h : subtrees.Surfaces spelling slot tokens) (more : List Token) :
    subtrees.Surfaces spelling slot (tokens ++ more) := by
  cases h with
  | here ends =>
      rw [List.append_assoc]
      exact .here ends
  | deeper mem found inside => exact .deeper (List.mem_append_left _ mem) found inside

end Subtrees

/-- A spelling covers its leaves and white space behind them, which was in the slot when the
spelling was done. -/
def Progress.CoversWith {τ σ ρ : Type} (state : Progress τ σ ρ) (text : List Char)
    (spelling : Spelling) (suffix : List Token) : Prop :=
  spelling.Covers text
    ((Token.textOf (state.subtrees.leaves spelling)).toList ++ (Token.textOf suffix).toList) ∧
    (∀ token ∈ suffix, token.IsBlank) ∧ ∃ path, state.Finished path spelling suffix

namespace Woven

variable {τ σ ρ : Type} {aligner : Aligner τ ρ} {text : List Char} {state : Progress τ σ ρ}
  {path : Ancestry} {first last : Mark} {tokens slot : List Token} {resolver : ρ}

/-- Whatever is reached from the tokens covers its leaves and white space, and the white space is
empty, or has surfaced, or still waits in the slot. -/
theorem exists_suffix (h : Woven aligner text state path first tokens slot resolver last)
    (start : Text.Between text first.position first.position []) {spelling : Spelling}
    (reached : state.subtrees.Reaches spelling tokens) :
    ∃ suffix, state.CoversWith text spelling suffix ∧
      (suffix = [] ∨ state.subtrees.Surfaces spelling suffix tokens ∨
        (suffix = slot ∧ state.subtrees.EndsIn spelling tokens)) := by
  induction h with
  | opened path mark => exact absurd reached (Subtrees.not_reaches_nil _)
  | @claimed path first last tokens slot resolver earlier ih =>
      have hplain : ∀ token ∈ slot, token.isReference = false :=
        fun token ht => (earlier.isBlank_slot token ht).isReference_eq_false
      have hbefore := reached.append_cases.resolve_right (Subtrees.not_reaches_of_plain hplain)
      obtain ⟨suffix, hleaves, hempty | hsurfaces | ⟨rfl, hends⟩⟩ := ih start hbefore
      · exact ⟨suffix, hleaves, Or.inl hempty⟩
      · exact ⟨suffix, hleaves, Or.inr (Or.inl (hsurfaces.append _))⟩
      · have hhere : state.subtrees.Surfaces spelling suffix (tokens ++ suffix ++ []) := .here hends
        rw [List.append_nil] at hhere
        exact ⟨suffix, hleaves, Or.inr (Or.inl hhere)⟩
  | collected _ plain _ _ ih =>
      have hbefore := reached.append_cases.resolve_right (Subtrees.not_reaches_of_plain plain)
      obtain ⟨suffix, hleaves, hempty | hsurfaces | ⟨hempty, _⟩⟩ := ih start hbefore
      · exact ⟨suffix, hleaves, Or.inl hempty⟩
      · exact ⟨suffix, hleaves, Or.inr (Or.inl (hsurfaces.append _))⟩
      · exact ⟨suffix, hleaves, Or.inl hempty⟩
  | deferred _ _ _ _ ih =>
      obtain ⟨suffix, hleaves, hempty | hsurfaces | ⟨hempty, _⟩⟩ := ih start reached
      · exact ⟨suffix, hleaves, Or.inl hempty⟩
      · exact ⟨suffix, hleaves, Or.inr (Or.inl hsurfaces)⟩
      · exact ⟨suffix, hleaves, Or.inl hempty⟩
  | @child path first last next tokens slot resolver inner reference route node child earlier
      isReference _ _ _ stored _ extent_eq finished inside ih ih' =>
      obtain ⟨_, _, hbetween⟩ := earlier.exists_leaves start
      have hfound : state.subtrees.child? reference = some child := by
        rw [Subtrees.child?_eq_get? isReference, stored]
      have hmem : reference ∈ tokens ++ [reference] := by simp
      rcases reached.append_cases with hbefore | hlast
      · obtain ⟨suffix, hleaves, hempty | hsurfaces | ⟨hempty, _⟩⟩ := ih start hbefore
        · exact ⟨suffix, hleaves, Or.inl hempty⟩
        · exact ⟨suffix, hleaves, Or.inr (Or.inl (hsurfaces.append _))⟩
        · exact ⟨suffix, hleaves, Or.inl hempty⟩
      · cases hlast with
        | here mem found =>
            obtain rfl : _ = reference := by simpa using mem
            obtain rfl : child = spelling := by simpa [hfound] using found
            obtain ⟨leaves, hexpands, hcovered⟩ := inside.exists_leaves hbetween.nil_stop
            refine ⟨slot, ⟨⟨?_, ?_⟩, inside.isBlank_slot, _, finished⟩, Or.inr (Or.inr ⟨rfl, ?_⟩)⟩
            · rw [extent_eq]
            · rw [extent_eq, hexpands.leaves_eq]
              simpa using hcovered
            · exact .here hfound
        | deeper mem found reached =>
            obtain rfl : _ = reference := by simpa using mem
            obtain rfl : child = _ := by simpa [hfound] using found
            obtain ⟨suffix, hleaves, hempty | hsurfaces | ⟨hslot, hends⟩⟩ :=
              ih' hbetween.nil_stop reached
            · exact ⟨suffix, hleaves, Or.inl hempty⟩
            · exact ⟨suffix, hleaves, Or.inr (Or.inl (.deeper hmem hfound hsurfaces))⟩
            · exact ⟨suffix, hleaves, Or.inr (Or.inr ⟨hslot, .deeper hfound hends⟩)⟩

end Woven

namespace Aligner

/-- The leaves of the aligned tree are the text that the root covers. Every node below covers its
leaves and the white space that was in the slot when the node was done, and that white space
stands in the tokens of a node above, right behind the reference that ends in the node. -/
theorem run_text_lossless {ρ : Type} (aligner : Aligner Stock ρ)
    (takes : aligner.grammar.TakesOnly) {root : Node Token} (rangeless : root.Rangeless)
    {text : List Char} {place : TextCursor} (opens : place.Opens text) {supply : Nat}
    {alignment : Alignment}
    (h : (aligner.run root (Input.text place) supply).1 = .ok alignment) :
    alignment.root.Covers text alignment.text.toList ∧
      ∀ spelling, alignment.subtrees.Reaches spelling alignment.root.tokens →
        ∃ suffix,
          spelling.Covers text ((Token.textOf (alignment.leavesOf spelling)).toList ++
            (Token.textOf suffix).toList) ∧
          (∀ token ∈ suffix, token.IsBlank) ∧
          (∃ path, (aligner.run root (Input.text place) supply).2.Finished path spelling suffix) ∧
          (suffix = [] ∨
            alignment.subtrees.Surfaces spelling suffix alignment.root.tokens) := by
  obtain ⟨resolver, hextent, hsubtrees, hwoven⟩ := woven_of_run takes rangeless opens.sound h
  obtain ⟨_, hrest⟩ := opens.sound
  rw [opens.text_eq] at hwoven hrest
  constructor
  · obtain ⟨leaves, hexpands, hbetween⟩ := hwoven.exists_leaves hrest.nil
    rw [← hsubtrees] at hexpands
    rw [List.append_nil] at hbetween
    refine ⟨by rw [hextent], ?_⟩
    rw [Alignment.text, Alignment.leaves, Alignment.leavesOf, hexpands.leaves_eq,
      Token.toList_textOf, hextent]
    exact hbetween
  · intro spelling hreached
    rw [hsubtrees] at hreached ⊢
    obtain ⟨suffix, ⟨hcovers, hblank, hfinished⟩, hplace⟩ :=
      hwoven.exists_suffix hrest.nil hreached
    refine ⟨suffix, ?_, hblank, hfinished, ?_⟩
    · rw [Alignment.leavesOf, hsubtrees]
      exact hcovers
    · rcases hplace with hempty | hsurfaces | ⟨hempty, _⟩
      · exact Or.inl hempty
      · exact Or.inr hsurfaces
      · exact Or.inl hempty

/-- A sum whose left side is a name inside a group. -/
def groupedSum : Node Token :=
  ⟨"Sum", [("left", .node ⟨"Group", [("inner", .node ⟨"Name", [], none, none⟩)], none, none⟩)],
    none, none⟩

/-- Names read the white space behind them, and a sum has a sign behind its left side. -/
def groupedSumAligner : Aligner Stock ByName where
  grammar := .demanding
    [("Group", [[.reference "inner"]]), ("Name", [[.identifier "a", .separator]]),
      ("Sum", [[.reference "left"], [.punctuator "+"]])]
  resolver := .byName

/-- White space that a name reads leaves the name and the group around it, and is not lost. -/
theorem run_text_lossless_groupedSum :
    ∃ alignment,
      (groupedSumAligner.run groupedSum (Input.text (.whole "a +".toList)) 0).1 =
        .ok alignment ∧
      alignment.text = "a +" ∧ alignment.nodeCount = 3 ∧
      alignment.root.Covers "a +".toList alignment.text.toList ∧
      ∀ spelling, alignment.subtrees.Reaches spelling alignment.root.tokens →
        ∃ suffix,
          spelling.Covers "a +".toList ((Token.textOf (alignment.leavesOf spelling)).toList ++
            (Token.textOf suffix).toList) ∧
          (suffix = [] ∨
            alignment.subtrees.Surfaces spelling suffix alignment.root.tokens) := by
  have hrun : ((groupedSumAligner.run groupedSum (Input.text (.whole "a +".toList)) 0).1.toOption.map
      fun alignment => (alignment.text, alignment.nodeCount)) = some ("a +", 3) := by
    decide +kernel
  obtain ⟨alignment, hfound, hvalues⟩ := Option.map_eq_some_iff.mp hrun
  have h := eq_ok_of_toOption hfound
  have hrangeless : groupedSum.Rangeless := rfl
  obtain ⟨hroot, hbelow⟩ := run_text_lossless groupedSumAligner
    (Grammar.takesOnly_demanding _) hrangeless .whole h
  refine ⟨alignment, h, congrArg Prod.fst hvalues, congrArg Prod.snd hvalues, hroot, ?_⟩
  intro spelling hreached
  obtain ⟨suffix, hcovers, _, _, hplace⟩ := hbelow spelling hreached
  exact ⟨suffix, hcovers, hplace⟩

end Aligner

end TreeAlign
