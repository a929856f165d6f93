import TreeAlign.Proofs.Matching.Layout

/-!
# Speculation never delivers input twice

A grammar may offer terminals, learn that they are not all there, and go on
somewhere else. The text that was read on the way is then left out, but it
is never read again, and what is emitted later never comes from before. So
the leaves of the aligned tree can be given places in the text, one behind
the other, whatever offers failed in between.
-/

namespace TreeAlign

/-- Each token has a place in the text that holds exactly its characters. The places are between
two positions, and each one ends before the next one begins. -/
def Token.Placed (text : List Char) (start stop : Nat) (tokens : List Token) : Prop :=
  ∃ places : List (Token × Span), places.map Prod.fst = tokens ∧
    (∀ place ∈ places,
      Text.Between text place.2.start place.2.stop place.1.value.toList ∧
        start ≤ place.2.start ∧ place.2.stop ≤ stop) ∧
    places.Pairwise fun earlier later => earlier.2.stop ≤ later.2.start

namespace Token.Placed

variable {text : List Char} {start first last stop : Nat} {token : Token} {tokens : List Token}

theorem nil : Placed text start stop [] :=
  ⟨[], rfl, by simp, .nil⟩

/-- A token is placed in front of tokens that have their places behind it. -/
theorem cons (ahead : start ≤ first) (part : Text.Between text first last token.value.toList)
    (inside : last ≤ stop) (rest : Placed text last stop tokens) :
    Placed text start stop (token :: tokens) := by
  obtain ⟨places, rfl, hplaces, hordered⟩ := rest
  have hpart := part.start_le
  refine ⟨(token, ⟨first, last⟩) :: places, rfl, ?_, ?_⟩
  · intro place hmem
    rcases List.mem_cons.mp hmem with rfl | hmem
    · exact ⟨part, ahead, inside⟩
    · obtain ⟨hbetween, hlow, hhigh⟩ := hplaces place hmem
      exact ⟨hbetween, by omega, hhigh⟩
  · rw [List.pairwise_cons]
    exact ⟨fun place hmem => (hplaces place hmem).2.1, hordered⟩

/-- Tokens with places are a subsequence of the text around them. -/
theorem sublist (h : Placed text start stop tokens) {whole : List Char}
    (covered : Text.Between text start stop whole) : (charsOf tokens).Sublist whole := by
  obtain ⟨places, rfl, hplaces, hordered⟩ := h
  induction places generalizing start whole with
  | nil => exact List.nil_sublist _
  | cons place rest ih =>
      obtain ⟨hpart, hlow, hhigh⟩ := hplaces place (List.mem_cons_self ..)
      rw [List.pairwise_cons] at hordered
      obtain ⟨left, right, rfl, _, hright⟩ := covered.piece hpart hlow hhigh
      have hrest : (charsOf (rest.map Prod.fst)).Sublist right := by
        refine ih hright ?_ hordered.2
        intro later hmem
        obtain ⟨hbetween, _, hstop⟩ := hplaces later (List.mem_cons_of_mem _ hmem)
        exact ⟨hbetween, hordered.1 later hmem, hstop⟩
      rw [List.map_cons, charsOf_cons, List.append_assoc]
      exact ((List.Sublist.refl _).append hrest).trans (List.sublist_append_right _ _)

end Token.Placed

namespace Laid

variable {subtrees : Subtrees} {text : List Char} {first last : Mark} {tokens : List Token}

/-- The leaves of a layout are laid out like the tokens they come from. -/
theorem exists_leaves (h : Laid subtrees text first tokens last) :
    ∃ leaves, subtrees.Expands tokens leaves ∧ Laid subtrees text first leaves last := by
  induction h with
  | nil before => exact ⟨[], .nil, .nil before⟩
  | leaf plain ahead part drawn _ ih =>
      obtain ⟨leaves, hexpands, hlaid⟩ := ih
      exact ⟨_ :: leaves, .leaf plain hexpands, .leaf plain ahead part drawn hlaid⟩
  | child isReference stored _ _ ih ih' =>
      obtain ⟨inner, hinside, hinner⟩ := ih
      obtain ⟨leaves, hexpands, hlaid⟩ := ih'
      exact ⟨inner ++ leaves, .child isReference stored hinside hexpands, hinner.append hlaid⟩

/-- Leaves that are laid out have places. -/
theorem placed (h : Laid subtrees text first tokens last)
    (plain : ∀ token ∈ tokens, token.isReference = false) :
    Token.Placed text first.position last.position tokens := by
  induction h with
  | nil before => exact .nil
  | leaf _ ahead part _ tail ih =>
      exact .cons ahead.1 part tail.before.1
        (ih fun token ht => plain token (List.mem_cons_of_mem _ ht))
  | child isReference =>
      have := plain _ (List.mem_cons_self ..)
      rw [isReference] at this
      exact absurd this (by simp)

/-- Leaves that are laid out have increasing identities from the supply. -/
theorem increasing (h : Laid subtrees text first tokens last)
    (plain : ∀ token ∈ tokens, token.isReference = false) :
    (∀ token ∈ tokens, first.supply ≤ token.id) ∧
      tokens.Pairwise fun earlier later => earlier.id < later.id := by
  induction h with
  | nil before => exact ⟨by simp, .nil⟩
  | leaf _ ahead _ drawn _ ih =>
      obtain ⟨hlow, hordered⟩ := ih fun token ht => plain token (List.mem_cons_of_mem _ ht)
      have hahead := ahead.2
      simp only at hahead
      constructor
      · intro token ht
        rcases List.mem_cons.mp ht with rfl | ht
        · exact hahead
        · have := hlow token ht
          omega
      · rw [List.pairwise_cons]
        refine ⟨fun token ht => ?_, hordered⟩
        have := hlow token ht
        omega
  | child isReference =>
      have := plain _ (List.mem_cons_self ..)
      rw [isReference] at this
      exact absurd this (by simp)

end Laid

namespace Aligner

/-- Where a grammar emits nothing but what the offer right before has found, the leaves of the
aligned tree have places in the text that the root covers, one behind the other. So the text of
the tree is a subsequence of what the root covers, and no token is delivered twice. -/
theorem run_offers_in_order {ρ : Type} (aligner : Aligner Stock ρ)
    (echoes : aligner.grammar.Echoes) {root : Node Token} (rangeless : root.Rangeless)
    {text : List Char} {place : TextCursor} (opens : place.Opens text) {supply : Nat}
    {alignment : Alignment}
    (h : (aligner.run root (Input.text place) supply).1 = .ok alignment) :
    Token.Placed text alignment.root.extent.start alignment.root.extent.stop alignment.leaves ∧
      (∃ covered, alignment.root.Covers text covered ∧
        alignment.text.toList.Sublist covered) ∧
      (alignment.leaves.map (·.id)).Nodup := by
  obtain ⟨hextent, hsound, supplied, hlaid⟩ := laid_of_run echoes rangeless opens.sound h
  obtain ⟨rest, hrest⟩ := opens.sound
  obtain ⟨rest', hrest'⟩ := hsound
  obtain ⟨leaves, hexpands, hlaid⟩ := hlaid.exists_leaves
  have hleaves : alignment.leaves = leaves := hexpands.leaves_eq
  have hplain := hexpands.isReference_eq_false
  rw [opens.text_eq] at hrest hrest' hlaid
  have hplaced := hlaid.placed hplain
  obtain ⟨covered, _, _, hcovered, _⟩ :=
    hrest.piece hrest'.nil hlaid.before.1 hrest'.start_le
  refine ⟨?_, ⟨covered, ⟨?_, ?_⟩, ?_⟩, ?_⟩
  · rw [hleaves, hextent]
    exact hplaced
  · rw [hextent]
  · rw [hextent]
    exact hcovered
  · rw [Alignment.text, hleaves, Token.toList_textOf]
    exact hplaced.sublist hcovered
  · rw [hleaves, List.Nodup, List.pairwise_map]
    exact (hlaid.increasing hplain).2.imp Nat.ne_of_lt

/-- Offers a sum, then a name with white space behind it, and emits the one that is there. Another
name has to follow. -/
def speculation : Procedure Stock :=
  .yield (.offer [.identifier "a", .separator, .punctuator "+"]) fun reply _ =>
    match reply with
    | .matched tokens => .yield (.emit tokens) fun _ _ => .done
    | _ =>
      .yield (.offer [.identifier "b", .separator]) fun reply _ =>
        match reply with
        | .matched tokens =>
          .yield (.emit tokens) fun _ _ => .yield (.take [.identifier "c"]) fun _ _ => .done
        | _ => .done

/-- The grammar with this one procedure. -/
def speculationAligner : Aligner Stock ByName where
  grammar := ⟨[("Names", fun _ _ => speculation)]⟩
  resolver := .byName

theorem echoes_speculation : speculationAligner.grammar.Echoes := by
  intro type rule h path subtrees
  obtain rfl : rule = fun _ _ => speculation := by
    simp only [Grammar.rule?, speculationAligner, Keyed.get?] at h
    split at h
    · exact (Option.some.inj h).symm
    · exact absurd h (by simp)
  have hlast : (Procedure.yield (Command.take [Stock.identifier "c"])
      fun _ _ => Procedure.done).Echoes none := .take fun _ => .done
  have hsecond : (Procedure.yield (Command.offer [Stock.identifier "b", .separator])
      fun reply _ =>
        match reply with
        | .matched tokens =>
          .yield (.emit tokens) fun _ _ => .yield (.take [.identifier "c"]) fun _ _ => .done
        | _ => .done).Echoes none :=
    .offer (fun _ _ => .emit fun _ => hlast) fun _ => .done
  exact .offer (fun _ _ => .emit fun _ => .done) fun _ => hsecond

/-- An offer that fails behind the first name leaves that name out, and nothing else. -/
theorem run_offers_in_order_speculation :
    ∃ alignment,
      (speculationAligner.run ⟨"Names", [], none, none⟩ (Input.text (.whole "a b c".toList)) 0).1 =
        .ok alignment ∧
      alignment.text = "b c" ∧
      Token.Placed "a b c".toList alignment.root.extent.start alignment.root.extent.stop
        alignment.leaves ∧
      (∃ covered, alignment.root.Covers "a b c".toList covered ∧
        alignment.text.toList.Sublist covered) ∧
      (alignment.leaves.map (·.id)).Nodup := by
  have hrun : ((speculationAligner.run ⟨"Names", [], none, none⟩
      (Input.text (.whole "a b c".toList)) 0).1.toOption.map Alignment.text) = some "b c" := by
    decide +kernel
  obtain ⟨alignment, hfound, htext⟩ := Option.map_eq_some_iff.mp hrun
  have h := eq_ok_of_toOption hfound
  have hrangeless : (⟨"Names", [], none, none⟩ : Node Token).Rangeless := rfl
  exact ⟨alignment, h, htext,
    run_offers_in_order speculationAligner echoes_speculation hrangeless .whole h⟩

end Aligner

end TreeAlign
