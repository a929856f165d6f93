import TreeAlign.Proofs.Matching.Renaming

/-!
# Matching twice side by side

Two matches of a node on the same text, from states that are renamed into
each other, are followed step by step. They look for the same terminals at
the same places, resolve references to the same children, and end alike: with
spellings that are renamed into each other, or in the same failure.
-/

namespace TreeAlign

variable {τ σ ρ α β : Type}

/-- Both runs end with a result as described, or both fail in the same way. -/
def Run.Alike (related : α → Progress τ σ ρ → α → Progress τ σ ρ → Prop) :
    Run τ σ ρ α → Run τ σ ρ α → Prop
  | .done value after, .done value' after' => related value after value' after'
  | .failed failure _, .failed failure' _ => failure' = failure
  | _, _ => False

namespace Run.Alike

variable {related : α → Progress τ σ ρ → α → Progress τ σ ρ → Prop} {run run' : Run τ σ ρ α}

/-- Both runs end in the same way. -/
theorem ends (h : run.Alike related run') :
    (∃ value after value' after', run = .done value after ∧ run' = .done value' after' ∧
      related value after value' after') ∨
    ∃ failure after after', run = .failed failure after ∧ run' = .failed failure after' := by
  cases run with
  | done value after =>
      cases run' with
      | done value' after' => exact .inl ⟨value, after, value', after', rfl, rfl, h⟩
      | failed failure' after' => exact h.elim
  | failed failure after =>
      cases run' with
      | done value' after' => exact h.elim
      | failed failure' after' =>
          obtain rfl : failure' = failure := h
          exact .inr ⟨failure', after, after', rfl, rfl⟩

theorem andThen {related' : β → Progress τ σ ρ → β → Progress τ σ ρ → Prop}
    {next next' : α → Progress τ σ ρ → Run τ σ ρ β} (h : run.Alike related run')
    (hnext : ∀ value after value' after', related value after value' after' →
      (next value after).Alike related' (next' value' after')) :
    (run.andThen next).Alike related' (run'.andThen next') := by
  rcases h.ends with ⟨value, after, value', after', rfl, rfl, hvalue⟩ | ⟨failure, _, _, rfl, rfl⟩
  · exact hnext value after value' after' hvalue
  · exact rfl

theorem imp {related' : α → Progress τ σ ρ → α → Progress τ σ ρ → Prop}
    (h : run.Alike related run')
    (himp : ∀ value after value' after', related value after value' after' →
      related' value after value' after') : run.Alike related' run' := by
  rcases h.ends with ⟨value, after, value', after', rfl, rfl, hvalue⟩ | ⟨failure, _, _, rfl, rfl⟩
  · exact himp value after value' after' hvalue
  · exact rfl

end Run.Alike

namespace Aligner

/-- The frames and the states after a part of both matches, with more shared identities. -/
def FramesAlike (f : Nat → Nat) (like : ρ → ρ → Prop) (top : Ancestry)
    (base : Progress Stock Input ρ) (shared : List Nat) (frame : Frame Input ρ)
    (after : Progress Stock Input ρ) (frame' : Frame Input ρ)
    (after' : Progress Stock Input ρ) : Prop :=
  ∃ more, shared ⊆ more ∧ frame.Renames f like top more frame' ∧
    after.Renames f base more after'

/-- The spellings and the states after both matches of a node. -/
def SpellingsAlike (f : Nat → Nat) (base : Progress Stock Input ρ) (shared : List Nat)
    (spelling : Spelling) (after : Progress Stock Input ρ) (spelling' : Spelling)
    (after' : Progress Stock Input ρ) : Prop :=
  spelling' = spelling.rename f ∧ ∃ more, shared ⊆ more ∧ Token.Shared more spelling.tokens ∧
    after.Renames f base more after'

/-- How both attempts at a node end. -/
def AttemptsAlike (f : Nat → Nat) (base : Progress Stock Input ρ) (shared : List Nat)
    (result : Attempt Input) (after : Progress Stock Input ρ) (result' : Attempt Input)
    (after' : Progress Stock Input ρ) : Prop :=
  match result, result' with
  | .spelled spelling, .spelled spelling' =>
    SpellingsAlike f base shared spelling after spelling' after'
  | .abandoned terminal cursor, .abandoned terminal' cursor' =>
    terminal' = terminal ∧ cursor' = cursor ∧ cursor.IsText
  | _, _ => False

namespace AttemptsAlike

variable {f : Nat → Nat} {base after after' : Progress Stock Input ρ} {shared more : List Nat}
  {result result' : Attempt Input}

/-- Both attempts spell the node, or both are given up at the same place. -/
theorem ends (h : AttemptsAlike f base shared result after result' after') :
    (∃ spelling spelling', result = .spelled spelling ∧ result' = .spelled spelling' ∧
      SpellingsAlike f base shared spelling after spelling' after') ∨
    ∃ terminal cursor, result = .abandoned terminal cursor ∧
      result' = .abandoned terminal cursor ∧ cursor.IsText := by
  cases result with
  | spelled spelling =>
      cases result' with
      | spelled spelling' => exact Or.inl ⟨spelling, spelling', rfl, rfl, h⟩
      | abandoned terminal' cursor' => exact h.elim
  | abandoned terminal cursor =>
      cases result' with
      | spelled spelling' => exact h.elim
      | abandoned terminal' cursor' =>
          obtain ⟨rfl, rfl, isText⟩ := h
          exact Or.inr ⟨terminal', cursor', rfl, rfl, isText⟩

theorem since (h : AttemptsAlike f base more result after result' after') (subset : shared ⊆ more) :
    AttemptsAlike f base shared result after result' after' := by
  rcases h.ends with ⟨spelling, spelling', rfl, rfl, halike⟩ | ⟨terminal, cursor, rfl, rfl, isText⟩
  · obtain ⟨hspelling, all, hmore, hall⟩ := halike
    exact ⟨hspelling, all, List.Subset.trans subset hmore, hall⟩
  · exact ⟨rfl, rfl, isText⟩

end AttemptsAlike

/-- Frames that have read the same, renamed, spell the same, renamed. -/
theorem spellingOf_rename (start : Nat) {f : Nat → Nat} {like : ρ → ρ → Prop} {shared : List Nat}
    {frame frame' : Frame Input ρ} (h : frame.Renames f like top shared frame') :
    spellingOf start frame' = (spellingOf start frame).rename f := by
  simp only [spellingOf, Spelling.rename, h.path, h.cursor, h.tokens]

/-- A way to match nodes below a node on a text that does the same from states that are renamed into
each other, with a grammar and a resolver that do not mind the renaming. -/
structure Mimics (aligner : Aligner Stock ρ) (f : Nat → Nat) (low : Nat) (like : ρ → ρ → Prop)
    (top : Ancestry) (base : Progress Stock Input ρ) (matchChild : MatchChild Stock Input ρ) :
    Prop where
  fixes : Fixes f low
  respects : aligner.resolver.Respects f like
  child : ∀ {path : Ancestry} {cursor : Input} {first second : Progress Stock Input ρ}
    {shared : List Nat}, top.LeadsTo path → cursor.IsText → first.Renames f base shared second →
    (matchChild path cursor first).Alike (SpellingsAlike f base shared)
      (matchChild path cursor second)

namespace Mimics

variable {aligner : Aligner Stock ρ} {f : Nat → Nat} {low : Nat} {like : ρ → ρ → Prop}
  {top : Ancestry} {base : Progress Stock Input ρ} {matchChild : MatchChild Stock Input ρ}
  (mimics : aligner.Mimics f low like top base matchChild)
  {frame frame' : Frame Input ρ} {progress progress' : Progress Stock Input ρ} {shared : List Nat}

include mimics

theorem descend (hframe : frame.Renames f like top shared frame')
    (hprogress : progress.Renames f base shared progress') {reference : Token}
    (drawn : base.supply ≤ f reference.id) :
    (aligner.descend matchChild reference frame progress).Alike
      (fun joined after joined' after' => ∃ more, shared ⊆ more ∧ reference.id ∈ more ∧
        joined.Renames f like top more joined' ∧ after.Renames f base more after')
      (aligner.descend matchChild (reference.rename f) frame' progress') := by
  obtain ⟨hroute, hlike⟩ := mimics.respects.resolve reference hframe.resolver
  have hchild : childAt? frame' (aligner.resolver.resolve frame'.resolver (reference.rename f)).1 =
      childAt? frame (aligner.resolver.resolve frame.resolver reference).1 := by
    unfold childAt?
    rw [hroute, hframe.path]
  rw [Aligner.descend, Aligner.descend, hchild]
  split
  · rw [hframe.path]
    rfl
  · next route node hresolved =>
      obtain ⟨_, hfound⟩ := childAt?_eq_some hresolved
      rw [hframe.path, hframe.cursor]
      have hnode : (Cursor.forChild node frame.cursor).IsText := by
        obtain ⟨place, hplace⟩ := hframe.isText
        rw [hplace]
        exact ⟨place.forChild node, rfl⟩
      apply (mimics.child (.child hframe.below hfound) hnode
        (hprogress.note frame frame' (.descend reference route)
          (.descend (reference.rename f) route))).andThen
      rintro spelling after _ after' ⟨rfl, more, hsubset, hknown, hafter⟩
      have hrecord := hafter.record mimics.fixes hknown drawn frame frame'
      have hmore : shared ⊆ reference.id :: more := List.subset_cons_of_subset _ hsubset
      refine ⟨reference.id :: more, hmore, List.mem_cons_self .., ?_, hrecord⟩
      have hjoined : (frame.collect [reference]).Renames f like top (reference.id :: more)
          (frame'.collect [reference.rename f]) := by
        apply (hframe.mono hmore).collect
        intro token hmem _
        obtain rfl := List.mem_singleton.mp hmem
        exact List.mem_cons_self ..
      exact ⟨hframe.below, rfl, rfl, hframe.isText, hlike, hjoined.tokens, hjoined.known⟩

theorem findHere (terminal : Stock) (hframe : frame.Renames f like top shared frame')
    (hprogress : progress.Renames f base shared progress') :
    (aligner.findHere matchChild terminal frame progress).Alike
      (fun result after result' after' => result'.1 = result.1 ∧
        FramesAlike f like top base shared result.2 after result'.2 after')
      (aligner.findHere matchChild terminal frame' progress') := by
  rw [Aligner.findHere, Aligner.findHere, hframe.cursor]
  split
  · exact ⟨rfl, shared, List.Subset.refl _, hframe, hprogress.note _ _ _ _⟩
  · next found hprobe =>
      obtain ⟨lexemes, rfl⟩ := Input.spelled_of_probe hframe.isText hprobe
      have hdraw := hprogress.draw lexemes
      rw [hprogress.tokens lexemes]
      unfold takeUp
      split
      · next href =>
          cases htokens : (Found.spelled lexemes).tokens progress.supply with
          | nil => exact ⟨rfl, shared, List.Subset.refl _, hframe, hdraw.note _ _ _ _⟩
          | cons reference rest =>
              obtain ⟨rfl, finds⟩ := Input.finds_of_probe hprobe href htokens
              have hdrawn : base.supply ≤ f reference.id := by
                have hid : f (progress.supply + 0) = progress'.supply + 0 := hprogress.tracks 0
                rw [finds.id_eq]
                exact Nat.le_trans hprogress.grown (Nat.le_of_eq hid.symm)
              apply (mimics.descend hframe hdraw hdrawn).andThen
              rintro joined after joined' after' ⟨more, hsubset, hmem, hjoined, hafter⟩
              have hknown : Token.Shared more [reference] := by
                intro token htoken _
                obtain rfl := List.mem_singleton.mp htoken
                exact hmem
              exact ⟨rfl, more, hsubset, hjoined.move hafter.store hknown, hafter.note _ _ _ _⟩
      · next href =>
          have href : Terminal.isReference terminal = false := by simpa using href
          have hplain := Input.plain_of_probe hprobe href progress.supply
          have hmoved := hframe.move hprogress.store (.of_plain hplain)
          split
          · refine ⟨rfl, shared, List.Subset.refl _, hmoved, Progress.Renames.note ?_ _ _ _ _⟩
            exact (hdraw.note _ _ _ _).defer hplain terminal
          · exact ⟨rfl, shared, List.Subset.refl _, hmoved.collect (.of_plain hplain),
              hdraw.note _ _ _ _⟩

theorem find (terminal : Stock) (hframe : frame.Renames f like top shared frame')
    (hprogress : progress.Renames f base shared progress') :
    (aligner.find matchChild terminal frame progress).Alike
      (fun result after result' after' => result'.1 = result.1 ∧
        FramesAlike f like top base shared result.2 after result'.2 after')
      (aligner.find matchChild terminal frame' progress') := by
  rw [Aligner.find, Aligner.find, hprogress.pendingTokens]
  exact mimics.findHere terminal (hframe.collect (.of_plain hprogress.plain)) hprogress.claimed

theorem sequence (terminals : List Stock) (hframe : frame.Renames f like top shared frame')
    (hprogress : progress.Renames f base shared progress') :
    (aligner.sequence matchChild terminals frame progress).Alike
      (fun result after result' after' => result'.1 = result.1 ∧
        FramesAlike f like top base shared result.2 after result'.2 after')
      (aligner.sequence matchChild terminals frame' progress') := by
  induction terminals generalizing frame frame' progress progress' shared with
  | nil => exact ⟨rfl, shared, List.Subset.refl _, hframe, hprogress⟩
  | cons terminal rest ih =>
      rw [Aligner.sequence, Aligner.sequence]
      apply (mimics.find terminal hframe hprogress).andThen
      rintro ⟨here, middle⟩ state ⟨here', middle'⟩ state' ⟨hsame, more, hsubset, hmiddle, hstate⟩
      obtain rfl : here' = here := hsame
      cases here' with
      | false => exact ⟨rfl, more, hsubset, hmiddle, hstate⟩
      | true =>
          apply (ih hmiddle hstate).imp
          rintro result after result' after' ⟨hresult, all, hmore, hall⟩
          exact ⟨hresult, all, List.Subset.trans hsubset hmore, hall⟩

theorem drive (start : Nat) {procedure procedure' : Procedure Stock} {known : List Token}
    (alike : procedure.Alike f procedure') (emits : procedure.Emits Token.Own known)
    (hknown : Token.Shared shared known) (hframe : frame.Renames f like top shared frame')
    (hprogress : progress.Renames f base shared progress') :
    (aligner.drive matchChild start procedure frame progress).Alike (AttemptsAlike f base shared)
      (aligner.drive matchChild start procedure' frame' progress') := by
  induction alike generalizing known frame frame' progress progress' shared with
  | done =>
      exact ⟨spellingOf_rename start hframe, shared, List.Subset.refl _, hframe.known,
        hprogress.note _ _ _ _⟩
  | @emit tokens next next' rest ih =>
      cases emits with
      | emit may hrest =>
          have htokens : Token.Shared shared tokens := fun token hmem hreference =>
            hknown token (may token hmem hreference) hreference
          exact ih _ _ (hrest _) hknown (hframe.collect htokens) (hprogress.note _ _ _ _)
  | offer matched mismatched ih ih' =>
      cases emits with
      | offer hmatched hmismatched =>
          rw [Aligner.drive, Aligner.drive]
          apply (mimics.sequence _ hframe.emptied hprogress).andThen
          rintro ⟨outcome, tried⟩ state ⟨outcome', tried'⟩ state'
            ⟨hsame, more, hsubset, htried, hstate⟩
          obtain rfl : outcome' = outcome := hsame
          cases outcome' with
          | matched =>
              have htried : tried.Renames f like top more tried' := htried
              have hmore := (hknown.mono hsubset).append htried.known
              simp only [htried.tokens]
              apply (ih _ _ _ (hmatched _ _) hmore (hframe.commit htried hsubset)
                (hstate.note _ _ _ _)).imp
              intro result after result' after' h
              exact h.since hsubset
          | missed missing =>
              apply (ih' _ _ (hmismatched _) (hknown.mono hsubset)
                (hframe.giveBack htried hsubset) (hstate.note _ _ _ _)).imp
              intro result after result' after' h
              exact h.since hsubset
  | take rest ih =>
      cases emits with
      | take hrest =>
          rw [Aligner.drive, Aligner.drive]
          apply (mimics.sequence _ hframe.emptied hprogress).andThen
          rintro ⟨outcome, tried⟩ state ⟨outcome', tried'⟩ state'
            ⟨hsame, more, hsubset, htried, hstate⟩
          obtain rfl : outcome' = outcome := hsame
          cases outcome' with
          | matched =>
              have htried : tried.Renames f like top more tried' := htried
              simp only [htried.tokens]
              apply (ih _ _ (hrest _) (hknown.mono hsubset)
                ((hframe.commit htried hsubset).collect htried.known)
                (hstate.note _ _ _ _)).imp
              intro result after result' after' h
              exact h.since hsubset
          | missed missing => exact ⟨rfl, htried.cursor, htried.isText⟩

theorem attempt (anonymous : aligner.grammar.Anonymous top low)
    (emits : aligner.grammar.Emits Token.Own) {path : Ancestry} (below : top.LeadsTo path)
    {cursor : Input} (isText : cursor.IsText) (hprogress : progress.Renames f base shared progress') :
    (aligner.attempt matchChild path cursor progress).Alike (AttemptsAlike f base shared)
      (aligner.attempt matchChild path cursor progress') := by
  have hopening : (aligner.opening path cursor : Frame Input ρ).Renames f like top shared
      (aligner.opening path cursor) :=
    ⟨below, rfl, rfl, isText, mimics.respects.start path.node, rfl, .of_plain Token.plain_nil⟩
  rw [Aligner.attempt, Aligner.attempt, Grammar.start, Grammar.start]
  cases hrule : aligner.grammar.rule? path.node.type with
  | none => exact rfl
  | some rule =>
      have halike := anonymous f mimics.fixes path.node.type rule hrule path below
        progress.subtrees progress'.subtrees
      exact mimics.drive _ halike (emits _ _ hrule _ _) (.of_plain Token.plain_nil) hopening
        ((hprogress.note _ _ _ _).note _ _ _ _)

theorem restart (anonymous : aligner.grammar.Anonymous top low)
    (emits : aligner.grammar.Emits Token.Own) {path : Ancestry} (below : top.LeadsTo path)
    (left : Nat) {cursor : Input} (isText : cursor.IsText) (hprogress : progress.Renames f base shared progress') :
    (aligner.restart matchChild path left cursor progress).Alike (SpellingsAlike f base shared)
      (aligner.restart matchChild path left cursor progress') := by
  have hattempt := mimics.attempt anonymous emits below isText hprogress
  cases left with
  | zero =>
      rw [Aligner.restart, Aligner.restart]
      apply hattempt.andThen
      intro result after result' after' h
      rcases h.ends with ⟨spelling, spelling', rfl, rfl, halike⟩ | ⟨terminal, reached, rfl, rfl, _⟩
      · exact halike
      · exact rfl
  | succ left =>
      rw [Aligner.restart, Aligner.restart]
      apply hattempt.andThen
      intro result after result' after' h
      rcases h.ends with ⟨spelling, spelling', rfl, rfl, halike⟩ |
        ⟨terminal, reached, rfl, rfl, hreached⟩
      · exact halike
      · -- a text has no other form, so both are given up
        obtain ⟨cause, hcause⟩ := Input.noFallback_of_isText hreached
        simp only [hcause]
        exact rfl

end Mimics

/-- Every level of a match does the same from states that are renamed into each other. -/
theorem mimics_matchNode {aligner : Aligner Stock ρ} {f : Nat → Nat} {low : Nat}
    {like : ρ → ρ → Prop} {top : Ancestry} {base : Progress Stock Input ρ} (fixes : Fixes f low)
    (respects : aligner.resolver.Respects f like) (anonymous : aligner.grammar.Anonymous top low)
    (emits : aligner.grammar.Emits Token.Own) (levels : Nat) :
    aligner.Mimics f low like top base (aligner.matchNode levels) := by
  induction levels with
  | zero => exact ⟨fixes, respects, fun _ _ _ => rfl⟩
  | succ levels ih =>
      refine ⟨fixes, respects, ?_⟩
      intro path cursor first second shared below isText h
      exact ih.restart anonymous emits below _ isText h

end Aligner

end TreeAlign
