import TreeAlign.Alignment

/-!
# How the parts of a match end

A part of a match that ends without a failure is taken apart here, once for
all later proofs. `Finding` lists the three ways in which a terminal is
found: its tokens are collected, or they wait in the slot, or its child is
matched and a reference stands for it. In each of them the tokens that
waited in the slot are collected first.
-/

namespace TreeAlign

namespace Run

variable {τ σ ρ α β : Type}

theorem andThen_eq_done_iff {run : Run τ σ ρ α} {next : α → Progress τ σ ρ → Run τ σ ρ β}
    {value : β} {after : Progress τ σ ρ} :
    run.andThen next = .done value after ↔
      ∃ a progress, run = .done a progress ∧ next a progress = .done value after := by
  cases run with
  | done a progress =>
      refine ⟨fun h => ⟨a, progress, rfl, h⟩, ?_⟩
      rintro ⟨_, _, h, hnext⟩
      cases h
      exact hnext
  | failed failure progress => simp

end Run

namespace Progress

variable {τ σ ρ : Type} (progress : Progress τ σ ρ)

@[simp] theorem pendingTokens_note (frame : Frame σ ρ) (act : Act τ) :
    (progress.note frame act).pendingTokens = progress.pendingTokens := rfl

@[simp] theorem pendingTokens_draw (found : Found) :
    (progress.draw found).pendingTokens = progress.pendingTokens := rfl

@[simp] theorem pendingTokens_record (reference : Token) (spelling : Spelling) :
    (progress.record reference spelling).pendingTokens = progress.pendingTokens := rfl

@[simp] theorem pendingTokens_claimed : progress.claimed.pendingTokens = [] := rfl

@[simp] theorem pendingTokens_defer (tokens : List Token) (terminal : τ) :
    (progress.defer tokens terminal).pendingTokens = tokens := rfl

theorem pendingTokens_eq_nil {progress : Progress τ σ ρ} (h : progress.pending = none) :
    progress.pendingTokens = [] := by
  rw [pendingTokens, h]

/-- Identities are drawn from the supply and never given back. -/
theorem supply_le_draw (found : Found) : progress.supply ≤ (progress.draw found).supply := by
  cases found with
  | stored tokens => exact Nat.le_refl _
  | spelled lexemes => exact Nat.le_add_right _ _

end Progress

namespace Aligner

variable {τ σ ρ : Type} [Terminal τ] [Cursor σ] [Reads σ τ] (aligner : Aligner τ ρ)

/-- A frame whose reference has been matched. -/
def joined (frame : Frame σ ρ) (reference : Token) (route : Route) : Frame σ ρ :=
  { frame with
    resolver := (aligner.resolver.resolve frame.resolver reference).2
    tokens := frame.tokens ++ [reference]
    trail := frame.trail ++ [route] }

/-- How a terminal is found in a frame that has claimed the slot, and the frame and the state
after it. -/
inductive Finding (matchChild : MatchChild τ σ ρ) (terminal : τ) (frame : Frame σ ρ)
    (progress : Progress τ σ ρ) : Frame σ ρ → Progress τ σ ρ → Prop where
  | plain {found : Found} (probe : Reads.probe frame.cursor terminal = some found)
      (notReference : Terminal.isReference terminal = false)
      (notSeparator : Terminal.isSeparator terminal = false) :
      Finding matchChild terminal frame progress
        ((frame.move (found.tokens progress.supply) progress.subtrees).collect
          (found.tokens progress.supply))
        ((progress.draw found).note
          ((frame.move (found.tokens progress.supply) progress.subtrees).collect
            (found.tokens progress.supply))
          (.pass terminal (found.tokens progress.supply)))
  | separator {found : Found} (probe : Reads.probe frame.cursor terminal = some found)
      (notReference : Terminal.isReference terminal = false)
      (isSeparator : Terminal.isSeparator terminal = true) :
      Finding matchChild terminal frame progress
        (frame.move (found.tokens progress.supply) progress.subtrees)
        ((((progress.draw found).note
            (frame.move (found.tokens progress.supply) progress.subtrees)
            (.defer (found.tokens progress.supply))).defer
              (found.tokens progress.supply) terminal).note
          (frame.move (found.tokens progress.supply) progress.subtrees)
          (.pass terminal (found.tokens progress.supply)))
  | child {found : Found} {reference : Token} {more : List Token} {route : Route}
      {node : Node Token} {spelling : Spelling} {after : Progress τ σ ρ}
      (probe : Reads.probe frame.cursor terminal = some found)
      (isReference : Terminal.isReference terminal = true)
      (tokens : found.tokens progress.supply = reference :: more)
      (resolved : childAt? frame (aligner.resolver.resolve frame.resolver reference).1 =
        some (route, node))
      (matched : matchChild (.child frame.path node route) (Cursor.forChild node frame.cursor)
        ((progress.draw found).note frame (.descend reference route)) = .done spelling after) :
      Finding matchChild terminal frame progress
        ((aligner.joined frame reference route).move (reference :: more)
          (after.subtrees.insert reference spelling))
        (((after.note frame (.record reference spelling)).record reference spelling).note
          ((aligner.joined frame reference route).move (reference :: more)
            (after.subtrees.insert reference spelling))
          (.pass terminal (reference :: more)))

variable {aligner} {matchChild : MatchChild τ σ ρ} {terminal : τ} {frame found : Frame σ ρ}
  {progress after : Progress τ σ ρ}

omit [Cursor σ] in
theorem childAt?_eq_some {route? : Option Route} {route : Route}
    {node : Node Token} (h : childAt? frame route? = some (route, node)) :
    route? = some route ∧ frame.path.node.get? route = some node := by
  unfold childAt? at h
  split at h
  · exact absurd h (by simp)
  · next route' =>
      obtain ⟨child, hchild, heq⟩ := Option.map_eq_some_iff.mp h
      cases heq
      exact ⟨rfl, hchild⟩

/-- A terminal is found in exactly the three ways of `Finding`. -/
theorem find_eq_done_iff :
    aligner.find matchChild terminal frame progress = .done (true, found) after ↔
      aligner.Finding matchChild terminal (frame.collect progress.pendingTokens)
        progress.claimed found after := by
  constructor
  · intro h
    rw [find, findHere] at h
    split at h
    · simp [miss] at h
    · next result hprobe =>
        unfold takeUp at h
        split at h
        · next href =>
            split at h
            · simp [miss] at h
            · next reference more htokens =>
                rw [Run.andThen_eq_done_iff] at h
                obtain ⟨joined, state, hdescend, hpass⟩ := h
                rw [descend] at hdescend
                split at hdescend
                · simp [fail] at hdescend
                · next route node hresolved =>
                    rw [Run.andThen_eq_done_iff] at hdescend
                    obtain ⟨spelling, child, hmatched, hdone⟩ := hdescend
                    cases hdone
                    cases hpass
                    rw [htokens]
                    exact .child hprobe href htokens hresolved hmatched
        · next href =>
            have href : Terminal.isReference terminal = false := by simpa using href
            split at h
            · next hsep =>
                cases h
                exact .separator hprobe href hsep
            · next hsep =>
                have hsep : Terminal.isSeparator terminal = false := by simpa using hsep
                cases h
                exact .plain hprobe href hsep
  · intro h
    rw [find, findHere]
    cases h with
    | plain probe notReference notSeparator =>
        simp only [probe, takeUp, notReference, notSeparator, Bool.false_eq_true, if_false]
        rfl
    | separator probe notReference isSeparator =>
        simp only [probe, takeUp, notReference, isSeparator, Bool.false_eq_true, if_false,
          if_true]
        rfl
    | child probe isReference tokens resolved matched =>
        simp only [probe, takeUp, isReference, if_true, tokens, descend, resolved, matched,
          Run.andThen_done]
        rfl

/-- A terminal that is missing leaves the frame as it was, the slot claimed. -/
theorem find_eq_missed (h : aligner.find matchChild terminal frame progress =
    .done (false, found) after) :
    found = frame.collect progress.pendingTokens ∧
      (after = progress.claimed.note found (.miss terminal) ∨
        ∃ result, Reads.probe frame.cursor terminal = some result ∧
          result.tokens progress.supply = [] ∧
          after = (progress.claimed.draw result).note found (.miss terminal)) := by
  rw [find, findHere] at h
  split at h
  · cases h
    exact ⟨rfl, Or.inl rfl⟩
  · next result hprobe =>
      unfold takeUp at h
      split at h
      · split at h
        · next htokens =>
            cases h
            exact ⟨rfl, Or.inr ⟨result, hprobe, htokens, rfl⟩⟩
        · rw [Run.andThen_eq_done_iff] at h
          obtain ⟨_, _, _, hpass⟩ := h
          simp [pass] at hpass
      · split at h
        · simp [pass] at h
        · simp [pass] at h

/-- Terminals are all found if the first is, and the others are found behind it. -/
theorem sequence_cons_eq_matched_iff {rest : List τ} {last : Frame σ ρ} :
    aligner.sequence matchChild (terminal :: rest) frame progress = .done (.matched, last) after ↔
      ∃ middle state, aligner.find matchChild terminal frame progress = .done (true, middle) state ∧
        aligner.sequence matchChild rest middle state = .done (.matched, last) after := by
  rw [sequence, Run.andThen_eq_done_iff]
  constructor
  · rintro ⟨⟨here, middle⟩, state, hfind, hrest⟩
    cases here with
    | true => exact ⟨middle, state, hfind, hrest⟩
    | false => simp at hrest
  · rintro ⟨middle, state, hfind, hrest⟩
    exact ⟨(true, middle), state, hfind, hrest⟩

/-- Terminals are not all found if the first is missing, or one of the others behind it. -/
theorem sequence_cons_eq_missed {rest : List τ} {last : Frame σ ρ} {missing : String}
    (h : aligner.sequence matchChild (terminal :: rest) frame progress =
      .done (.missed missing, last) after) :
    aligner.find matchChild terminal frame progress = .done (false, last) after ∨
      ∃ middle state, aligner.find matchChild terminal frame progress = .done (true, middle) state ∧
        aligner.sequence matchChild rest middle state = .done (.missed missing, last) after := by
  rw [sequence, Run.andThen_eq_done_iff] at h
  obtain ⟨⟨here, middle⟩, state, hfind, hrest⟩ := h
  cases here with
  | true => exact Or.inr ⟨middle, state, hfind, hrest⟩
  | false =>
      simp only [Bool.false_eq_true, if_false, Run.done.injEq, Prod.mk.injEq] at hrest
      obtain ⟨⟨_, rfl⟩, rfl⟩ := hrest
      exact Or.inl hfind

variable {start : Nat} {spelling : Spelling} {next : Reply → Subtrees → Procedure τ}
  {terminals : List τ}

/-- A procedure that asks for terminals goes on only when all of them are found. -/
theorem drive_take_eq_spelled_iff :
    aligner.drive matchChild start (.yield (.take terminals) next) frame progress =
        .done (.spelled spelling) after ↔
      ∃ tried state,
        aligner.sequence matchChild terminals frame.emptied progress =
          .done (.matched, tried) state ∧
        aligner.drive matchChild start (next .proceed state.subtrees)
          ((frame.commit tried).collect tried.tokens)
          (stepped ((frame.commit tried).collect tried.tokens) .proceed
            (next .proceed state.subtrees) state) = .done (.spelled spelling) after := by
  rw [drive, Run.andThen_eq_done_iff]
  constructor
  · rintro ⟨⟨outcome, tried⟩, state, hsequence, hnext⟩
    cases outcome with
    | matched => exact ⟨tried, state, hsequence, hnext⟩
    | missed missing => simp at hnext
  · rintro ⟨tried, state, hsequence, hnext⟩
    exact ⟨(.matched, tried), state, hsequence, hnext⟩

/-- A procedure that offers terminals goes on in any case. -/
theorem drive_offer_eq_spelled
    (h : aligner.drive matchChild start (.yield (.offer terminals) next) frame progress =
      .done (.spelled spelling) after) :
    (∃ tried state,
      aligner.sequence matchChild terminals frame.emptied progress =
        .done (.matched, tried) state ∧
      aligner.drive matchChild start (next (.matched tried.tokens) state.subtrees)
        (frame.commit tried)
        (stepped (frame.commit tried) (.matched tried.tokens)
          (next (.matched tried.tokens) state.subtrees) state) = .done (.spelled spelling) after) ∨
    ∃ tried state missing,
      aligner.sequence matchChild terminals frame.emptied progress =
        .done (.missed missing, tried) state ∧
      aligner.drive matchChild start (next .mismatched state.subtrees) (frame.giveBack tried)
        (stepped (frame.giveBack tried) .mismatched (next .mismatched state.subtrees)
          state) = .done (.spelled spelling) after := by
  rw [drive, Run.andThen_eq_done_iff] at h
  obtain ⟨⟨outcome, tried⟩, state, hsequence, hnext⟩ := h
  cases outcome with
  | matched => exact Or.inl ⟨tried, state, hsequence, hnext⟩
  | missed missing => exact Or.inr ⟨tried, state, missing, hsequence, hnext⟩

/-- An attempt follows the procedure of the node's rule. -/
theorem attempt_eq_spelled_iff {path : Ancestry} {cursor : σ} :
    aligner.attempt matchChild path cursor progress = .done (.spelled spelling) after ↔
      ∃ rule, aligner.grammar.rule? path.node.type = some rule ∧
        aligner.drive matchChild (Cursor.position cursor) (rule path progress.subtrees)
          (aligner.opening path cursor)
          (stepped (aligner.opening path cursor) .proceed (rule path progress.subtrees)
            (progress.note (aligner.opening path cursor) .begin)) =
          .done (.spelled spelling) after := by
  rw [attempt, Grammar.start]
  cases hrule : aligner.grammar.rule? path.node.type with
  | none => simp [fail]
  | some rule => simp

/-- A node is matched as soon as its first attempt succeeds. -/
theorem restart_of_attempt {path : Ancestry} {cursor : σ} (left : Nat)
    (h : aligner.attempt matchChild path cursor progress = .done (.spelled spelling) after) :
    aligner.restart matchChild path left cursor progress = .done spelling after := by
  cases left with
  | zero => rw [restart, h, Run.andThen_done]
  | succ left => rw [restart, h, Run.andThen_done]

/-- A node is matched by its first attempt, or that is given up and the node is matched on the input
that the attempt falls back to. -/
theorem restart_eq_done {path : Ancestry} {cursor : σ} {left : Nat}
    (h : aligner.restart matchChild path left cursor progress = .done spelling after) :
    aligner.attempt matchChild path cursor progress = .done (.spelled spelling) after ∨
      ∃ terminal reached state next fewer, left = fewer + 1 ∧
        aligner.attempt matchChild path cursor progress =
          .done (.abandoned terminal reached) state ∧
        Cursor.fallback reached = .ok next ∧
        aligner.restart matchChild path fewer next state = .done spelling after := by
  cases left with
  | zero =>
      rw [restart, Run.andThen_eq_done_iff] at h
      obtain ⟨result, state, hattempt, h⟩ := h
      cases result with
      | spelled found =>
          cases h
          exact Or.inl hattempt
      | abandoned terminal reached => simp [giveUp, fail] at h
  | succ fewer =>
      rw [restart, Run.andThen_eq_done_iff] at h
      obtain ⟨result, state, hattempt, h⟩ := h
      cases result with
      | spelled found =>
          cases h
          exact Or.inl hattempt
      | abandoned terminal reached =>
          cases hfall : Cursor.fallback reached with
          | ok next =>
              simp only [hfall] at h
              exact Or.inr ⟨terminal, reached, state, next, fewer, rfl, hattempt, hfall, h⟩
          | error cause => simp [hfall, giveUp, fail] at h

/-- A run that was evaluated to a value has succeeded with it. -/
theorem eq_ok_of_toOption {ε α : Type} {result : Except ε α} {value : α}
    (h : result.toOption = some value) : result = .ok value := by
  cases result with
  | error _ => exact absurd h (by simp [Except.toOption])
  | ok found => exact congrArg Except.ok (Option.some.inj h)

/-- An alignment is the spelling of the root, with what is left in the slot behind its tokens. -/
theorem run_eq_ok {root : Node Token} {cursor : σ} {supply : Nat} {alignment : Alignment}
    (h : (aligner.run root cursor supply).1 = .ok alignment) :
    ∃ spelling after,
      aligner.matchNode (aligner.limits.maxDepth + 1) (.root root) cursor
        ({ supply } : Progress τ σ ρ) = .done spelling after ∧
      alignment = ⟨{ spelling with tokens := spelling.tokens ++ after.pendingTokens },
        after.subtrees⟩ ∧
      (aligner.run root cursor supply).2 = after.claimed := by
  rw [run] at h ⊢
  cases hmatch : aligner.matchNode (aligner.limits.maxDepth + 1) (.root root) cursor
      ({ supply } : Progress τ σ ρ) with
  | done spelling after =>
      rw [hmatch] at h
      cases h
      exact ⟨spelling, after, rfl, rfl, rfl⟩
  | failed failure after =>
      rw [hmatch] at h
      exact absurd h (by simp)

end Aligner

end TreeAlign
