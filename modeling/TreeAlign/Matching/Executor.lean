import TreeAlign.Limits
import TreeAlign.Matching.Progress
import TreeAlign.Resolver

/-!
# Matching a node

A match follows a node's procedure against a cursor and collects the tokens
of the node. Where the procedure names a child, the child is matched with a
cursor of its own, and a reference token stands for it. The layers are
defined one above the other, each with the way to match a child as an
argument:

* `find` looks for one terminal, and `sequence` for several in order;
* `drive` follows a procedure command by command;
* `restart` begins again on another input when a required terminal is
  missing, as long as restarts are left;
* `matchNode` ties the knot and counts the levels that children may still be
  nested.

A terminal that is missing moves nothing back: the cursor stays where the
sequence got to, children found on the way stay stored, and only the
resolver returns to the state before the sequence.

## Implementation notes

Each layer recurses on its own data: the terminals, the procedure, the
restarts left, the levels left. The state of the match is handed on
explicitly, also by a run that fails.
-/

namespace TreeAlign

/-- A grammar, its limits, and the way references are resolved. -/
structure Aligner (τ ρ : Type) where
  grammar : Grammar τ
  limits : Limits := {}
  resolver : Resolver ρ

/-- How a part of a match ended, and the state it left. -/
inductive Run (τ σ ρ α : Type) where
  | done (value : α) (progress : Progress τ σ ρ)
  | failed (failure : Failure) (progress : Progress τ σ ρ)

namespace Run

variable {τ σ ρ α β : Type}

/-- Goes on after a part that did not fail. -/
def andThen (run : Run τ σ ρ α) (next : α → Progress τ σ ρ → Run τ σ ρ β) : Run τ σ ρ β :=
  match run with
  | .done value progress => next value progress
  | .failed failure progress => .failed failure progress

@[simp] theorem andThen_done (value : α) (progress : Progress τ σ ρ)
    (next : α → Progress τ σ ρ → Run τ σ ρ β) :
    (Run.done value progress).andThen next = next value progress := rfl

@[simp] theorem andThen_failed (failure : Failure) (progress : Progress τ σ ρ)
    (next : α → Progress τ σ ρ → Run τ σ ρ β) :
    (Run.failed failure progress : Run τ σ ρ α).andThen next = .failed failure progress := rfl

end Run

/-- How a sequence of terminals ended. -/
inductive Outcome where
  | matched
  | missed (terminal : String)

/-- How an attempt at a node ended: with a spelling, or at a missing terminal with the cursor
where it got to. -/
inductive Attempt (σ : Type) where
  | spelled (spelling : Spelling)
  | abandoned (terminal : String) (cursor : σ)

/-- How a child is matched: from its ancestry, its cursor and the state so far. -/
abbrev MatchChild (τ σ ρ : Type) :=
  Ancestry → σ → Progress τ σ ρ → Run τ σ ρ Spelling

namespace Aligner

variable {τ σ ρ α : Type} [Terminal τ] [Cursor σ] [Reads σ τ] (aligner : Aligner τ ρ)

/-- Ends the match. -/
def fail (frame : Frame σ ρ) (failure : Failure) (progress : Progress τ σ ρ) : Run τ σ ρ α :=
  .failed failure (progress.note frame (.raise failure))

/-- The child of the frame's node that a route leads to. -/
def childAt? (frame : Frame σ ρ) (route? : Option Route) : Option (Route × Node Token) :=
  match route? with
  | none => none
  | some route => (frame.path.node.get? route).map fun child => (route, child)

/-- Matches the child that a reference stands for, and stores its spelling. -/
def descend (matchChild : MatchChild τ σ ρ) (reference : Token) (frame : Frame σ ρ)
    (progress : Progress τ σ ρ) : Run τ σ ρ (Frame σ ρ) :=
  match childAt? frame (aligner.resolver.resolve frame.resolver reference).1 with
  | none => fail frame (.unresolved frame.path.node.type reference.value) progress
  | some (route, child) =>
    (matchChild (.child frame.path child route) (Cursor.forChild child frame.cursor)
      (progress.note frame (.descend reference route))).andThen fun spelling progress =>
        .done
          { frame with
            resolver := (aligner.resolver.resolve frame.resolver reference).2
            tokens := frame.tokens ++ [reference]
            trail := frame.trail ++ [route] }
          ((progress.note frame (.record reference spelling)).record reference spelling)

/-- A terminal was not there. -/
def miss (terminal : τ) (frame : Frame σ ρ) (progress : Progress τ σ ρ) :
    Run τ σ ρ (Bool × Frame σ ρ) :=
  .done (false, frame) (progress.note frame (.miss terminal))

/-- The cursor has moved past what a terminal found. -/
def pass (terminal : τ) (tokens : List Token) (frame : Frame σ ρ)
    (progress : Progress τ σ ρ) : Run τ σ ρ (Bool × Frame σ ρ) :=
  .done (true, frame) (progress.note frame (.pass terminal tokens))

/-- Takes up what a terminal found: the child of a reference is matched, the tokens of a separator
wait in the slot, and all others are collected. -/
def takeUp (matchChild : MatchChild τ σ ρ) (terminal : τ) (tokens : List Token)
    (frame : Frame σ ρ) (progress : Progress τ σ ρ) : Run τ σ ρ (Bool × Frame σ ρ) :=
  if Terminal.isReference terminal then
    match tokens with
    | [] => miss terminal frame progress
    | reference :: _ =>
      (aligner.descend matchChild reference frame progress).andThen fun frame progress =>
        pass terminal tokens (frame.move tokens progress.subtrees) progress
  else if Terminal.isSeparator terminal then
    pass terminal tokens (frame.move tokens progress.subtrees)
      ((progress.note (frame.move tokens progress.subtrees) (.defer tokens)).defer tokens terminal)
  else
    pass terminal tokens ((frame.move tokens progress.subtrees).collect tokens) progress

/-- Looks for a terminal at the frame's cursor. -/
def findHere (matchChild : MatchChild τ σ ρ) (terminal : τ) (frame : Frame σ ρ)
    (progress : Progress τ σ ρ) : Run τ σ ρ (Bool × Frame σ ρ) :=
  match Reads.probe frame.cursor terminal with
  | none => miss terminal frame progress
  | some found =>
    aligner.takeUp matchChild terminal (found.tokens progress.supply) frame (progress.draw found)

/-- Claims the tokens in the slot, and looks for a terminal. Tells whether it was there. -/
def find (matchChild : MatchChild τ σ ρ) (terminal : τ) (frame : Frame σ ρ)
    (progress : Progress τ σ ρ) : Run τ σ ρ (Bool × Frame σ ρ) :=
  aligner.findHere matchChild terminal (frame.collect progress.pendingTokens) progress.claimed

/-- Looks for terminals in order. The frame that is returned has the tokens found in it, and its
cursor is where the search got to. -/
def sequence (matchChild : MatchChild τ σ ρ) :
    List τ → Frame σ ρ → Progress τ σ ρ → Run τ σ ρ (Outcome × Frame σ ρ)
  | [], frame, progress => .done (.matched, frame) progress
  | terminal :: rest, frame, progress =>
    (aligner.find matchChild terminal frame progress).andThen fun result progress =>
      if result.1 then sequence matchChild rest result.2 progress
      else .done (.missed (Terminal.describe terminal), result.2) progress

/-- The spelling of the frame's node. -/
def spellingOf (start : Nat) (frame : Frame σ ρ) : Spelling :=
  ⟨frame.path.node, frame.tokens,
    ⟨Cursor.medium frame.cursor, start, Cursor.position frame.cursor⟩⟩

/-- Writes into the journal that a procedure got a reply. -/
def stepped (frame : Frame σ ρ) (reply : Reply) (procedure : Procedure τ)
    (progress : Progress τ σ ρ) : Progress τ σ ρ :=
  progress.note frame (.step reply procedure.command?)

/-- Follows a procedure to its end. The cursor was at position `start` at its beginning. -/
def drive (matchChild : MatchChild τ σ ρ) (start : Nat) :
    Procedure τ → Frame σ ρ → Progress τ σ ρ → Run τ σ ρ (Attempt σ)
  | .done, frame, progress =>
    .done (.spelled (spellingOf start frame))
      (progress.note frame (.finish (spellingOf start frame)))
  | .yield (.emit tokens) next, frame, progress =>
    drive matchChild start (next .proceed progress.subtrees) (frame.collect tokens)
      (stepped (frame.collect tokens) .proceed (next .proceed progress.subtrees) progress)
  | .yield (.offer terminals) next, frame, progress =>
    (aligner.sequence matchChild terminals frame.emptied progress).andThen fun result progress =>
      match result with
      | (.matched, tried) =>
        drive matchChild start (next (.matched tried.tokens) progress.subtrees)
          (frame.commit tried)
          (stepped (frame.commit tried) (.matched tried.tokens)
            (next (.matched tried.tokens) progress.subtrees) progress)
      | (.missed _, tried) =>
        drive matchChild start (next .mismatched progress.subtrees) (frame.giveBack tried)
          (stepped (frame.giveBack tried) .mismatched (next .mismatched progress.subtrees)
            progress)
  | .yield (.take terminals) next, frame, progress =>
    (aligner.sequence matchChild terminals frame.emptied progress).andThen fun result progress =>
      match result with
      | (.matched, tried) =>
        drive matchChild start (next .proceed progress.subtrees)
          ((frame.commit tried).collect tried.tokens)
          (stepped ((frame.commit tried).collect tried.tokens) .proceed
            (next .proceed progress.subtrees) progress)
      | (.missed terminal, tried) =>
        .done (.abandoned terminal tried.cursor)
          (progress.note (frame.giveBack tried) (.abandon terminal))

/-- The frame in which an attempt begins. -/
def opening (path : Ancestry) (cursor : σ) : Frame σ ρ :=
  { path, cursor, resolver := aligner.resolver.start path.node }

/-- One attempt at a node. -/
def attempt (matchChild : MatchChild τ σ ρ) (path : Ancestry) (cursor : σ)
    (progress : Progress τ σ ρ) : Run τ σ ρ (Attempt σ) :=
  match aligner.grammar.start path progress.subtrees with
  | .error failure =>
    fail (aligner.opening path cursor) failure
      (progress.note (aligner.opening path cursor) .begin)
  | .ok procedure =>
    aligner.drive matchChild (Cursor.position cursor) procedure (aligner.opening path cursor)
      (stepped (aligner.opening path cursor) .proceed procedure
        (progress.note (aligner.opening path cursor) .begin))

/-- Ends the match at a missing terminal. -/
def giveUp (path : Ancestry) (terminal : String) (cursor : σ) (cause : Failure)
    (progress : Progress τ σ ρ) : Run τ σ ρ Spelling :=
  fail (aligner.opening path cursor)
    (.parsing path.node.type terminal (Cursor.medium cursor) (Cursor.position cursor) (some cause))
    progress

/-- Why no restart is left. -/
def noRestart (cursor : σ) : Failure :=
  .noFallback (Cursor.medium cursor)
    ("fallback limit of " ++ toString aligner.limits.maxFallbacks ++ " reached")

/-- Attempts at a node, each on the input that the one before falls back to, with at most `left`
restarts. -/
def restart (matchChild : MatchChild τ σ ρ) (path : Ancestry) :
    Nat → σ → Progress τ σ ρ → Run τ σ ρ Spelling
  | 0, cursor, progress =>
    (aligner.attempt matchChild path cursor progress).andThen fun result progress =>
      match result with
      | .spelled spelling => .done spelling progress
      | .abandoned terminal cursor =>
        aligner.giveUp path terminal cursor (aligner.noRestart cursor) progress
  | left + 1, cursor, progress =>
    (aligner.attempt matchChild path cursor progress).andThen fun result progress =>
      match result with
      | .spelled spelling => .done spelling progress
      | .abandoned terminal cursor =>
        match Cursor.fallback cursor with
        | .ok next => restart matchChild path left next progress
        | .error cause => aligner.giveUp path terminal cursor cause progress

/-- Matches a node of which `levels` levels of nesting are left, its own included. -/
def matchNode : Nat → MatchChild τ σ ρ
  | 0, path, cursor, progress =>
    fail (aligner.opening path cursor) (.tooDeep aligner.limits.maxDepth path.node.type) progress
  | levels + 1, path, cursor, progress =>
    aligner.restart (matchNode levels) path aligner.limits.maxFallbacks cursor progress

end Aligner

end TreeAlign
