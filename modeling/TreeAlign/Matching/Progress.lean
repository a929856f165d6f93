import TreeAlign.Cursor.Basic
import TreeAlign.Grammar.Basic

/-!
# The state of a match

One match shares a single state between all nodes that it visits: the
subtrees found so far, a slot for separator tokens whose owner is not known
yet, and the supply of token identities. The slot holds the tokens of one
separator, and the first terminal that is looked for afterwards claims them,
in whichever node that happens.

Beside the state proper stands a journal. It holds the moments of the match
in reverse order, each with the frame it happened in and the shared state as
it was then. Nothing that a match decides depends on the journal.
-/

namespace TreeAlign

/-- Separator tokens whose owner is not known yet. -/
structure Pending (τ : Type) where
  tokens : List Token
  terminal : τ

/-- The state of one attempt at one node. A sequence of terminals works on a frame of its own,
with no tokens at first. -/
structure Frame (σ ρ : Type) where
  path : Ancestry
  cursor : σ
  resolver : ρ
  /-- The tokens collected so far. -/
  tokens : List Token := []
  /-- The routes of the references resolved so far, in order. -/
  trail : List Route := []

namespace Frame

variable {σ ρ : Type}

/-- Adds tokens to those collected so far. -/
def collect (frame : Frame σ ρ) (tokens : List Token) : Frame σ ρ :=
  { frame with tokens := frame.tokens ++ tokens }

/-- Moves the cursor past tokens. -/
def move [Cursor σ] (frame : Frame σ ρ) (tokens : List Token) (subtrees : Subtrees) :
    Frame σ ρ :=
  { frame with cursor := Cursor.advance tokens subtrees frame.cursor }

/-- The frame in which a sequence of terminals begins. -/
def emptied (frame : Frame σ ρ) : Frame σ ρ :=
  { frame with tokens := [] }

/-- The frame after a sequence that matched, before its tokens are collected. -/
def commit (frame tried : Frame σ ρ) : Frame σ ρ :=
  { tried with tokens := frame.tokens }

/-- The frame after a sequence that failed: only the cursor has moved. -/
def giveBack (frame tried : Frame σ ρ) : Frame σ ρ :=
  { frame with cursor := tried.cursor }

end Frame

/-- What happened at a moment of a match. -/
inductive Act (τ : Type) where
  /-- An attempt at a node begins. -/
  | begin
  /-- The procedure got a reply and yields a command, or is done. -/
  | step (reply : Reply) (command : Option (Command τ))
  /-- A reference leads to a child, which is matched next. -/
  | descend (reference : Token) (route : Route)
  /-- A child's spelling is stored for its reference. -/
  | record (reference : Token) (spelling : Spelling)
  /-- Separator tokens are put into the slot. -/
  | defer (tokens : List Token)
  /-- The cursor has moved past what a terminal found. -/
  | pass (terminal : τ) (tokens : List Token)
  /-- A terminal was not there, and its sequence ends. -/
  | miss (terminal : τ)
  /-- A required sequence failed, and the attempt ends. -/
  | abandon (terminal : String)
  /-- The procedure is done, and the attempt ends with a spelling. -/
  | finish (spelling : Spelling)
  /-- The match ends with a failure. -/
  | raise (failure : Failure)

/-- One moment of a match: the frame, the shared state just before, and what happened. -/
structure Moment (τ σ ρ : Type) where
  frame : Frame σ ρ
  subtrees : Subtrees
  pending : Option (Pending τ)
  act : Act τ

/-- Whether the moment comes to an end. The cursor of the frame has moved past the tokens, and all
other acts end at once. -/
def Moment.ends {τ σ ρ : Type} [Cursor σ] (moment : Moment τ σ ρ) : Bool :=
  match moment.act with
  | .pass _ tokens => Cursor.advanceEnds tokens moment.subtrees moment.frame.cursor
  | _ => true

/-- The state that all attempts of one match share. -/
structure Progress (τ σ ρ : Type) where
  subtrees : Subtrees := .empty
  pending : Option (Pending τ) := none
  /-- Identities from here on are free. -/
  supply : Nat := 0
  /-- The moments so far, the latest first. -/
  journal : List (Moment τ σ ρ) := []

namespace Progress

variable {τ σ ρ : Type}

/-- Stores a child's spelling for its reference. -/
def record (progress : Progress τ σ ρ) (reference : Token) (spelling : Spelling) :
    Progress τ σ ρ :=
  { progress with subtrees := progress.subtrees.insert reference spelling }

/-- Puts separator tokens into the slot. -/
def defer (progress : Progress τ σ ρ) (tokens : List Token) (terminal : τ) : Progress τ σ ρ :=
  { progress with pending := some ⟨tokens, terminal⟩ }

/-- Empties the slot. -/
def claimed (progress : Progress τ σ ρ) : Progress τ σ ρ :=
  { progress with pending := none }

/-- The state after a probe has found something: new lexemes have used up identities. -/
def draw (progress : Progress τ σ ρ) (found : Found) : Progress τ σ ρ :=
  { progress with supply := found.supplyAfter progress.supply }

/-- The tokens in the slot. -/
def pendingTokens (progress : Progress τ σ ρ) : List Token :=
  match progress.pending with
  | none => []
  | some pending => pending.tokens

/-- Writes a moment into the journal. -/
def note (progress : Progress τ σ ρ) (frame : Frame σ ρ) (act : Act τ) : Progress τ σ ρ :=
  { progress with
    journal := ⟨frame, progress.subtrees, progress.pending, act⟩ :: progress.journal }

/-- The moments so far, the earliest first. -/
def moments (progress : Progress τ σ ρ) : List (Moment τ σ ρ) :=
  progress.journal.reverse

/-- Whether all moments so far have come to an end. -/
def ends [Cursor σ] (progress : Progress τ σ ρ) : Bool :=
  progress.moments.all Moment.ends

end Progress

end TreeAlign
