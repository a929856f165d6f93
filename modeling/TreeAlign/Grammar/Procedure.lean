import TreeAlign.Failure
import TreeAlign.Terminal.Basic

/-!
# Grammar procedures

A procedure says how one node is spelled. It yields commands one at a time,
and is resumed with a reply and with the subtrees found so far. A procedure
is a well-founded tree of commands and continuations, so whatever the
replies are, it yields finitely many commands.
-/

namespace TreeAlign

/-- What a procedure can ask for. -/
inductive Command (τ : Type) where
  /-- Appends tokens; nothing is read. -/
  | emit (tokens : List Token)
  /-- Tries terminals in order, and reports whether all of them were there. -/
  | offer (terminals : List τ)
  /-- The terminals have to be there. -/
  | take (terminals : List τ)

namespace Command

variable {τ : Type} [Terminal τ]

/-- The name of a command's kind. -/
def kind : Command τ → String
  | .emit _ => "emit"
  | .offer _ => "match"
  | .take _ => "take"

/-- The command of the named kind, and the supply that is left. Emitted tokens are the spellings
of the terminals, and get identities from the supply. -/
def ofKind (kind : String) (terminals : List τ) (supply : Nat) :
    Except Failure (Command τ × Nat) :=
  if kind = "emit" then
    let lexemes := terminals.flatMap fun terminal => Terminal.build terminal none
    .ok (.emit (Token.mint supply lexemes), supply + lexemes.length)
  else if kind = "match" then .ok (.offer terminals, supply)
  else if kind = "take" then .ok (.take terminals, supply)
  else .error (.unknownCommand kind)

/-- The commands of the named kinds; the first unknown name is the failure. -/
def ofKinds : List (String × List τ) → Nat → Except Failure (List (Command τ) × Nat)
  | [], supply => .ok ([], supply)
  | (kind, terminals) :: rest, supply =>
    match ofKind kind terminals supply with
    | .error failure => .error failure
    | .ok (command, supply) =>
      match ofKinds rest supply with
      | .error failure => .error failure
      | .ok (commands, supply) => .ok (command :: commands, supply)

end Command

/-- What a procedure is told when it is resumed. -/
inductive Reply where
  /-- Nothing to tell: at the start, and after a command that asks nothing. -/
  | proceed
  /-- An offer was taken up with these tokens. -/
  | matched (tokens : List Token)
  /-- An offer was not taken up. -/
  | mismatched

/-- How one node is spelled, from here on. -/
inductive Procedure (τ : Type) where
  | done
  | yield (command : Command τ) (next : Reply → Subtrees → Procedure τ)

namespace Procedure

variable {τ : Type}

instance : Inhabited (Procedure τ) := ⟨.done⟩

/-- The command that waits for a reply. -/
def command? : Procedure τ → Option (Command τ)
  | .done => none
  | .yield command _ => some command

/-- Nothing is left to do. -/
def isDone (procedure : Procedure τ) : Bool :=
  procedure.command?.isNone

/-- Goes on with a reply; a finished procedure stays finished. -/
def resume (reply : Reply) (subtrees : Subtrees) : Procedure τ → Procedure τ
  | .done => .done
  | .yield _ next => next reply subtrees

/-- Yields the commands in order, whatever the replies are. -/
def script : List (Command τ) → Procedure τ
  | [] => .done
  | command :: rest => .yield command fun _ _ => script rest

end Procedure

end TreeAlign
