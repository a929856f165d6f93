import TreeAlign.Matching.Executor

/-!
# Inspection texts

The full one-line forms of tokens, commands, procedures, grammars, limits
and the state of a match, for the author of a grammar. A form lists the
parts of a value by name; two points at its end say that more is left out.
-/

namespace TreeAlign

namespace Inspect

/-- A named form with its parts. -/
def form (name : String) (parts : List (String × String)) (more : Bool) : String :=
  let items := parts.map (fun part => part.1 ++ ": " ++ part.2) ++ (if more then [".."] else [])
  name ++ " \x7b " ++ ", ".intercalate items ++ " \x7d"

/-- A value that may be missing. -/
def option : Option String → String
  | none => "None"
  | some text => "Some(" ++ text ++ ")"

/-- The form of a token. -/
def token (token : Token) : String :=
  form "Token" [("kind", Text.quoted token.kind), ("value", Text.quoted token.value)] false

/-- The form of a list of tokens. -/
def tokens (list : List Token) : String :=
  Text.bracketed (list.map token)

variable {τ σ ρ : Type} [Terminal τ]

/-- The form of a list of terminals. -/
def terminals (list : List τ) : String :=
  Text.bracketed (list.map Terminal.inspect)

/-- The form of a command. -/
def command : Command τ → String
  | .emit list => "Emit(" ++ tokens list ++ ")"
  | .offer list => "Match(" ++ terminals list ++ ")"
  | .take list => "Take(" ++ terminals list ++ ")"

/-- The form of a procedure: only the command that waits is shown. -/
def procedure (procedure : Procedure τ) : String :=
  form "Coroutine" [("current", option (procedure.command?.map command))] true

/-- The form of a grammar: the types it knows. -/
def grammar (grammar : Grammar τ) : String :=
  form "GrammarTable" [("grammars", Text.bracketed (grammar.types.map Text.quoted))] false

/-- The form of the limits. -/
def limits (limits : Limits) : String :=
  form "MatchConfig"
    [("max_depth", toString limits.maxDepth), ("max_fallbacks", toString limits.maxFallbacks)] false

/-- The form of the tokens in the slot. -/
def pending (pending : Pending τ) : String :=
  form "PendingSeparator"
    [("tokens", tokens pending.tokens), ("descriptor", Terminal.inspect pending.terminal)] false

/-- The form of the state of a match. -/
def progress (aligner : Aligner τ ρ) (progress : Progress τ σ ρ) : String :=
  form "MatchingContext"
    [("grammars", grammar aligner.grammar), ("config", limits aligner.limits),
     ("resolved", toString progress.subtrees.size),
     ("pending", option (progress.pending.map pending))] true

/-- The form of an aligner. -/
def aligner (aligner : Aligner τ ρ) : String :=
  form "Matcher" [("grammars", grammar aligner.grammar), ("config", limits aligner.limits)] true

end Inspect

end TreeAlign
