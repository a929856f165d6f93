import TreeAlign.Spelling

/-!
# Failures

The ways in which a match, a grammar or a configuration can be refused. Each
has a message, a code, and sometimes a hint. Only a parsing failure has a
cause, so a chain of causes ends at the first failure of another kind or
without one.
-/

namespace TreeAlign

/-- Why something was refused. -/
inductive Failure where
  /-- No rule is known for a node type. -/
  | unknownType (type : String)
  /-- A command kind that no grammar has. -/
  | unknownCommand (kind : String)
  /-- A reference names no child of the node. -/
  | unresolved (type name : String)
  /-- A required terminal is not there and no other input is left. -/
  | parsing (type terminal : String) (medium : Medium) (position : Nat)
      (cause : Option Failure)
  /-- A cursor has no other input to offer. -/
  | noFallback (medium : Medium) (reason : String)
  /-- The children are nested too deep. -/
  | tooDeep (limit : Nat) (type : String)
  /-- The limits cannot be read. -/
  | badLimits (message : String)

namespace Failure

/-- The message for a reader. -/
def message : Failure → String
  | .unknownType type => s!"unknown node of type `{type}`"
  | .unknownCommand kind => s!"unknown command kind `{kind}`"
  | .unresolved type name => s!"reference `{name}` does not resolve to a child of `{type}`"
  | .parsing type terminal medium position _ =>
    s!"parsing failed: `{type}` expected {terminal} at {medium.name} position {position}"
  | .noFallback medium reason => s!"no fallback from {medium.name} source: {reason}"
  | .tooDeep limit type => s!"match depth limit of {limit} exceeded at `{type}`"
  | .badLimits message => s!"invalid match configuration: {message}"

/-- The code by which a report is found. -/
def code : Failure → String
  | .unknownType _ => "cstmatch::unknown_node_type"
  | .unknownCommand _ => "cstmatch::unknown_command_kind"
  | .unresolved _ _ => "cstmatch::unresolved_reference"
  | .parsing _ _ _ _ _ => "cstmatch::parsing_failure"
  | .noFallback _ _ => "cstmatch::no_fallback"
  | .tooDeep _ _ => "cstmatch::depth_limit"
  | .badLimits _ => "cstmatch::invalid_config"

/-- What a user can do about it. -/
def hint? : Failure → Option String
  | .unknownType type => some s!"register a grammar for `{type}` in the grammar table"
  | .unknownCommand _ => some "grammars may only yield `emit`, `match` or `take` commands"
  | .tooDeep _ _ => some "raise `max_depth` in the match configuration"
  | _ => none

/-- The one kind of failure that another input may mend. -/
def isRetryable : Failure → Bool
  | .parsing _ _ _ _ _ => true
  | _ => false

/-- The chain of causes, the nearest first. -/
def causes : Failure → List Failure
  | .parsing _ _ _ _ (some cause) => cause :: cause.causes
  | _ => []

/-- The failure at the end of the chain of causes. -/
def rootCause : Failure → Failure
  | .parsing _ _ _ _ (some cause) => cause.rootCause
  | failure => failure

end Failure

end TreeAlign
