import TreeAlign.Failure
import TreeAlign.Tree.Json

/-!
# Limits of a match

How deep the children of a node may be nested, and how often one node may
start again on another input. Both are read from JSON, where a missing
member means the default.
-/

namespace TreeAlign

/-- The limits of one match. -/
structure Limits where
  maxDepth : Nat := 512
  maxFallbacks : Nat := 4
deriving DecidableEq, Repr

namespace Limits

/-- A limit that may be missing. -/
def limitOr (default : Nat) : Option Json → Option Nat
  | none => some default
  | some json => json.nat?

/-- The limits that a record stands for. -/
def ofJson? : Json → Option Limits
  | .object members => do
    let depth ← limitOr ({} : Limits).maxDepth (← Json.atMostOne? "max_depth" members)
    let fallbacks ← limitOr ({} : Limits).maxFallbacks (← Json.atMostOne? "max_fallbacks" members)
    some ⟨depth, fallbacks⟩
  | .array [] => some {}
  | .array [depth] => do some { maxDepth := ← depth.nat? }
  | .array [depth, fallbacks] => do some ⟨← depth.nat?, ← fallbacks.nat?⟩
  | _ => none

/-- What reading the limits looks at. -/
def shape : Json.Shape :=
  .record [("max_depth", .any), ("max_fallbacks", .any)]

/-- The limits that a JSON text stands for. -/
def ofText (text : String) : Except Failure Limits :=
  match (Json.ofText? shape text).bind ofJson? with
  | some limits => .ok limits
  | none => .error (.badLimits "not a record of two natural numbers")

/-- The limits as a record. -/
def toJson (limits : Limits) : Json :=
  .object [("max_depth", .ofNat limits.maxDepth), ("max_fallbacks", .ofNat limits.maxFallbacks)]

end Limits

end TreeAlign
