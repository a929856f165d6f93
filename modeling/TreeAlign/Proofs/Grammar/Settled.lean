import TreeAlign.Proofs.Matching.Taking
import TreeAlign.Proofs.Tree.Attach

/-!
# Grammars with settled demands

The demands of a node are settled when they depend on the tree alone: not on
the tokens attached to it, and not on the children found so far. Two matches
of the same tree then ask for the same terminals, even if one of them reads
attached tokens that the other does not know.
-/

namespace TreeAlign

namespace Procedure

variable {τ : Type}

/-- The procedure makes exactly these demands, whatever children have been found. -/
inductive Takes : List (List τ) → Procedure τ → Prop where
  | done : Takes [] .done
  | take {terminals : List τ} {takes : List (List τ)} {next : Reply → Subtrees → Procedure τ}
      (rest : ∀ subtrees, Takes takes (next .proceed subtrees)) :
      Takes (terminals :: takes) (.yield (.take terminals) next)

theorem Takes.takesOnly {takes : List (List τ)} {procedure : Procedure τ}
    (h : procedure.Takes takes) : procedure.TakesOnly := by
  induction h with
  | done => exact .done
  | take _ ih => exact .take ih

theorem takes_script (takes : List (List τ)) :
    (script (takes.map Command.take)).Takes takes := by
  induction takes with
  | nil => exact .done
  | cons terminals rest ih => exact .take fun _ => ih

end Procedure

namespace Grammar

variable {τ : Type}

/-- All demands depend on the tree alone, and ask for allowed terminals only. -/
def Settled (grammar : Grammar τ) (allowed : τ → Prop) : Prop :=
  ∀ type rule, grammar.rule? type = some rule → ∀ path, ∃ takes,
    (∀ terminals ∈ takes, ∀ terminal ∈ terminals, allowed terminal) ∧
    ∀ subtrees, (rule path subtrees).Takes takes ∧
      ∀ tokensAt, (rule (path.attach tokensAt) subtrees).Takes takes

variable {grammar : Grammar τ} {allowed : τ → Prop}

theorem Settled.takesOnly (settled : grammar.Settled allowed) : grammar.TakesOnly := by
  intro type rule h path subtrees
  obtain ⟨takes, _, htakes⟩ := settled type rule h path
  exact (htakes subtrees).1.takesOnly

/-- A grammar that makes the same demands of all nodes of a type is settled. -/
theorem settled_demanding {demands : List (String × List (List τ))}
    (h : ∀ demand ∈ demands, ∀ terminals ∈ demand.2, ∀ terminal ∈ terminals, allowed terminal) :
    (demanding demands).Settled allowed := by
  intro type rule hrule path
  obtain ⟨demand, hmem, rfl⟩ := rule?_demanding hrule
  exact ⟨demand.2, h demand hmem, fun _ =>
    ⟨Procedure.takes_script _, fun _ => Procedure.takes_script _⟩⟩

theorem takesOnly_demanding (demands : List (String × List (List τ))) :
    (demanding demands).TakesOnly := by
  have hsettled : (demanding demands).Settled fun _ => True :=
    settled_demanding fun _ _ _ _ _ _ => trivial
  exact hsettled.takesOnly

end Grammar

end TreeAlign
