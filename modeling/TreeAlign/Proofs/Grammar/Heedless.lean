import TreeAlign.Grammar.Basic

/-!
# Grammars that do not look at the children

A procedure is resumed with a reply and with the subtrees found so far. It is
heedless when the subtrees never make a difference, so that the replies alone
decide what it asks for. Two matches that differ only in what they have stored
then follow the same procedure.
-/

namespace TreeAlign

variable {τ : Type}

/-- The procedure goes on in the same way, whatever children have been found. -/
inductive Procedure.Heedless : Procedure τ → Prop where
  | done : Heedless .done
  | yield {command : Command τ} {next : Reply → Subtrees → Procedure τ}
      (same : ∀ reply subtrees other, next reply subtrees = next reply other)
      (rest : ∀ reply subtrees, Heedless (next reply subtrees)) :
      Heedless (.yield command next)

theorem Procedure.heedless_script (commands : List (Command τ)) : (script commands).Heedless := by
  induction commands with
  | nil => exact .done
  | cons command rest ih => exact .yield (fun _ _ _ => rfl) fun _ _ => ih

namespace Grammar

/-- No procedure of the grammar looks at the children that have been found. -/
def Heedless (grammar : Grammar τ) : Prop :=
  ∀ type rule, grammar.rule? type = some rule → ∀ path,
    (∀ subtrees other, rule path subtrees = rule path other) ∧
    ∀ subtrees, (rule path subtrees).Heedless

/-- The grammar that gives the same commands for all nodes of a type. -/
def scripted (scripts : List (String × List (Command τ))) : Grammar τ :=
  ⟨scripts.map fun entry => (entry.1, fun _ _ => .script entry.2)⟩

/-- The rule of such a grammar gives its commands one after the other. -/
theorem rule?_scripted {scripts : List (String × List (Command τ))} {type : String} {rule : Rule τ}
    (h : (scripted scripts).rule? type = some rule) :
    ∃ entry ∈ scripts, rule = fun _ _ => .script entry.2 := by
  simp only [rule?, scripted] at h
  induction scripts with
  | nil => exact absurd h (by simp [Keyed.get?])
  | cons entry rest ih =>
      simp only [List.map_cons, Keyed.get?] at h
      split at h
      · cases h
        exact ⟨entry, List.mem_cons_self .., rfl⟩
      · obtain ⟨found, hmem, hrule⟩ := ih h
        exact ⟨found, List.mem_cons_of_mem _ hmem, hrule⟩

theorem heedless_scripted (scripts : List (String × List (Command τ))) :
    (scripted scripts).Heedless := by
  intro type rule hrule path
  obtain ⟨entry, _, rfl⟩ := rule?_scripted hrule
  exact ⟨fun _ _ => rfl, fun _ => Procedure.heedless_script entry.2⟩

end Grammar

end TreeAlign
