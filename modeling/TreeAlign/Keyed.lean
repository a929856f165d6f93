/-!
# Lists of named values

Lists of pairs in increasing order of their names, one pair for each name.
Names are compared character by character.
-/

namespace TreeAlign.Keyed

variable {α : Type}

/-- The value of the first pair with the given name. -/
def get? (name : String) : List (String × α) → Option α
  | [] => none
  | (key, value) :: rest => if key = name then some value else get? name rest

/-- The value of the last pair with the given name, in a list in any order. -/
def last? (name : String) : List (String × α) → Option α
  | [] => none
  | (key, value) :: rest =>
    match last? name rest with
    | some later => some later
    | none => if key = name then some value else none

/-- Puts a pair in its place; a pair of the same name is replaced. -/
def insert (name : String) (value : α) : List (String × α) → List (String × α)
  | [] => [(name, value)]
  | (key, old) :: rest =>
    if name = key then (name, value) :: rest
    else if name < key then (name, value) :: (key, old) :: rest
    else (key, old) :: insert name value rest

/-- The pairs in order of their names, of equal names the last. -/
def sort (pairs : List (String × α)) : List (String × α) :=
  pairs.foldl (fun sorted pair => insert pair.1 pair.2 sorted) []

/-- Drops the pairs of a name. -/
def erase (name : String) (pairs : List (String × α)) : List (String × α) :=
  pairs.filter fun pair => pair.1 ≠ name

/-- Looking up a name after an insertion finds the inserted value, and for every other name what
was found before. -/
theorem get?_insert (name other : String) (value : α) (pairs : List (String × α)) :
    get? other (insert name value pairs) =
      if name = other then some value else get? other pairs := by
  induction pairs with
  | nil => simp [insert, get?]
  | cons pair rest ih =>
      obtain ⟨key, old⟩ := pair
      by_cases hk : name = key
      · subst hk
        by_cases h : name = other <;> simp [insert, get?, h]
      · by_cases hl : name < key
        · simp [insert, get?, hk, hl]
        · by_cases h : key = other
          · have hne : ¬ name = other := fun e => hk (e.trans h.symm)
            have hlo : ¬ name < other := h ▸ hl
            simp [insert, get?, h, hne, hlo]
          · simp [insert, get?, hk, hl, h, ih]

end TreeAlign.Keyed
