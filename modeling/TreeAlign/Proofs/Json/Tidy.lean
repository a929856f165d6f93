import TreeAlign.Tree.Json

/-!
# Values without repeated keys

Sorting a list of named values gives increasing names. If no name is
repeated, sorting only changes the order of the pairs, so what is found
under a name stays the same. A JSON value in which no object repeats a key,
at any level, therefore loses nothing when it is made tidy, and a tidy value
stays as it is.
-/

namespace TreeAlign

namespace Keyed

variable {α β : Type}

/-- The names of the pairs are in increasing order. -/
def Increasing (pairs : List (String × α)) : Prop :=
  pairs.Pairwise fun a b => a.1 < b.1

/-- No two pairs have the same name. -/
def Once (pairs : List (String × α)) : Prop := (pairs.map Prod.fst).Nodup

theorem once_cons {pair : String × α} {pairs : List (String × α)} :
    Once (pair :: pairs) ↔ pair.1 ∉ pairs.map Prod.fst ∧ Once pairs :=
  List.nodup_cons

theorem Increasing.once {pairs : List (String × α)} (h : Increasing pairs) : Once pairs := by
  refine List.pairwise_map.2 (List.Pairwise.imp ?_ h)
  intro a b hlt heq
  exact String.lt_irrefl _ (heq ▸ hlt)

theorem Once.perm {pairs others : List (String × α)} (h : Once pairs)
    (same : pairs.Perm others) : Once others :=
  (same.map Prod.fst).nodup_iff.1 h

theorem Once.map_snd {pairs : List (String × α)} (h : Once pairs) (f : α → β) :
    Once (pairs.map fun pair => (pair.1, f pair.2)) := by
  rw [Once, List.map_map]
  exact h

theorem mem_insert {name : String} {value : α} {pairs : List (String × α)} {pair : String × α}
    (h : pair ∈ insert name value pairs) : pair = (name, value) ∨ pair ∈ pairs := by
  induction pairs with
  | nil => simpa [insert] using h
  | cons first rest ih =>
      rw [insert] at h
      split at h
      · rcases List.mem_cons.1 h with h | h
        · exact Or.inl h
        · exact Or.inr (List.mem_cons_of_mem _ h)
      · split at h
        · exact List.mem_cons.1 h
        · rcases List.mem_cons.1 h with rfl | h
          · exact Or.inr List.mem_cons_self
          · exact (ih h).imp_right (List.mem_cons_of_mem _)

theorem Increasing.insert {pairs : List (String × α)} (h : Increasing pairs) (name : String)
    (value : α) : Increasing (Keyed.insert name value pairs) := by
  induction pairs with
  | nil => exact List.pairwise_singleton _ _
  | cons first rest ih =>
      obtain ⟨hfirst, hrest⟩ := List.pairwise_cons.1 h
      rw [Keyed.insert]
      split
      · next heq => exact List.pairwise_cons.2 ⟨heq ▸ hfirst, hrest⟩
      · next hne =>
          split
          · next hlt =>
              refine List.pairwise_cons.2 ⟨?_, h⟩
              intro other hother
              rcases List.mem_cons.1 hother with rfl | hother
              · exact hlt
              · exact String.lt_trans hlt (hfirst other hother)
          · next hle =>
              refine List.pairwise_cons.2 ⟨?_, ih hrest⟩
              intro other hother
              rcases mem_insert hother with rfl | hother
              · rcases Std.lt_trichotomy name first.1 with hlt | heq | hgt
                · exact absurd hlt hle
                · exact absurd heq hne
                · exact hgt
              · exact hfirst other hother

/-- A new name only adds its pair. -/
theorem insert_perm {name : String} (value : α) {pairs : List (String × α)}
    (fresh : name ∉ pairs.map Prod.fst) :
    (insert name value pairs).Perm ((name, value) :: pairs) := by
  induction pairs with
  | nil => exact .refl _
  | cons first rest ih =>
      rw [List.map_cons, List.mem_cons, not_or] at fresh
      rw [insert, if_neg fresh.1]
      split
      · exact .refl _
      · exact ((ih fresh.2).cons first).trans (.swap ..)

theorem increasing_sort (pairs : List (String × α)) : Increasing (sort pairs) :=
  List.foldlRecOn pairs _ .nil fun _ sorted pair _ => sorted.insert pair.1 pair.2

theorem mem_of_mem_sort {pairs : List (String × α)} {pair : String × α}
    (h : pair ∈ sort pairs) : pair ∈ pairs := by
  have hall : sort pairs ⊆ pairs := by
    refine List.foldlRecOn (motive := (· ⊆ pairs)) pairs _ (List.nil_subset _) ?_
    intro sorted hsorted next hnext other hother
    rcases mem_insert hother with rfl | hother
    · exact hnext
    · exact hsorted hother
  exact hall h

/-- Sorting rearranges the pairs that it has taken and those that are left. -/
theorem foldl_insert_perm (sorted rest : List (String × α)) (h : Once (sorted ++ rest)) :
    (rest.foldl (fun sorted pair => insert pair.1 pair.2 sorted) sorted).Perm
      (sorted ++ rest) := by
  induction rest generalizing sorted with
  | nil => simp
  | cons pair rest ih =>
      have hmoved : (sorted ++ pair :: rest).Perm ((pair :: sorted) ++ rest) := List.perm_middle
      have honce := h.perm hmoved
      have hfresh : pair.1 ∉ sorted.map Prod.fst := by
        intro hmem
        obtain ⟨other, hother, heq⟩ := List.mem_map.1 hmem
        exact (once_cons.1 honce).1
          (List.mem_map.2 ⟨other, List.mem_append_left _ hother, heq⟩)
      have hinsert := (insert_perm pair.2 hfresh).append_right rest
      exact (ih _ (honce.perm hinsert.symm)).trans (hinsert.trans hmoved.symm)

/-- Sorting pairs of different names only changes their order. -/
theorem Once.sort_perm {pairs : List (String × α)} (h : Once pairs) : (sort pairs).Perm pairs :=
  foldl_insert_perm [] pairs h

theorem Increasing.eq_of_perm {pairs others : List (String × α)} (h : Increasing pairs)
    (h' : Increasing others) (same : pairs.Perm others) : pairs = others :=
  List.Perm.eq_of_pairwise (fun _ _ _ _ hlt hgt => absurd hgt (String.lt_asymm hlt)) h h' same

theorem Increasing.sort_eq {pairs : List (String × α)} (h : Increasing pairs) :
    sort pairs = pairs :=
  (increasing_sort pairs).eq_of_perm h h.once.sort_perm

/-- The order of pairs of different names does not matter to sorting. -/
theorem Once.sort_congr {pairs others : List (String × α)} (h : Once pairs)
    (same : pairs.Perm others) : sort pairs = sort others :=
  (increasing_sort pairs).eq_of_perm (increasing_sort others)
    (h.sort_perm.trans (same.trans (h.perm same).sort_perm.symm))

theorem Once.get?_eq_some_iff {pairs : List (String × α)} (h : Once pairs) {name : String}
    {value : α} : get? name pairs = some value ↔ (name, value) ∈ pairs := by
  induction pairs with
  | nil => simp [get?]
  | cons pair rest ih =>
      obtain ⟨key, first⟩ := pair
      obtain ⟨hkey, hrest⟩ := once_cons.1 h
      rw [get?, List.mem_cons, Prod.mk.injEq]
      split
      · next heq =>
          subst heq
          have hout : (key, value) ∉ rest := fun hmem => hkey (List.mem_map.2 ⟨_, hmem, rfl⟩)
          simp [hout, eq_comm]
      · next hne => simp [ih hrest, Ne.symm hne]

theorem Once.get?_perm {pairs others : List (String × α)} (h : Once pairs)
    (same : pairs.Perm others) (name : String) : get? name pairs = get? name others := by
  refine Option.ext fun value => ?_
  rw [h.get?_eq_some_iff, (h.perm same).get?_eq_some_iff, same.mem_iff]

theorem get?_map_snd (f : α → β) (name : String) (pairs : List (String × α)) :
    get? name (pairs.map fun pair => (pair.1, f pair.2)) = (get? name pairs).map f := by
  induction pairs with
  | nil => rfl
  | cons pair rest ih =>
      rw [List.map_cons, get?, get?, ih]
      split <;> rfl

end Keyed

namespace Json

mutual

/-- No object repeats a key, at any level. -/
def keysOnce : Json → Bool
  | .array items => itemsOnce items
  | .object members => decide (members.map Prod.fst).Nodup && membersOnce members
  | _ => true

/-- No object in a list repeats a key. -/
def itemsOnce : List Json → Bool
  | [] => true
  | item :: rest => keysOnce item && itemsOnce rest

/-- No object in the members' values repeats a key. -/
def membersOnce : List (String × Json) → Bool
  | [] => true
  | (_, value) :: rest => keysOnce value && membersOnce rest

end

theorem keysOnce_array {items : List Json} :
    (array items).keysOnce ↔ ∀ item ∈ items, item.keysOnce := by
  rw [keysOnce]
  induction items with
  | nil => simp [itemsOnce]
  | cons item rest ih => simp [itemsOnce, ih]

theorem keysOnce_object {members : List (String × Json)} :
    (object members).keysOnce ↔ Keyed.Once members ∧ ∀ member ∈ members, member.2.keysOnce := by
  have hvalues : membersOnce members ↔ ∀ member ∈ members, member.2.keysOnce := by
    induction members with
    | nil => simp [membersOnce]
    | cons member rest ih => simp [membersOnce, ih]
  rw [keysOnce, Bool.and_eq_true, decide_eq_true_iff, hvalues, Keyed.Once]

theorem tidyItems_eq_map (items : List Json) : tidyItems items = items.map tidy := by
  induction items with
  | nil => rfl
  | cons item rest ih => rw [tidyItems, ih, List.map_cons]

theorem tidyMembers_eq_map (members : List (String × Json)) :
    tidyMembers members = members.map fun member => (member.1, member.2.tidy) := by
  induction members with
  | nil => rfl
  | cons member rest ih => rw [tidyMembers, ih, List.map_cons]

theorem tidy_array (items : List Json) : (array items).tidy = array (items.map tidy) := by
  rw [tidy, tidyItems_eq_map]

theorem exists_of_mem_tidy_object {members : List (String × Json)} {member : String × Json}
    (h : member ∈ Keyed.sort (tidyMembers members)) :
    ∃ old ∈ members, (old.1, old.2.tidy) = member := by
  have hmapped := Keyed.mem_of_mem_sort h
  rw [tidyMembers_eq_map] at hmapped
  exact List.mem_map.1 hmapped

theorem sizeOf_lt_of_mem_array {items : List Json} {item : Json} (h : item ∈ items) :
    sizeOf item < sizeOf (array items) := by
  have := List.sizeOf_lt_of_mem h
  simp only [array.sizeOf_spec]
  omega

theorem sizeOf_lt_of_mem_object {members : List (String × Json)} {member : String × Json}
    (h : member ∈ members) : sizeOf member.2 < sizeOf (object members) := by
  have := List.sizeOf_lt_of_mem h
  obtain ⟨key, value⟩ := member
  simp only [object.sizeOf_spec, Prod.mk.sizeOf_spec] at *
  omega

/-- A tidy value stays as it is. -/
theorem tidy_tidy (json : Json) : json.tidy.tidy = json.tidy := by
  match json with
  | .array items =>
      simp only [tidy_array, List.map_map, array.injEq, List.map_inj_left]
      intro item hitem
      exact tidy_tidy item
  | .object members =>
      have hfixed : tidyMembers (Keyed.sort (tidyMembers members)) =
          Keyed.sort (tidyMembers members) := by
        refine (tidyMembers_eq_map _).trans ((List.map_congr_left ?_).trans (List.map_id _))
        intro member hmember
        obtain ⟨old, hold, rfl⟩ := exists_of_mem_tidy_object hmember
        exact congrArg (Prod.mk old.1) (tidy_tidy old.2)
      rw [tidy, tidy, hfixed, (Keyed.increasing_sort _).sort_eq]
  | .null | .bool _ | .number _ | .string _ => rfl
termination_by sizeOf json
decreasing_by
  · exact sizeOf_lt_of_mem_array hitem
  · exact sizeOf_lt_of_mem_object hold

/-- A tidy value repeats no key. -/
theorem keysOnce_tidy (json : Json) : json.tidy.keysOnce := by
  match json with
  | .array items =>
      rw [tidy_array, keysOnce_array]
      intro item hitem
      obtain ⟨old, hold, rfl⟩ := List.mem_map.1 hitem
      exact keysOnce_tidy old
  | .object members =>
      rw [tidy, keysOnce_object]
      refine ⟨(Keyed.increasing_sort _).once, ?_⟩
      intro member hmember
      obtain ⟨old, hold, rfl⟩ := exists_of_mem_tidy_object hmember
      exact keysOnce_tidy old.2
  | .null | .bool _ | .number _ | .string _ => rfl
termination_by sizeOf json
decreasing_by
  · exact sizeOf_lt_of_mem_array hold
  · exact sizeOf_lt_of_mem_object hold

@[simp] theorem string?_tidy (json : Json) : json.tidy.string? = json.string? := by
  cases json <;> rfl

@[simp] theorem nat?_tidy (json : Json) : json.tidy.nat? = json.nat? := by
  cases json <;> rfl

/-- A first member counts if its key is not named again. -/
theorem atMostOne?_cons (key name : String) (value : Json) (rest : List (String × Json)) :
    atMostOne? key ((name, value) :: rest) =
      if name = key then
        (atMostOne? key rest).bind fun later => if later.isNone then some (some value) else none
      else atMostOne? key rest := by
  by_cases hname : name = key
  · rw [if_pos hname, atMostOne?, atMostOne?, List.filter_cons_of_pos (by simpa using hname)]
    generalize rest.filter (fun m => m.1 = key) = named
    match named with
    | [] => rfl
    | [_] => rfl
    | _ :: _ :: _ => rfl
  · rw [if_neg hname, atMostOne?, atMostOne?, List.filter_cons_of_neg (by simpa using hname)]

section Members

variable {members : List (String × Json)}

/-- A key that is not repeated is named at most once. -/
theorem atMostOne?_eq_get? (once : Keyed.Once members) (key : String) :
    atMostOne? key members = some (Keyed.get? key members) := by
  induction members with
  | nil => rfl
  | cons member rest ih =>
      obtain ⟨name, value⟩ := member
      obtain ⟨hname, hrest⟩ := Keyed.once_cons.1 once
      rw [atMostOne?_cons, Keyed.get?, ih hrest]
      split
      · next heq =>
          have hnone : Keyed.get? key rest = none := by
            rw [Option.eq_none_iff_forall_ne_some]
            intro later hlater
            exact hname (List.mem_map.2 ⟨_, hrest.get?_eq_some_iff.1 hlater, heq.symm⟩)
          rw [hnone]
          rfl
      · rfl

theorem single?_eq_bind (key : String) (members : List (String × Json)) :
    single? key members = (atMostOne? key members).bind id := by
  rw [single?, atMostOne?]
  generalize members.filter (fun m => m.1 = key) = named
  match named with
  | [] => rfl
  | [_] => rfl
  | _ :: _ :: _ => rfl

theorem single?_eq_get? (once : Keyed.Once members) (key : String) :
    single? key members = Keyed.get? key members := by
  rw [single?_eq_bind, atMostOne?_eq_get? once]
  rfl

theorem once_tidyMembers (once : Keyed.Once members) : Keyed.Once (tidyMembers members) := by
  rw [tidyMembers_eq_map]
  exact once.map_snd tidy

/-- Making the members tidy keeps what is found under a key. -/
theorem get?_tidy (once : Keyed.Once members) (key : String) :
    Keyed.get? key (Keyed.sort (tidyMembers members)) = (Keyed.get? key members).map tidy := by
  have htidied := once_tidyMembers once
  calc
    _ = Keyed.get? key (tidyMembers members) :=
      (htidied.get?_perm htidied.sort_perm.symm key).symm
    _ = _ := by rw [tidyMembers_eq_map, Keyed.get?_map_snd]

end Members

end Json

end TreeAlign
