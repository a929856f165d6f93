import TreeAlign.Proofs.Json.Tidy

/-!
# Nodes written and read again

A node that was read from a value without repeated keys is written as a
value from which the same node is read. What could go wrong is a field: it
is read as the first of a node, a list of nodes and a plain value that fits,
and its written form does not say which of them it was. The written form of
a node is read as a node. That of a list of nodes is not, since no item of
it is the name of a type. A plain value has been made tidy, and whether a
value can be read as a node or as a list of nodes does not depend on that.
With a repeated key it would: such a record is a plain value, and making it
tidy keeps one of the members.

## Implementation notes

A record of a node can be written by name and by place. `Json.Slots` is what
both have in common, and `ofJson?_eq` says that reading goes through it.
-/

namespace TreeAlign

namespace Json

variable {α : Type}

/-- The members of a node's record. -/
structure Slots where
  type : Json
  fields : Option Json
  range : Option Json
  tokens : Option Json

/-- The slots of a record, which an array fills in order and an object by name. -/
def slots? : Json → Option Slots
  | .array [type] => some ⟨type, none, none, none⟩
  | .array [type, fields] => some ⟨type, fields, none, none⟩
  | .array [type, fields, range] => some ⟨type, fields, range, none⟩
  | .array [type, fields, range, tokens] => some ⟨type, fields, range, tokens⟩
  | .object members => do
    some ⟨← single? "type" members, ← atMostOne? "fields" members, ← atMostOne? "range" members,
      ← atMostOne? "tokens" members⟩
  | _ => none

/-- Every slot in tidy form. -/
def Slots.tidy (slots : Slots) : Slots :=
  ⟨slots.type.tidy, slots.fields.map Json.tidy, slots.range.map Json.tidy,
    slots.tokens.map Json.tidy⟩

theorem slots?_object {members : List (String × Json)} (once : Keyed.Once members) :
    (object members).slots? = (Keyed.get? "type" members).map fun type =>
      ⟨type, Keyed.get? "fields" members, Keyed.get? "range" members,
        Keyed.get? "tokens" members⟩ := by
  simp only [slots?, single?_eq_get? once, atMostOne?_eq_get? once]
  cases Keyed.get? "type" members <;> rfl

theorem slots?_tidy {json : Json} (once : json.keysOnce) :
    json.tidy.slots? = json.slots?.map Slots.tidy := by
  cases json with
  | array items =>
      rw [tidy_array]
      match items with
      | [] | [_] | [_, _] | [_, _, _] | [_, _, _, _] | _ :: _ :: _ :: _ :: _ :: _ => rfl
  | object members =>
      obtain ⟨honce, -⟩ := keysOnce_object.1 once
      rw [tidy, slots?_object (Keyed.increasing_sort _).once, slots?_object honce]
      simp only [get?_tidy honce, Option.map_map]
      rfl
  | _ => rfl

/-- The values directly inside a value. -/
def parts : Json → List Json
  | .array items => items
  | .object members => members.map Prod.snd
  | _ => []

theorem keysOnce_of_mem_parts {json part : Json} (once : json.keysOnce) (h : part ∈ json.parts) :
    part.keysOnce := by
  cases json with
  | array items => exact keysOnce_array.1 once part h
  | object members =>
      obtain ⟨member, hmember, rfl⟩ := List.mem_map.1 h
      exact (keysOnce_object.1 once).2 member hmember
  | _ => exact absurd h List.not_mem_nil

theorem sizeOf_lt_of_mem_parts {json part : Json} (h : part ∈ json.parts) :
    sizeOf part < sizeOf json := by
  cases json with
  | array items => exact sizeOf_lt_of_mem_array h
  | object members =>
      obtain ⟨member, hmember, rfl⟩ := List.mem_map.1 h
      exact sizeOf_lt_of_mem_object hmember
  | _ => exact absurd h List.not_mem_nil

/-- What fills a slot is a part of the record. -/
theorem mem_parts_of_slots? {json part : Json} {slots : Slots} (once : json.keysOnce)
    (h : json.slots? = some slots)
    (hpart : slots.fields = some part ∨ slots.range = some part ∨ slots.tokens = some part) :
    part ∈ json.parts := by
  cases json with
  | array items =>
      match items with
      | [] | _ :: _ :: _ :: _ :: _ :: _ => simp [slots?] at h
      | [_] | [_, _] | [_, _, _] | [_, _, _, _] =>
          cases h
          rcases hpart with hpart | hpart | hpart <;> cases hpart <;> simp [parts]
  | object members =>
      obtain ⟨honce, -⟩ := keysOnce_object.1 once
      rw [slots?_object honce, Option.map_eq_some_iff] at h
      obtain ⟨type, -, rfl⟩ := h
      have hmember : ∃ key, (key, part) ∈ members := by
        rcases hpart with h | h | h
        all_goals exact ⟨_, honce.get?_eq_some_iff.1 h⟩
      obtain ⟨key, hkey⟩ := hmember
      exact List.mem_map.2 ⟨_, hkey, rfl⟩
  | _ => exact absurd h nofun

/-- The values under the fields of a record. -/
def fieldValues (json : Json) : List Json :=
  (json.slots?.bind Slots.fields).elim [] parts

theorem fieldValues_eq_parts {json fields : Json} {slots : Slots} (h : json.slots? = some slots)
    (hfields : slots.fields = some fields) : json.fieldValues = fields.parts := by
  rw [fieldValues, h, Option.bind_some, hfields, Option.elim_some]

theorem keysOnce_and_sizeOf_lt_of_mem_fieldValues {json value : Json} (once : json.keysOnce)
    (h : value ∈ json.fieldValues) : value.keysOnce ∧ sizeOf value < sizeOf json := by
  cases hslots : json.slots? with
  | none => simp [fieldValues, hslots] at h
  | some slots =>
      cases hfields : slots.fields with
      | none => simp [fieldValues, hslots, hfields] at h
      | some fields =>
          have hmem := mem_parts_of_slots? once hslots (.inl hfields)
          rw [fieldValues_eq_parts hslots hfields] at h
          exact ⟨keysOnce_of_mem_parts (keysOnce_of_mem_parts once hmem) h,
            Nat.lt_trans (sizeOf_lt_of_mem_parts h) (sizeOf_lt_of_mem_parts hmem)⟩

/-- Induction along the reading of nodes: from a record to the values under its fields and to the
items of those. -/
theorem induction_fieldValues {motive : Json → Prop}
    (step : ∀ json, json.keysOnce →
      (∀ value ∈ json.fieldValues, motive value ∧ ∀ item ∈ value.parts, motive item) →
      motive json)
    (json : Json) (once : json.keysOnce) : motive json := by
  induction hsize : sizeOf json using Nat.strongRecOn generalizing json with
  | ind size ih =>
      subst hsize
      refine step json once fun value hvalue => ?_
      obtain ⟨honce, hlt⟩ := keysOnce_and_sizeOf_lt_of_mem_fieldValues once hvalue
      refine ⟨ih _ hlt value honce rfl, fun item hitem => ?_⟩
      exact ih _ (Nat.lt_trans (sizeOf_lt_of_mem_parts hitem) hlt) item
        (keysOnce_of_mem_parts honce hitem) rfl

/-- A list is read as before if each of its items is. -/
theorem mapM_map_tidy {read : Json → Option α} {items : List Json}
    (h : ∀ item ∈ items, read item.tidy = read item) :
    (items.map tidy).mapM read = items.mapM read := by
  induction items with
  | nil => rfl
  | cons item rest ih =>
      rw [List.map_cons, List.mapM_cons, List.mapM_cons, h item List.mem_cons_self,
        ih fun other hother => h other (List.mem_cons_of_mem _ hother)]

/-- A list is read back if each of its items is. -/
theorem mapM_map_write {write : α → Json} {read : Json → Option α} {list : List α}
    (h : ∀ a ∈ list, read (write a) = some a) : (list.map write).mapM read = some list := by
  induction list with
  | nil => rfl
  | cons a rest ih =>
      rw [List.map_cons, List.mapM_cons, h a List.mem_cons_self,
        ih fun b hb => h b (List.mem_cons_of_mem _ hb)]
      rfl

theorem elim_map_tidy {slot : Option Json} {read : Json → Option α} (missing : Option α)
    (h : ∀ json, slot = some json → read json.tidy = read json) :
    (slot.map tidy).elim missing read = slot.elim missing read := by
  cases slot with
  | none => rfl
  | some json => exact h json rfl

theorem pair?_tidy (first second : String) {json : Json} (once : json.keysOnce) :
    json.tidy.pair? first second = (json.pair? first second).map (Prod.map tidy tidy) := by
  cases json with
  | array items =>
      rw [tidy_array]
      match items with
      | [] | [_] | [_, _] | _ :: _ :: _ :: _ => rfl
  | object members =>
      obtain ⟨honce, -⟩ := keysOnce_object.1 once
      rw [tidy, pair?, pair?, single?_eq_get? (Keyed.increasing_sort _).once,
        single?_eq_get? (Keyed.increasing_sort _).once, get?_tidy honce, get?_tidy honce,
        single?_eq_get? honce, single?_eq_get? honce]
      cases Keyed.get? first members <;> cases Keyed.get? second members <;> rfl
  | _ => rfl

end Json

namespace Span

theorem optionOfJson?_tidy {json : Json} (once : json.keysOnce) :
    optionOfJson? json.tidy = optionOfJson? json := by
  have hread : ofJson? json.tidy = ofJson? json := by
    rw [ofJson?, ofJson?, Json.pair?_tidy _ _ once]
    cases json.pair? "start" "end" <;> simp
  cases json with
  | null => rfl
  | _ => exact congrArg (Option.map some) hread

end Span

namespace Lexeme

theorem ofJson?_tidy {json : Json} (once : json.keysOnce) : ofJson? json.tidy = ofJson? json := by
  rw [ofJson?, ofJson?, Json.pair?_tidy _ _ once]
  cases json.pair? "kind" "value" <;> simp

theorem listOfJson?_tidy {json : Json} (once : json.keysOnce) :
    listOfJson? json.tidy = listOfJson? json := by
  cases json with
  | array items =>
      rw [Json.tidy_array, listOfJson?, listOfJson?, Json.mapM_map_tidy]
      intro item hitem
      exact ofJson?_tidy (Json.keysOnce_array.1 once item hitem)
  | _ => rfl

theorem listOfJson?_toJson (list : List Lexeme) :
    listOfJson? (.array (list.map toJson)) = some (some list) := by
  have hback : (list.map toJson).mapM ofJson? = some list := Json.mapM_map_write fun _ _ => rfl
  rw [listOfJson?, hback]
  rfl

end Lexeme

/-- The first reading of a field that fits. -/
def Field.ofJson (json : Json) : Field Lexeme :=
  match Node.ofJson? json, json.items?.bind Node.listOf with
  | some child, _ => .node child
  | none, some children => .list children
  | none, none => .value json.tidy

namespace Node

theorem fieldsOf_eq_map (members : List (String × Json)) :
    fieldsOf members = members.map fun member => (member.1, Field.ofJson member.2) := by
  induction members with
  | nil => rfl
  | cons member rest ih =>
      obtain ⟨name, json⟩ := member
      rw [List.map_cons, ← ih, Field.ofJson]
      cases json with
      | array items =>
          rw [fieldsOf]
          cases ofJson? (.array items) <;> cases hlist : listOf items <;> simp [Json.items?, hlist]
      | _ =>
          rw [fieldsOf]
          · cases ofJson? _ <;> rfl
          · simp

/-- The order in which fields are written does not matter. -/
theorem sort_fieldsOf_congr {members others : List (String × Json)} (once : Keyed.Once members)
    (same : members.Perm others) :
    Keyed.sort (fieldsOf members) = Keyed.sort (fieldsOf others) := by
  rw [fieldsOf_eq_map, fieldsOf_eq_map]
  exact (once.map_snd Field.ofJson).sort_congr (same.map _)

theorem listOf_eq_mapM (items : List Json) : listOf items = items.mapM ofJson? := by
  induction items with
  | nil => rfl
  | cons item rest ih =>
      rw [listOf, ih, List.mapM_cons]
      rfl

theorem fieldsJson_eq_map (fields : List (String × Field Lexeme)) :
    fieldsJson fields = fields.map fun field => (field.1, fieldJson field.2) := by
  induction fields with
  | nil => rfl
  | cons field rest ih => rw [fieldsJson, ih, List.map_cons]

theorem listJson_eq_map (nodes : List (Node Lexeme)) : listJson nodes = nodes.map toJson := by
  induction nodes with
  | nil => rfl
  | cons node rest ih => rw [listJson, ih, List.map_cons]

theorem exists_of_mem_listOf {items : List Json} {children : List (Node Lexeme)}
    (h : listOf items = some children) {child : Node Lexeme} (hchild : child ∈ children) :
    ∃ item ∈ items, ofJson? item = some child := by
  induction items generalizing children with
  | nil =>
      cases h
      exact absurd hchild List.not_mem_nil
  | cons item rest ih =>
      simp only [listOf, Option.bind_eq_bind, Option.bind_eq_some_iff] at h
      obtain ⟨first, hfirst, others, hothers, heq⟩ := h
      cases heq
      rcases List.mem_cons.1 hchild with rfl | hchild
      · exact ⟨item, List.mem_cons_self, hfirst⟩
      · obtain ⟨later, hlater, hread⟩ := ih hothers hchild
        exact ⟨later, List.mem_cons_of_mem _ hlater, hread⟩

/-- The fields that an object holds. -/
def fieldsOfJson? (json : Json) : Option (List (String × Field Lexeme)) :=
  json.members?.map fun members => Keyed.sort (fieldsOf members)

/-- The node of a record. -/
def ofSlots? (slots : Json.Slots) : Option (Node Lexeme) := do
  let type ← slots.type.string?
  let fields ← slots.fields.elim (some []) fieldsOfJson?
  let range ← slots.range.elim (some none) Span.optionOfJson?
  let tokens ← slots.tokens.elim (some none) Lexeme.listOfJson?
  some ⟨type, fields, range, tokens⟩

theorem fieldsIn_eq (members : List (String × Json)) :
    fieldsIn members = (Json.atMostOne? "fields" members).bind fun slot =>
      slot.elim (some none) fun json => (fieldsOfJson? json).map some := by
  induction members with
  | nil => rfl
  | cons member rest ih =>
      obtain ⟨key, value⟩ := member
      rw [Json.atMostOne?_cons]
      by_cases hkey : key = "fields"
      · cases value with
        | object fields =>
            rw [fieldsIn, ih, if_pos hkey]
            rcases Json.atMostOne? "fields" rest with _ | _ | later
            · rfl
            · simp [hkey, fieldsOfJson?, Json.members?]
            · cases hlater : fieldsOfJson? later <;> simp [hkey, hlater]
        | _ =>
            rw [fieldsIn]
            · rcases Json.atMostOne? "fields" rest with _ | _ | later <;>
                simp [hkey, fieldsOfJson?, Json.members?]
            · simp
      · rw [if_neg hkey]
        cases value with
        | object fields => simp [fieldsIn, ih, hkey]
        | _ => simp [fieldsIn, ih, hkey]

/-- Reading a node fills the slots of its record and reads each of them. -/
theorem ofJson?_eq (json : Json) : ofJson? json = json.slots?.bind ofSlots? := by
  cases json with
  | object members =>
      rw [ofJson?, Json.slots?, fieldsIn_eq]
      -- Failing is the same whichever slot is looked up first, so the slots are filled one by one.
      rcases Json.single? "type" members with _ | type
      · rfl
      rcases Json.atMostOne? "fields" members with _ | fields
      · simp
      rcases Json.atMostOne? "range" members with _ | range
      · simp
      rcases Json.atMostOne? "tokens" members with _ | tokens
      · cases range <;> simp
      rcases fields with _ | fields
      · cases range <;> cases tokens <;> simp [ofSlots?]
      · cases hfields : fieldsOfJson? fields <;> cases range <;> cases tokens <;>
          simp [ofSlots?, hfields]
  | array items =>
      match items with
      | [] => rfl
      | [type] => simp [ofJson?, Json.slots?, ofSlots?]
      | [type, fields] | [type, fields, range] | [type, fields, range, tokens] =>
          cases fields <;> simp [ofJson?, Json.slots?, ofSlots?, fieldsOfJson?, Json.members?]
      | type :: fields :: _ :: _ :: _ :: _ => cases fields <;> rfl
  | _ => rfl

end Node

namespace Field

theorem ofJson_tidy {json : Json} (hnode : Node.ofJson? json.tidy = Node.ofJson? json)
    (hitems : ∀ item ∈ json.parts, Node.ofJson? item.tidy = Node.ofJson? item) :
    ofJson json.tidy = ofJson json := by
  have hlist : json.tidy.items?.bind Node.listOf = json.items?.bind Node.listOf := by
    cases json with
    | array items =>
        simp only [Json.tidy_array, Json.items?, Option.bind_some, Node.listOf_eq_mapM]
        exact Json.mapM_map_tidy hitems
    | _ => rfl
  rw [ofJson, ofJson, hnode, hlist, Json.tidy_tidy]

end Field

namespace Node

/-- The fields of an object are read from its tidy form as before. -/
theorem fieldsOfJson?_tidy {json : Json} (once : json.keysOnce)
    (hfields : ∀ part ∈ json.parts, Field.ofJson part.tidy = Field.ofJson part) :
    fieldsOfJson? json.tidy = fieldsOfJson? json := by
  cases json with
  | object members =>
      obtain ⟨honce, -⟩ := Json.keysOnce_object.1 once
      have hread : fieldsOf (Json.tidyMembers members) = fieldsOf members := by
        simp only [fieldsOf_eq_map, Json.tidyMembers_eq_map, List.map_map]
        refine List.map_congr_left ?_
        intro member hmember
        exact congrArg (Prod.mk member.1) (hfields _ (List.mem_map.2 ⟨_, hmember, rfl⟩))
      have htidied := Json.once_tidyMembers honce
      have hsorted : Keyed.sort (fieldsOf (Keyed.sort (Json.tidyMembers members))) =
          Keyed.sort (fieldsOf members) :=
        calc
          _ = Keyed.sort (fieldsOf (Json.tidyMembers members)) :=
            (sort_fieldsOf_congr htidied htidied.sort_perm.symm).symm
          _ = _ := congrArg Keyed.sort hread
      rw [Json.tidy, fieldsOfJson?, fieldsOfJson?, Json.members?, Json.members?, Option.map_some,
        Option.map_some, hsorted]
  | _ => rfl

theorem ofSlots?_tidy {slots : Json.Slots}
    (hfields : ∀ json, slots.fields = some json → fieldsOfJson? json.tidy = fieldsOfJson? json)
    (hrange : ∀ json, slots.range = some json → json.keysOnce)
    (htokens : ∀ json, slots.tokens = some json → json.keysOnce) :
    ofSlots? slots.tidy = ofSlots? slots := by
  have hspan := Json.elim_map_tidy (some none) fun json h => Span.optionOfJson?_tidy (hrange json h)
  have hlist := Json.elim_map_tidy (some none) fun json h =>
    Lexeme.listOfJson?_tidy (htokens json h)
  simp only [ofSlots?, Json.Slots.tidy, Json.string?_tidy, Json.elim_map_tidy (some []) hfields,
    hspan, hlist]

/-- Whether a value is a node, and which, does not depend on the order of members. -/
theorem ofJson?_tidy {json : Json} (once : json.keysOnce) : ofJson? json.tidy = ofJson? json := by
  refine Json.induction_fieldValues (motive := fun json => ofJson? json.tidy = ofJson? json) ?_
    json once
  intro json once ih
  rw [ofJson?_eq, ofJson?_eq, Json.slots?_tidy once]
  cases hslots : json.slots? with
  | none => rfl
  | some slots =>
      have honce {part : Json} (hpart : slots.fields = some part ∨ slots.range = some part ∨
          slots.tokens = some part) : part.keysOnce :=
        Json.keysOnce_of_mem_parts once (Json.mem_parts_of_slots? once hslots hpart)
      refine ofSlots?_tidy ?_ (fun _ h => honce (.inr (.inl h))) (fun _ h => honce (.inr (.inr h)))
      intro fields hfields
      refine fieldsOfJson?_tidy (honce (.inl hfields)) ?_
      intro value hvalue
      rw [← Json.fieldValues_eq_parts hslots hfields] at hvalue
      exact Field.ofJson_tidy (ih value hvalue).1 (ih value hvalue).2

/-- The written form of a node repeats no key, and the same node is read from it. -/
structure Stable (node : Node Lexeme) : Prop where
  keysOnce : node.toJson.keysOnce
  read : ofJson? node.toJson = some node

end Node

/-- The written form of a field repeats no key, and the same field is read from it. -/
structure Field.Stable (field : Field Lexeme) : Prop where
  keysOnce : (Node.fieldJson field).keysOnce
  read : Field.ofJson (Node.fieldJson field) = field

namespace Node

theorem slots?_toJson (node : Node Lexeme) :
    node.toJson.slots? = some ⟨.string node.type, some (.object (fieldsJson node.fields)),
      node.range.map Span.toJson,
      node.tokens.map fun list => .array (list.map Lexeme.toJson)⟩ := by
  obtain ⟨type, fields, range, tokens⟩ := node
  cases range <;> cases tokens <;> rfl

theorem fieldsOfJson?_fieldsJson {fields : List (String × Field Lexeme)}
    (increasing : Keyed.Increasing fields) (stable : ∀ field ∈ fields, field.2.Stable) :
    fieldsOfJson? (.object (fieldsJson fields)) = some fields := by
  have hread : fieldsOf (fieldsJson fields) = fields := by
    rw [fieldsOf_eq_map, fieldsJson_eq_map, List.map_map]
    refine (List.map_congr_left ?_).trans (List.map_id _)
    intro field hfield
    exact congrArg (Prod.mk field.1) (stable field hfield).read
  rw [fieldsOfJson?, Json.members?, Option.map_some, hread, increasing.sort_eq]

theorem keysOnce_toJson {node : Node Lexeme} (increasing : Keyed.Increasing node.fields)
    (stable : ∀ field ∈ node.fields, field.2.Stable) : node.toJson.keysOnce := by
  obtain ⟨type, fields, range, tokens⟩ := node
  have hfields : (Json.object (fieldsJson fields)).keysOnce := by
    rw [fieldsJson_eq_map, Json.keysOnce_object]
    refine ⟨increasing.once.map_snd fieldJson, ?_⟩
    intro member hmember
    obtain ⟨field, hfield, rfl⟩ := List.mem_map.1 hmember
    exact (stable field hfield).keysOnce
  have hrange : ∀ span : Span, span.toJson.keysOnce := fun _ => rfl
  have htokens : ∀ list : List Lexeme, (Json.array (list.map Lexeme.toJson)).keysOnce := by
    intro list
    rw [Json.keysOnce_array]
    intro item hitem
    obtain ⟨lexeme, -, rfl⟩ := List.mem_map.1 hitem
    rfl
  have htype : (Json.string type).keysOnce := rfl
  rw [toJson, Json.keysOnce_object]
  cases range <;> cases tokens <;> simp [Keyed.Once, hfields, hrange, htokens, htype]

/-- A list of nodes is not read as a node: no item of it is the name of a type. -/
theorem ofJson?_listJson (children : List (Node Lexeme)) :
    ofJson? (.array (listJson children)) = none := by
  have htype (node : Node Lexeme) : node.toJson.string? = none := by
    obtain ⟨type, fields, range, tokens⟩ := node
    rw [toJson]
    rfl
  rw [ofJson?_eq, listJson_eq_map]
  match children with
  | [] | _ :: _ :: _ :: _ :: _ :: _ => rfl
  | [_] | [_, _] | [_, _, _] | [_, _, _, _] => simp [Json.slots?, ofSlots?, htype]

theorem Stable.of_fields {node : Node Lexeme} (increasing : Keyed.Increasing node.fields)
    (stable : ∀ field ∈ node.fields, field.2.Stable) : node.Stable where
  keysOnce := keysOnce_toJson increasing stable
  read := by
    obtain ⟨type, fields, range, tokens⟩ := node
    have hrange : (range.map Span.toJson).elim (some none) Span.optionOfJson? = some range := by
      cases range <;> rfl
    have htokens : (tokens.map fun list => Json.array (list.map Lexeme.toJson)).elim
        (some none) Lexeme.listOfJson? = some tokens := by
      cases tokens with
      | none => rfl
      | some list => exact Lexeme.listOfJson?_toJson list
    simp only [ofJson?_eq, slots?_toJson, Option.bind_some, ofSlots?, Json.string?,
      Option.elim_some, fieldsOfJson?_fieldsJson increasing stable, hrange, htokens]
    rfl

end Node

namespace Field

theorem stable_node {child : Node Lexeme} (stable : child.Stable) : (Field.node child).Stable where
  keysOnce := stable.keysOnce
  read := by rw [Node.fieldJson, ofJson, stable.read]

theorem stable_list {children : List (Node Lexeme)} (stable : ∀ child ∈ children, child.Stable) :
    (Field.list children).Stable where
  keysOnce := by
    rw [Node.fieldJson, Node.listJson_eq_map, Json.keysOnce_array]
    intro item hitem
    obtain ⟨child, hchild, rfl⟩ := List.mem_map.1 hitem
    exact (stable child hchild).keysOnce
  read := by
    have hlist : Node.listOf (Node.listJson children) = some children := by
      rw [Node.listOf_eq_mapM, Node.listJson_eq_map]
      exact Json.mapM_map_write fun child hchild => (stable child hchild).read
    simp only [Node.fieldJson, ofJson, Node.ofJson?_listJson, Json.items?, Option.bind_some, hlist]

theorem stable_value {json : Json} (once : json.keysOnce) (hnode : Node.ofJson? json = none)
    (hlist : json.items?.bind Node.listOf = none) : (Field.value json.tidy).Stable where
  keysOnce := Json.keysOnce_tidy json
  read := by
    have hfield : ofJson json = .value json.tidy := by
      rw [ofJson, hnode, hlist]
    rw [Node.fieldJson, ← hfield]
    refine ofJson_tidy (Node.ofJson?_tidy once) fun item hitem => ?_
    exact Node.ofJson?_tidy (Json.keysOnce_of_mem_parts once hitem)

theorem stable_ofJson {json : Json} (once : json.keysOnce)
    (hnode : ∀ child, Node.ofJson? json = some child → child.Stable)
    (hitems : ∀ item ∈ json.parts, ∀ child, Node.ofJson? item = some child → child.Stable) :
    (ofJson json).Stable := by
  rw [ofJson]
  split
  · next child hchild => exact stable_node (hnode child hchild)
  · next children _ hlist =>
      refine stable_list fun child hchild => ?_
      cases json with
      | array items =>
          obtain ⟨item, hitem, hread⟩ := Node.exists_of_mem_listOf hlist hchild
          exact hitems item hitem child hread
      | _ => exact absurd hlist nofun
  · next hnone hlist => exact stable_value once hnone hlist

end Field

namespace Node

/-- The fields of a node are in order, each read from a value of the record. -/
theorem fields_of_ofJson? {json : Json} {node : Node Lexeme} (h : ofJson? json = some node) :
    Keyed.Increasing node.fields ∧
      ∀ field ∈ node.fields, ∃ value ∈ json.fieldValues, Field.ofJson value = field.2 := by
  rw [ofJson?_eq, Option.bind_eq_some_iff] at h
  obtain ⟨slots, hslots, h⟩ := h
  simp only [ofSlots?, Option.bind_eq_bind, Option.bind_eq_some_iff] at h
  obtain ⟨type, -, fields, hfields, range, -, tokens, -, heq⟩ := h
  cases heq
  cases hslot : slots.fields with
  | none =>
      rw [hslot] at hfields
      cases hfields
      exact ⟨.nil, fun field hfield => absurd hfield List.not_mem_nil⟩
  | some held =>
      rw [hslot, Option.elim_some, fieldsOfJson?, Option.map_eq_some_iff] at hfields
      obtain ⟨members, hmembers, rfl⟩ := hfields
      refine ⟨Keyed.increasing_sort _, fun field hfield => ?_⟩
      have hmem := Keyed.mem_of_mem_sort hfield
      rw [fieldsOf_eq_map] at hmem
      obtain ⟨member, hmember, rfl⟩ := List.mem_map.1 hmem
      refine ⟨member.2, ?_, rfl⟩
      rw [Json.fieldValues_eq_parts hslots hslot]
      cases held with
      | object _ =>
          cases hmembers
          exact List.mem_map.2 ⟨member, hmember, rfl⟩
      | _ => exact absurd hmembers nofun

/-- A node that was read from a value without repeated keys is stable. -/
theorem stable_of_ofJson? {json : Json} (once : json.keysOnce) {node : Node Lexeme}
    (h : ofJson? json = some node) : node.Stable := by
  refine Json.induction_fieldValues
    (motive := fun json => ∀ node, ofJson? json = some node → node.Stable) ?_ json once node h
  intro json once ih node h
  obtain ⟨hincreasing, hfields⟩ := fields_of_ofJson? h
  refine .of_fields hincreasing fun field hfield => ?_
  obtain ⟨value, hvalue, heq⟩ := hfields field hfield
  have honce := (Json.keysOnce_and_sizeOf_lt_of_mem_fieldValues once hvalue).1
  rw [← heq]
  exact Field.stable_ofJson honce (ih value hvalue).1 (ih value hvalue).2

/-- Reading a node is stable: written, as it is or tidied, it is read as the same node. -/
theorem ofJson?_toJson_of_read (json : Json) (node : Node Lexeme) (once : json.keysOnce)
    (h : ofJson? json = some node) :
    ofJson? node.toJson = some node ∧ ofJson? node.toJson.tidy = some node := by
  have hstable := stable_of_ofJson? once h
  refine ⟨hstable.read, ?_⟩
  rw [ofJson?_tidy hstable.keysOnce]
  exact hstable.read

/-- A call as an array, with a field of every kind. The hint is not a node, since its range ends
before the first position. -/
def mixedCall : Json :=
  .array [.string "Call",
    .object [
      ("name", .array [.string "Name", .object [("id", .string "f")], .array [.ofNat 0, .ofNat 1]]),
      ("args", .array [
        .object [("note", .object []), ("tokens", .null), ("type", .string "Name")],
        .array [.string "Number", .object [], .null,
          .array [.array [.string "digit", .string "1"]]]]),
      ("hint", .object [("type", .string "Name"),
        ("range", .array [.ofNat 0, .number (.negative 1)])]),
      ("flags", .array [.object [("b", .null), ("a", .array [])]]),
      ("rest", .array [])],
    .object [("start", .ofNat 0), ("end", .ofNat 4)]]

/-- The node of the call. -/
def mixedCallNode : Node Lexeme :=
  { type := "Call"
    fields := [
      ("args", .list [{ type := "Name" }, { type := "Number", tokens := some [⟨"digit", "1"⟩] }]),
      ("flags", .value (.array [.object [("a", .array []), ("b", .null)]])),
      ("hint", .value (.object [("range", .array [.ofNat 0, .number (.negative 1)]),
        ("type", .string "Name")])),
      ("name", .node
        { type := "Name", fields := [("id", .value (.string "f"))], range := some ⟨0, 1⟩ }),
      ("rest", .list [])]
    range := some ⟨0, 4⟩ }

theorem ofJson?_toJson_of_read_mixedCall :
    mixedCall.keysOnce ∧ ofJson? mixedCall = some mixedCallNode ∧
      ofJson? mixedCallNode.toJson = some mixedCallNode ∧
      ofJson? mixedCallNode.toJson.tidy = some mixedCallNode := by
  have honce : mixedCall.keysOnce := by decide
  have hread : ofJson? mixedCall = some mixedCallNode := by rfl
  exact ⟨honce, hread, ofJson?_toJson_of_read mixedCall mixedCallNode honce hread⟩

end Node

end TreeAlign
