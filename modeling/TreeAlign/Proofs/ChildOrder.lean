import TreeAlign.Proofs.Matching.Underway
import TreeAlign.Proofs.Slot

/-!
# The order of children

Where references are taken for field names, the children of a list are
matched in their order. Within one attempt the routes that sequences without
a missing terminal have resolved are, name by name, the first items of the
list without a gap, or the single node of the field again and again. What a
sequence with a missing terminal resolved does not count: its routes are
dropped, and the resolver is in the state in which the sequence found it. A
restart counts from the first item.

`Itinerary.of` reads the routes off the moments of an attempt, and
`ByName.Follows` says that a resolver's state fits the routes given so far.
Each state gives one more route in order, or none if the name stands for no
child or its list is used up.
-/

namespace TreeAlign

/-- The route starts at the field. -/
def Route.isOf (name : String) : Route → Bool
  | .field key :: _ => key = name
  | _ => false

/-- The route of an item of a list field. -/
def Route.item (name : String) (i : Nat) : Route :=
  [.field name, .index i]

namespace Node

variable {node : Node Token} {routes : List Route}

/-- All routes lead to children of the node. Those into a list are its first items in order, and
those of a field with one node are the field itself. -/
structure InOrder (node : Node Token) (routes : List Route) : Prop where
  reached : ∀ route ∈ routes, ∃ child, node.get? route = some child
  items : ∀ name children, node.field? name = some (.list children) →
    ∃ count, count ≤ children.length ∧
      routes.filter (Route.isOf name) = (List.range count).map (Route.item name)
  single : ∀ name child, node.field? name = some (.node child) →
    ∀ route ∈ routes, route.isOf name → route = [.field name]

/-- After these routes a name stands for no further child: the field is missing, holds a plain
value, or is a list whose items are used up. -/
def Spent (node : Node Token) (routes : List Route) (name : String) : Prop :=
  match node.field? name with
  | some (.node _) => False
  | some (.list children) => routes.countP (Route.isOf name) = children.length
  | some (.value _) | none => True

theorem InOrder.nil (node : Node Token) : node.InOrder [] where
  reached := by simp
  items := fun _ _ _ => ⟨0, Nat.zero_le _, rfl⟩
  single := by simp

/-- The single node of a field may come at any time. -/
theorem InOrder.push_single (h : node.InOrder routes) {name : String} {child : Node Token}
    (field : node.field? name = some (.node child)) : node.InOrder (routes ++ [[.field name]]) where
  reached := by
    have hchild : node.get? [.field name] = some child := by simp [get?, field, Field.follow]
    exact List.forall_mem_append.mpr ⟨h.reached, List.forall_mem_singleton.mpr ⟨child, hchild⟩⟩
  items := by
    intro other children hlist
    obtain ⟨count, hle, hfilter⟩ := h.items other children hlist
    have hne : name ≠ other := by
      rintro rfl
      rw [field] at hlist
      cases hlist
    exact ⟨count, hle, by simp [List.filter_append, hfilter, Route.isOf, hne]⟩
  single := by
    intro other child' hsingle
    refine List.forall_mem_append.mpr ⟨h.single other child' hsingle, ?_⟩
    simp [Route.isOf]

/-- The next item of a list may come. -/
theorem InOrder.push_item (h : node.InOrder routes) {name : String} {children : List (Node Token)}
    (field : node.field? name = some (.list children))
    (left : routes.countP (Route.isOf name) < children.length) :
    node.InOrder (routes ++ [Route.item name (routes.countP (Route.isOf name))]) where
  reached := by
    have hchild : node.get? (Route.item name (routes.countP (Route.isOf name))) =
        some children[routes.countP (Route.isOf name)] := by
      simp [get?, Route.item, field, Field.follow, left]
    exact List.forall_mem_append.mpr ⟨h.reached, List.forall_mem_singleton.mpr ⟨_, hchild⟩⟩
  items := by
    intro other children' hlist
    obtain ⟨count, hle, hfilter⟩ := h.items other children' hlist
    by_cases heq : name = other
    · subst heq
      rw [field] at hlist
      cases hlist
      have hcount : routes.countP (Route.isOf name) = count := by
        rw [List.countP_eq_length_filter, hfilter, List.length_map, List.length_range]
      refine ⟨count + 1, hcount ▸ left, ?_⟩
      simp [List.filter_append, hfilter, hcount, Route.item, Route.isOf, List.range_succ]
    · exact ⟨count, hle, by simp [List.filter_append, hfilter, Route.item, Route.isOf, heq]⟩
  single := by
    intro other child hsingle
    refine List.forall_mem_append.mpr ⟨h.single other child hsingle, ?_⟩
    have hne : name ≠ other := by
      rintro rfl
      rw [field] at hsingle
      cases hsingle
    simp [Route.item, Route.isOf, hne]

end Node

namespace ByName

@[simp] theorem count_give (state : ByName) (name other : String) :
    (state.give name).count other =
      if name = other then state.count name + 1 else state.count other := by
  rw [give, count, count, Keyed.get?_insert]
  split
  · rfl
  · rfl

/-- The state after these routes of the node have been given. -/
structure Follows (state : ByName) (node : Node Token) (routes : List Route) : Prop where
  node_eq : state.node = node
  inOrder : node.InOrder routes
  count_eq : ∀ name children, node.field? name = some (.list children) →
    state.count name = routes.countP (Route.isOf name)

namespace Follows

variable {state after : ByName} {node : Node Token} {routes : List Route} {reference : Token}
  {route : Route}

theorem start (node : Node Token) : (Resolver.byName.start node).Follows node [] :=
  ⟨rfl, .nil node, fun _ _ _ => rfl⟩

/-- A reference is given the next route of its name, and the state follows. -/
theorem resolve (h : state.Follows node routes)
    (resolved : (state.resolve reference).1 = some route) :
    route.isOf reference.value ∧ ¬ node.Spent routes reference.value ∧
      (state.resolve reference).2.Follows node (routes ++ [route]) := by
  obtain ⟨rfl, hinOrder, hcount⟩ := h
  unfold ByName.resolve at resolved ⊢
  cases hfield : state.node.field? reference.value with
  | none => simp [hfield] at resolved
  | some field =>
      cases field with
      | value value => simp [hfield] at resolved
      | node child =>
          simp only [hfield, Option.some.injEq] at resolved ⊢
          subst resolved
          refine ⟨by simp [Route.isOf], by simp [Node.Spent, hfield], rfl,
            hinOrder.push_single hfield, ?_⟩
          intro name children hlist
          have hne : reference.value ≠ name := by
            rintro rfl
            rw [hfield] at hlist
            cases hlist
          simp [hcount name children hlist, Route.isOf, hne]
      | list children =>
          have hhere := hcount _ _ hfield
          by_cases hleft : state.count reference.value < children.length
          · simp only [hfield, if_pos hleft, Option.some.injEq] at resolved ⊢
            subst resolved
            rw [hhere] at hleft ⊢
            refine ⟨by simp [Route.isOf], by simp [Node.Spent, hfield, Nat.ne_of_lt hleft], rfl,
              hinOrder.push_item hfield hleft, ?_⟩
            intro name children' hlist
            by_cases heq : reference.value = name
            · simp [heq, hcount name children' hlist, Route.isOf]
            · simp [heq, hcount name children' hlist, Route.isOf]
          · simp [hfield, hleft] at resolved

/-- A reference is given no route only if its name stands for no further child. -/
theorem spent (h : state.Follows node routes) (unresolved : (state.resolve reference).1 = none) :
    node.Spent routes reference.value := by
  obtain ⟨rfl, hinOrder, hcount⟩ := h
  unfold ByName.resolve at unresolved
  unfold Node.Spent
  cases hfield : state.node.field? reference.value with
  | none => trivial
  | some field =>
      cases field with
      | value value => trivial
      | node child => simp [hfield] at unresolved
      | list children =>
          have hfull : ¬ state.count reference.value < children.length := by
            intro hleft
            simp [hfield, hleft] at unresolved
          obtain ⟨count, hle, hfilter⟩ := hinOrder.items _ _ hfield
          have hcountP := congrArg List.length hfilter
          rw [← List.countP_eq_length_filter, List.length_map, List.length_range,
            ← hcount _ _ hfield] at hcountP
          change List.countP _ _ = _
          rw [← hcount _ _ hfield]
          omega

end Follows

end ByName

variable {τ σ : Type}

/-- The routes that one attempt has resolved. -/
structure Itinerary where
  /-- Those of the sequences that matched. -/
  settled : List Route := []
  /-- Those of the sequence under way. -/
  tentative : List Route := []

namespace Itinerary

/-- The routes after one more moment of the attempt: a reference adds one, a missing terminal drops
those of its sequence, and a reply to the procedure settles what is left. -/
def after (itinerary : Itinerary) : Act τ → Itinerary
  | .descend _ route => { itinerary with tentative := itinerary.tentative ++ [route] }
  | .miss _ => { itinerary with tentative := [] }
  | .step _ _ => ⟨itinerary.settled ++ itinerary.tentative, []⟩
  | _ => itinerary

/-- The routes resolved in the moments of an attempt, the latest moment first. -/
def of : List (Moment τ σ ByName) → Itinerary
  | [] => {}
  | moment :: earlier => (of earlier).after moment.act

/-- All routes in the order in which they were resolved. -/
def all (itinerary : Itinerary) : List Route :=
  itinerary.settled ++ itinerary.tentative

end Itinerary

namespace Act

/-- The procedure gets a reply and goes on. -/
def isReply : Act τ → Bool
  | .step _ _ => true
  | _ => false

/-- A sequence has ended with a missing terminal. -/
def EndsInVain : Act τ → Prop
  | .step .mismatched _ => True
  | .abandon _ => True
  | _ => False

/-- A reference of the given name has been looked up. -/
def LooksUp (name : String) : Act τ → Prop
  | .descend reference _ => reference.value = name
  | .raise (.unresolved _ other) => other = name
  | _ => False

/-- Nothing is resolved, dropped or settled. -/
def IsAside : Act τ → Prop
  | .pass _ _ | .defer _ | .record _ _ | .finish _ => True
  | .raise (.unresolved _ _) => False
  | .raise _ => True
  | _ => False

theorem IsAside.isReply_eq_false {act : Act τ} (h : act.IsAside) : act.isReply = false := by
  cases act with
  | step _ _ => exact h.elim
  | _ => rfl

theorem IsAside.isBegin_eq_false {act : Act τ} (h : act.IsAside) : act.isBegin = false := by
  cases act with
  | begin => exact h.elim
  | _ => rfl

end Act

/-- The moments are those of one attempt at the node, and the routes they resolve are in order. -/
structure Tracks (path : Ancestry) (attempt : List (Moment τ σ ByName)) : Prop where
  path_eq : ∀ moment ∈ attempt, moment.frame.path = path
  settled : path.node.InOrder (Itinerary.of attempt).settled
  all : path.node.InOrder (Itinerary.of attempt).all

/-- What holds at a moment of an attempt, after the earlier moments of the attempt. -/
structure Moment.InTurn (moment : Moment τ σ ByName) (earlier : List (Moment τ σ ByName)) :
    Prop where
  tracks : Tracks moment.frame.path (moment :: earlier)
  /-- An attempt begins with no item given. -/
  begins : moment.act = .begin →
    earlier = [] ∧ moment.frame.resolver = Resolver.byName.start moment.frame.path.node
  /-- A sequence in vain leaves the resolver as it was when its command was yielded. -/
  restored : moment.act.EndsInVain →
    ∃ asked, earlier.find? (·.act.isReply) = some asked ∧
      moment.frame.resolver = asked.frame.resolver
  /-- Every route that the resolver may give leads to a child. -/
  leads : ∀ reference route, (moment.frame.resolver.resolve reference).1 = some route →
    ∃ child, moment.frame.path.node.get? route = some child
  /-- A reference is given a route of its name. -/
  named : ∀ reference route, moment.act = .descend reference route → route.isOf reference.value
  /-- A reference has no child exactly if its name is spent. -/
  unresolved : ∀ name, moment.act.LooksUp name →
    ((∃ type, moment.act = .raise (.unresolved type name)) ↔
      moment.frame.path.node.Spent (Itinerary.of earlier).all name)

/-- Every moment is in turn, after the earlier moments of its attempt. -/
def AllInTurn : List (Moment τ σ ByName) → Prop
  | [] => True
  | moment :: older =>
    (∃ earlier, underway moment.frame.path.depth (moment :: older) = moment :: earlier ∧
      moment.InTurn earlier) ∧ AllInTurn older

theorem AllInTurn.of_append {newer older : List (Moment τ σ ByName)}
    (h : AllInTurn (newer ++ older)) : AllInTurn older := by
  induction newer with
  | nil => exact h
  | cons moment rest ih => exact ih h.2

namespace Tracks

variable {path : Ancestry} {attempt : List (Moment τ σ ByName)} {frame : Frame σ ByName}
  {subtrees : Subtrees} {pending : Option (Pending τ)}

theorem nil (path : Ancestry) : Tracks path ([] : List (Moment τ σ ByName)) :=
  ⟨by simp, .nil _, .nil _⟩

/-- A moment that leaves the routes in order joins the attempt. -/
theorem cons (h : Tracks path attempt) {moment : Moment τ σ ByName}
    (path_eq : moment.frame.path = path)
    (settled : path.node.InOrder ((Itinerary.of attempt).after moment.act).settled)
    (all : path.node.InOrder ((Itinerary.of attempt).after moment.act).all) :
    Tracks path (moment :: attempt) :=
  ⟨List.forall_mem_cons.mpr ⟨path_eq, h.path_eq⟩, settled, all⟩

end Tracks

theorem Itinerary.after_of_isAside (itinerary : Itinerary) {act : Act τ} (aside : act.IsAside) :
    itinerary.after act = itinerary := by
  cases act with
  | begin | step _ _ | descend _ _ | miss _ => exact aside.elim
  | _ => rfl

namespace Moment.InTurn

variable {path : Ancestry} {earlier : List (Moment τ σ ByName)} {frame : Frame σ ByName}
  {subtrees : Subtrees} {pending : Option (Pending τ)}

/-- The resolver of a node knows the node's children. -/
theorem leads_of_node {state : ByName} {node : Node Token} (node_eq : state.node = node)
    (reference : Token) (route : Route) (resolved : (state.resolve reference).1 = some route) :
    ∃ child, node.get? route = some child := by
  subst node_eq
  apply ByName.get?_of_resolve
  exact Prod.ext resolved rfl

theorem begin (node_eq : frame.resolver = Resolver.byName.start frame.path.node) :
    InTurn ⟨frame, subtrees, pending, .begin⟩ ([] : List (Moment τ σ ByName)) where
  tracks := (Tracks.nil _).cons rfl (.nil _) (.nil _)
  begins := fun _ => ⟨rfl, node_eq⟩
  restored := False.elim
  leads := leads_of_node (by rw [node_eq]; rfl)
  named := by simp
  unresolved := fun _ => False.elim

theorem aside (tracks : Tracks path earlier) (path_eq : frame.path = path)
    (node_eq : frame.resolver.node = path.node) {act : Act τ} (isAside : act.IsAside) :
    InTurn ⟨frame, subtrees, pending, act⟩ earlier where
  tracks := by
    subst path_eq
    have hafter := (Itinerary.of earlier).after_of_isAside isAside
    apply tracks.cons rfl
    · simpa only [hafter] using tracks.settled
    · simpa only [hafter] using tracks.all
  begins := by
    rintro rfl
    exact isAside.elim
  restored := by
    cases act with
    | step _ _ | abandon _ => exact isAside.elim
    | _ => exact False.elim
  leads := leads_of_node (path_eq ▸ node_eq)
  named := by
    rintro _ _ rfl
    exact isAside.elim
  unresolved := by
    intro name hlook
    cases act with
    | raise failure =>
        cases failure with
        | unresolved _ _ => exact isAside.elim
        | _ => exact hlook.elim
    | descend _ _ => exact isAside.elim
    | _ => exact hlook.elim

/-- A terminal is missing, and what its sequence resolved is dropped. -/
theorem miss (tracks : Tracks path earlier) (path_eq : frame.path = path)
    (node_eq : frame.resolver.node = path.node) (terminal : τ) :
    InTurn ⟨frame, subtrees, pending, .miss terminal⟩ earlier where
  tracks := by
    subst path_eq
    refine tracks.cons rfl tracks.settled ?_
    rw [Itinerary.after, Itinerary.all, List.append_nil]
    exact tracks.settled
  begins := by simp
  restored := False.elim
  leads := leads_of_node (path_eq ▸ node_eq)
  named := by simp
  unresolved := fun _ => False.elim

/-- The procedure gets a reply. -/
theorem step (tracks : Tracks path earlier) (path_eq : frame.path = path)
    (node_eq : frame.resolver.node = path.node) {reply : Reply} (command : Option (Command τ))
    (restored : reply = .mismatched → ∃ asked, earlier.find? (·.act.isReply) = some asked ∧
      frame.resolver = asked.frame.resolver) :
    InTurn ⟨frame, subtrees, pending, .step reply command⟩ earlier where
  tracks := by
    subst path_eq
    refine tracks.cons rfl tracks.all ?_
    rw [Itinerary.after, Itinerary.all, List.append_nil]
    exact tracks.all
  begins := by simp
  restored := by
    intro hvain
    cases reply with
    | mismatched => exact restored rfl
    | proceed | matched _ => exact hvain.elim
  leads := leads_of_node (path_eq ▸ node_eq)
  named := by simp
  unresolved := fun _ => False.elim

/-- The attempt is given up. -/
theorem abandon (tracks : Tracks path earlier) (path_eq : frame.path = path)
    (node_eq : frame.resolver.node = path.node) (terminal : String)
    (restored : ∃ asked, earlier.find? (·.act.isReply) = some asked ∧
      frame.resolver = asked.frame.resolver) :
    InTurn ⟨frame, subtrees, pending, .abandon terminal⟩ earlier where
  tracks := by
    subst path_eq
    exact tracks.cons rfl tracks.settled tracks.all
  begins := by simp
  restored := fun _ => restored
  leads := leads_of_node (path_eq ▸ node_eq)
  named := by simp
  unresolved := fun _ => False.elim

/-- A reference is given the next route of its name. -/
theorem descend (tracks : Tracks path earlier) (path_eq : frame.path = path)
    (follows : frame.resolver.Follows path.node (Itinerary.of earlier).all) {reference : Token}
    {route : Route} (resolved : (frame.resolver.resolve reference).1 = some route) :
    InTurn ⟨frame, subtrees, pending, .descend reference route⟩ earlier := by
  subst path_eq
  obtain ⟨hnamed, hleft, hafter⟩ := follows.resolve resolved
  rw [Itinerary.all, List.append_assoc] at hafter
  exact {
    tracks := tracks.cons rfl tracks.settled hafter.inOrder
    begins := by simp
    restored := False.elim
    leads := leads_of_node follows.node_eq
    named := by
      rintro _ _ ⟨⟩
      exact hnamed
    unresolved := by
      rintro _ rfl
      exact iff_of_false (by simp) hleft }

/-- A reference has no child left. -/
theorem unresolved_raise (tracks : Tracks path earlier) (path_eq : frame.path = path)
    (follows : frame.resolver.Follows path.node (Itinerary.of earlier).all) {reference : Token}
    (unresolved : (frame.resolver.resolve reference).1 = none) (type : String) :
    InTurn ⟨frame, subtrees, pending, .raise (.unresolved type reference.value)⟩ earlier where
  tracks := by
    subst path_eq
    exact tracks.cons rfl tracks.settled tracks.all
  begins := by simp
  restored := False.elim
  leads := leads_of_node (path_eq ▸ follows.node_eq)
  named := by simp
  unresolved := by
    rintro _ rfl
    exact iff_of_true ⟨type, rfl⟩ (path_eq ▸ follows.spent unresolved)

end Moment.InTurn

/-- The journal of a match is in turn, and so is the attempt under way at the node. -/
structure InTurn (path : Ancestry) (journal : List (Moment τ σ ByName)) : Prop where
  all : AllInTurn journal
  tracks : Tracks path (underway path.depth journal)

namespace InTurn

variable {path : Ancestry} {progress : Progress τ σ ByName} (frame : Frame σ ByName)

/-- A moment of the attempt that is in turn joins it. -/
theorem note (h : InTurn path progress.journal) (path_eq : frame.path = path) {act : Act τ}
    (inner : act.isBegin = false)
    (inTurn : Moment.InTurn ⟨frame, progress.subtrees, progress.pending, act⟩
      (underway path.depth progress.journal)) : InTurn path (progress.note frame act).journal := by
  subst path_eq
  have hunderway := underway_note progress frame rfl inner
  refine ⟨⟨⟨_, hunderway, inTurn⟩, h.all⟩, ?_⟩
  rw [hunderway]
  exact inTurn.tracks

theorem aside (h : InTurn path progress.journal) (path_eq : frame.path = path)
    (node_eq : frame.resolver.node = path.node) (act : Act τ) (isAside : act.IsAside) :
    InTurn path (progress.note frame act).journal :=
  h.note frame path_eq isAside.isBegin_eq_false (.aside h.tracks path_eq node_eq isAside)

/-- A new attempt begins. -/
theorem begin (all : AllInTurn progress.journal) (path_eq : frame.path = path)
    (resolver_eq : frame.resolver = Resolver.byName.start path.node) :
    InTurn path (progress.note frame .begin).journal := by
  subst path_eq
  have hunderway := underway_note_begin progress frame rfl
  refine ⟨⟨⟨[], hunderway, .begin resolver_eq⟩, all⟩, ?_⟩
  rw [hunderway]
  exact (Moment.InTurn.begin resolver_eq).tracks

end InTurn

/-- The procedure of the node waits for a reply: the resolver follows the settled routes, and is
as it was when the command was yielded. -/
structure Asks (path : Ancestry) (resolver : ByName)
    (attempt : List (Moment τ σ ByName)) : Prop where
  follows : resolver.Follows path.node (Itinerary.of attempt).settled
  asked : ∃ asked, attempt.find? (·.act.isReply) = some asked ∧ resolver = asked.frame.resolver

namespace Asks

variable {path : Ancestry} {resolver : ByName} {attempt : List (Moment τ σ ByName)}
  {moment : Moment τ σ ByName}

/-- The command stays the same until the procedure gets a reply. -/
theorem cons (h : Asks path resolver attempt)
    (settled : ((Itinerary.of attempt).after moment.act).settled =
      (Itinerary.of attempt).settled)
    (silent : moment.act.isReply = false) : Asks path resolver (moment :: attempt) where
  follows := by
    rw [Itinerary.of, settled]
    exact h.follows
  asked := by
    rw [List.find?_cons_of_neg (by simp [silent])]
    exact h.asked

theorem aside (h : Asks path resolver attempt) (isAside : moment.act.IsAside) :
    Asks path resolver (moment :: attempt) := by
  apply h.cons _ isAside.isReply_eq_false
  rw [Itinerary.after_of_isAside _ isAside]

/-- With no sequence under way, the settled routes are all there are. -/
theorem follows_all (h : Asks path resolver attempt)
    (settled : (Itinerary.of attempt).tentative = []) :
    resolver.Follows path.node (Itinerary.of attempt).all := by
  rw [Itinerary.all, settled, List.append_nil]
  exact h.follows

end Asks

/-- A sequence is under way at the node. The node's own resolver waits, and that of the sequence
follows all routes. -/
structure Tries (path : Ancestry) (own tried : ByName) (journal : List (Moment τ σ ByName)) :
    Prop where
  inTurn : InTurn path journal
  asks : Asks path own (underway path.depth journal)
  follows : tried.Follows path.node (Itinerary.of (underway path.depth journal)).all

namespace Tries

variable {path : Ancestry} {own tried : ByName} {progress : Progress τ σ ByName}

theorem aside (h : Tries path own tried progress.journal) (frame : Frame σ ByName)
    (path_eq : frame.path = path) (node_eq : frame.resolver.node = path.node) (act : Act τ)
    (isAside : act.IsAside) : Tries path own tried (progress.note frame act).journal where
  inTurn := h.inTurn.aside frame path_eq node_eq act isAside
  asks := by
    rw [underway_note _ _ path_eq isAside.isBegin_eq_false]
    exact h.asks.aside isAside
  follows := by
    rw [underway_note _ _ path_eq isAside.isBegin_eq_false, Itinerary.of,
      Itinerary.after_of_isAside _ isAside]
    exact h.follows

/-- A reference is resolved, and the sequence goes on in the state after it. -/
theorem descend {frame : Frame σ ByName} {reference : Token} {route : Route}
    (h : Tries path own frame.resolver progress.journal) (path_eq : frame.path = path)
    (resolved : (frame.resolver.resolve reference).1 = some route) :
    Tries path own (frame.resolver.resolve reference).2
      (progress.note frame (.descend reference route)).journal where
  inTurn := h.inTurn.note _ path_eq rfl (.descend h.inTurn.tracks path_eq h.follows resolved)
  asks := by
    rw [underway_note _ _ path_eq rfl]
    exact h.asks.cons rfl rfl
  follows := by
    have hafter := (h.follows.resolve resolved).2.2
    rw [Itinerary.all, List.append_assoc] at hafter
    rw [underway_note _ _ path_eq rfl]
    exact hafter

/-- The match of a child keeps to itself. -/
theorem opened (h : Tries path own tried progress.journal) {state : Progress τ σ ByName}
    (below : progress.WritesBelow (path.depth + 1) state) (all : AllInTurn state.journal) :
    Tries path own tried state.journal where
  inTurn := ⟨all, below.underway_eq ▸ h.inTurn.tracks⟩
  asks := below.underway_eq ▸ h.asks
  follows := below.underway_eq ▸ h.follows

end Tries

/-- What holds at a stage of a node's match, whose moments are in the journal. -/
def Stage.InTurn (path : Ancestry) : Stage τ σ ByName → List (Moment τ σ ByName) → Prop
  | .idle _ _ frame, journal | .missed _ _ _ frame _ _, journal =>
    TreeAlign.InTurn path journal ∧ Asks path frame.resolver (underway path.depth journal) ∧
      (Itinerary.of (underway path.depth journal)).tentative = []
  | .busy _ _ _ frame _ tried, journal => Tries path frame.resolver tried.resolver journal
  | .ready _, journal | .stuck _ _, journal => TreeAlign.InTurn path journal
  | .spelled _, journal | .failed _, journal => AllInTurn journal

namespace Aligner

variable [Terminal τ] [Cursor σ] [Reads σ τ] {aligner : Aligner τ ByName} {levels : Nat}
  {path : Ancestry}

/-- Children are matched in turn. -/
def TurnsBelow (aligner : Aligner τ ByName) (σ : Type) [Cursor σ] [Reads σ τ] (levels : Nat)
    (path : Ancestry) : Prop :=
  ∀ node route (cursor : σ) (progress : Progress τ σ ByName), AllInTurn progress.journal →
    underway (Ancestry.child path node route).depth progress.journal = [] →
    (aligner.matchNode levels (.child path node route) cursor progress).Ends
      (fun _ after => AllInTurn after.journal) fun _ after => AllInTurn after.journal

omit [Terminal τ] [Cursor σ] [Reads σ τ] in
theorem resolve_of_childAt? {frame : Frame σ ByName} {reference : Token} {route : Route}
    {node : Node Token} (byName : aligner.resolver = .byName)
    (resolved : childAt? frame (aligner.resolver.resolve frame.resolver reference).1 =
      some (route, node)) : (frame.resolver.resolve reference).1 = some route := by
  rw [byName] at resolved
  exact (childAt?_eq_some resolved).1

omit [Terminal τ] [Cursor σ] [Reads σ τ] in
theorem unresolved_of_childAt? {frame : Frame σ ByName} {reference : Token}
    (byName : aligner.resolver = .byName) (node_eq : frame.resolver.node = frame.path.node)
    (unresolved : childAt? frame (aligner.resolver.resolve frame.resolver reference).1 = none) :
    (frame.resolver.resolve reference).1 = none := by
  have hresolve : aligner.resolver.resolve frame.resolver reference =
      frame.resolver.resolve reference := by rw [byName]; rfl
  rw [hresolve] at unresolved
  cases hroute : (frame.resolver.resolve reference).1 with
  | none => rfl
  | some route =>
      obtain ⟨child, hchild⟩ := Moment.InTurn.leads_of_node node_eq reference route hroute
      rw [hroute, childAt?, hchild] at unresolved
      cases unresolved

theorem Finding.tries {terminal : τ} {tried found : Frame σ ByName} {own : ByName}
    {progress after : Progress τ σ ByName}
    (finding : aligner.Finding (aligner.matchNode levels) terminal tried progress found after)
    (byName : aligner.resolver = .byName) (children : aligner.TurnsBelow σ levels tried.path)
    (h : Tries tried.path own tried.resolver progress.journal) :
    Tries tried.path own found.resolver after.journal := by
  have hnode := h.follows.node_eq
  cases finding with
  | plain _ _ _ =>
      apply Tries.aside
      · exact h
      · rfl
      · exact hnode
      · trivial
  | separator _ _ _ =>
      apply Tries.aside
      · exact Tries.aside h (tried.move _ _) rfl hnode (.defer _) trivial
      · rfl
      · exact hnode
      · trivial
  | @child found reference _ route node _ state _ _ _ resolved matched =>
      have hresolved := resolve_of_childAt? byName resolved
      have hdescend : Tries tried.path own (tried.resolver.resolve reference).2
          ((progress.draw found).note tried (.descend reference route)).journal :=
        h.descend rfl hresolved
      have hall := (children node route _ _ hdescend.inTurn.all
        (underway_note_child _ tried _ node route)).of_done matched
      have hopened := hdescend.opened
        ((aligner.writesBelow_matchNode levels _ _ _).of_done matched) hall
      rw [joined, byName]
      apply Tries.aside
      · exact hopened.aside tried rfl hnode (.record _ _) trivial
      · rfl
      · exact hdescend.follows.node_eq
      · trivial

/-- A sequence that breaks off has broken off in turn. -/
theorem Breaking.inTurn {terminal : τ} {tried : Frame σ ByName} {own : ByName}
    {progress after : Progress τ σ ByName} {failure : Failure}
    (breaking : aligner.Breaking (aligner.matchNode levels) terminal tried progress failure after)
    (byName : aligner.resolver = .byName) (children : aligner.TurnsBelow σ levels tried.path)
    (h : Tries tried.path own tried.resolver progress.journal) : AllInTurn after.journal := by
  cases breaking with
  | @unresolved found reference _ _ _ _ unresolved =>
      have hnone := unresolved_of_childAt? byName h.follows.node_eq unresolved
      have hraise : InTurn tried.path ((progress.draw found).note tried
          (.raise (.unresolved tried.path.node.type reference.value))).journal :=
        InTurn.note _ h.inTurn rfl rfl (.unresolved_raise h.inTurn.tracks rfl h.follows hnone _)
      exact hraise.all
  | @child found reference _ route node _ _ _ _ _ resolved failed =>
      have hresolved := resolve_of_childAt? byName resolved
      have hdescend : Tries tried.path own (tried.resolver.resolve reference).2
          ((progress.draw found).note tried (.descend reference route)).journal :=
        h.descend rfl hresolved
      exact (children node route _ _ hdescend.inTurn.all
        (underway_note_child _ tried _ node route)).of_failed failed

omit [Terminal τ] [Cursor σ] [Reads σ τ] in
theorem opening_resolver (byName : aligner.resolver = .byName) (path : Ancestry) (cursor : σ) :
    (aligner.opening path cursor).resolver = Resolver.byName.start path.node := by
  rw [opening, byName]

omit [Terminal τ] [Cursor σ] [Reads σ τ] in
/-- A reply settles the routes, and the next command waits. -/
theorem inTurn_stepped {start : Nat} {frame : Frame σ ByName} {reply : Reply}
    {procedure : Procedure τ} {progress : Progress τ σ ByName} (h : InTurn path progress.journal)
    (path_eq : frame.path = path)
    (follows : frame.resolver.Follows path.node
      (Itinerary.of (underway path.depth progress.journal)).all)
    (restored : reply = .mismatched →
      ∃ asked, (underway path.depth progress.journal).find? (·.act.isReply) = some asked ∧
        frame.resolver = asked.frame.resolver) :
    (Stage.idle start procedure frame).InTurn path
      (stepped frame reply procedure progress).journal := by
  refine ⟨h.note _ path_eq rfl (.step h.tracks path_eq follows.node_eq _ restored), ?_, ?_⟩
  · rw [stepped, underway_note _ _ path_eq rfl]
    exact ⟨follows, _, rfl, rfl⟩
  · rw [stepped, underway_note _ _ path_eq rfl]
    rfl

omit [Terminal τ] [Cursor σ] [Reads σ τ] in
/-- A missing terminal drops the routes of its sequence, and the command waits for its answer. -/
theorem inTurn_missed {start : Nat} {command : Command τ}
    {next : Reply → Subtrees → Procedure τ} {frame tried : Frame σ ByName} {terminal : τ}
    {progress : Progress τ σ ByName}
    (h : Tries path frame.resolver tried.resolver progress.journal) (path_eq : tried.path = path) :
    (Stage.missed start command next frame terminal tried).InTurn path
      (progress.note tried (.miss terminal)).journal := by
  refine ⟨h.inTurn.note _ path_eq rfl (.miss h.inTurn.tracks path_eq h.follows.node_eq _), ?_, ?_⟩
  · rw [underway_note _ _ path_eq rfl]
    exact h.asks.cons rfl rfl
  · rw [underway_note _ _ path_eq rfl]
    rfl

/-- Every step of the attempts at a node is in turn. -/
theorem keeps_inTurn (byName : aligner.resolver = .byName)
    (children : aligner.TurnsBelow σ levels path) :
    aligner.Keeps (aligner.matchNode levels) path
      fun (stage : Stage τ σ ByName) progress => stage.InTurn path progress.journal := by
  constructor
  intro stage later progress after h hat step
  have hopening := fun cursor : σ => opening_resolver byName path cursor
  have hnode : ∀ cursor : σ, (aligner.opening path cursor).resolver.node = path.node := by
    intro cursor
    rw [hopening]
    rfl
  cases step with
  | @begin cursor _ _ _ =>
      have hbegin : InTurn path (progress.note (aligner.opening path cursor) .begin).journal :=
        .begin _ h.all rfl (hopening cursor)
      have hunderway : underway path.depth (progress.note (aligner.opening path cursor)
          .begin).journal = _ := underway_note_begin progress (aligner.opening path cursor) rfl
      refine inTurn_stepped hbegin rfl ?_ (by simp)
      rw [hunderway, hopening]
      exact .start path.node
  | @unknown cursor _ _ =>
      have hbegin : InTurn path (progress.note (aligner.opening path cursor) .begin).journal :=
        .begin _ h.all rfl (hopening cursor)
      exact (hbegin.aside _ rfl (hnode cursor) (.raise (.unknownType _)) trivial).all
  | finish => exact (h.1.aside _ hat h.2.1.follows.node_eq (.finish _) trivial).all
  | emit => exact inTurn_stepped h.1 hat (h.2.1.follows_all h.2.2) (by simp)
  | look _ => exact ⟨h.1, h.2.1, h.2.1.follows_all h.2.2⟩
  | find finding =>
      obtain ⟨_, rfl⟩ := hat
      exact finding.tries byName children h
  | miss missing =>
      cases missing with
      | nothing => exact inTurn_missed h hat.2
      | void _ _ => exact inTurn_missed h hat.2
  | breaks breaking =>
      obtain ⟨_, rfl⟩ := hat
      exact breaking.inTurn byName children h
  | offered => exact inTurn_stepped h.inTurn hat.2 h.follows (by simp)
  | taken => exact inTurn_stepped h.inTurn hat.2 h.follows (by simp)
  | declined => exact inTurn_stepped h.1 hat.1 (h.2.1.follows_all h.2.2) fun _ => h.2.1.asked
  | abandon =>
      obtain ⟨hinTurn, hasks, _⟩ := h
      apply InTurn.note
      · exact hinTurn
      · exact hat.1
      · rfl
      · apply Moment.InTurn.abandon hinTurn.tracks
        · exact hat.1
        · exact hasks.follows.node_eq
        · exact hasks.asked
  | again _ => exact h
  | @giveUp _ cursor _ _ _ =>
      exact (h.aside _ rfl (hnode cursor) (.raise (.parsing _ _ _ _ _)) trivial).all

/-- A match of a node is in turn. -/
theorem inTurn_matchNode (byName : aligner.resolver = .byName) (levels : Nat) {path : Ancestry}
    (cursor : σ) {progress : Progress τ σ ByName} (all : AllInTurn progress.journal)
    (idle : underway path.depth progress.journal = []) :
    (aligner.matchNode levels path cursor progress).Ends
      (fun _ after => AllInTurn after.journal) fun _ after => AllInTurn after.journal := by
  induction levels generalizing path cursor progress with
  | zero =>
      have hinTurn : InTurn path progress.journal := ⟨all, idle ▸ .nil path⟩
      have hnode : (aligner.opening path cursor).resolver.node = path.node := by
        rw [opening_resolver byName]
        rfl
      exact (hinTurn.aside _ rfl hnode (.raise (.tooDeep _ _)) trivial).all
  | succ levels ih =>
      have hchildren : aligner.TurnsBelow σ levels path :=
        fun _ _ cursor _ hall hidle => ih cursor hall hidle
      have hready : InTurn path progress.journal := ⟨all, idle ▸ .nil path⟩
      exact (keeps_inTurn byName hchildren).restart hready

theorem inTurn_run (byName : aligner.resolver = .byName) (root : Node Token) (cursor : σ)
    (supply : Nat) : AllInTurn (aligner.run root cursor supply).2.journal := by
  have hstart : AllInTurn ({ supply } : Progress τ σ ByName).journal := trivial
  have hidle : underway (Ancestry.root root).depth
      ({ supply } : Progress τ σ ByName).journal = [] := rfl
  have hmatch := inTurn_matchNode byName (aligner.limits.maxDepth + 1) cursor hstart hidle
  rcases run_ends hmatch with ⟨_, after, hrun, hall⟩ | ⟨_, after, hrun, hall⟩
  · rw [hrun]
    exact hall
  · rw [hrun]
    exact hall

/-- Where references are taken for field names, every moment of a match is in turn after the
earlier moments of its attempt, and those go back to the attempt's own beginning. -/
theorem run_takes_children_in_turn (byName : aligner.resolver = .byName) (root : Node Token)
    (cursor : σ) (supply : Nat) (before after : List (Moment τ σ ByName))
    (moment : Moment τ σ ByName)
    (split : (aligner.run root cursor supply).2.moments = before ++ moment :: after) :
    ∃ earlier, underway moment.frame.path.depth (moment :: before.reverse) = moment :: earlier ∧
      moment.InTurn earlier := by
  have hall := inTurn_run byName root cursor supply
  rw [journal_of_moments split, List.reverse_cons, List.append_assoc] at hall
  exact hall.of_append.1

/-- A list of two items and a single node beside it. -/
def twoItems : Node Token :=
  ⟨"Call", [("items", .list [⟨"Name", [], none, none⟩, ⟨"Name", [], none, none⟩]),
    ("tail", .node ⟨"Name", [], none, none⟩)], none, none⟩

/-- A call offers an item with a semicolon, then takes the items with the tail in between, and asks
for one item too many. -/
def twoItemsAligner : Aligner Stock ByName where
  grammar := ⟨[("Call", fun _ _ => .script [.offer [.reference "items", .punctuator ";"],
      .take [.reference "items", .reference "tail"], .offer [.reference "items"],
      .take [.reference "items"]]),
    ("Name", fun _ _ => .script [.take [.punctuator "a"]])]⟩
  resolver := .byName

/-- The semicolon is missing, so the first item is matched twice and counts once. The list is used
up when the last command asks for a third item. -/
theorem run_takes_children_in_turn_twoItems :
    ∃ before moment earlier,
      (twoItemsAligner.run twoItems (Input.text (.whole "aaaaa".toList)) 0).2.moments =
        before ++ [moment] ∧
      underway moment.frame.path.depth (moment :: before.reverse) = moment :: earlier ∧
      (Itinerary.of (moment :: earlier)).settled =
        [Route.item "items" 0, [.field "tail"], Route.item "items" 1] ∧
      moment.InTurn earlier := by
  have hdepth : (twoItemsAligner.run twoItems
      (Input.text (.whole "aaaaa".toList)) 0).2.journal.head?.map (·.frame.path.depth) = some 0 := by
    decide +kernel
  have hsettled : (Itinerary.of (underway 0 (twoItemsAligner.run twoItems
      (Input.text (.whole "aaaaa".toList)) 0).2.journal)).settled =
      [Route.item "items" 0, [.field "tail"], Route.item "items" 1] := by
    decide +kernel
  obtain ⟨moment, hhead, hdepth⟩ := Option.map_eq_some_iff.mp hdepth
  obtain ⟨older, hjournal⟩ := List.head?_eq_some_iff.mp hhead
  have hsplit : (twoItemsAligner.run twoItems (Input.text (.whole "aaaaa".toList)) 0).2.moments =
      older.reverse ++ [moment] := by
    rw [Progress.moments, hjournal, List.reverse_cons]
  obtain ⟨earlier, hunderway, hturn⟩ := run_takes_children_in_turn rfl twoItems
    (Input.text (.whole "aaaaa".toList)) 0 _ [] moment hsplit
  refine ⟨older.reverse, moment, earlier, hsplit, hunderway, ?_, hturn⟩
  rw [← hunderway, hdepth, List.reverse_reverse, ← hjournal]
  exact hsettled

end Aligner

end TreeAlign
