import TreeAlign.Proofs.Matching.Retrace
import TreeAlign.Proofs.Matching.Unread

/-!
# Reading an alignment again

The tokens of an alignment are attached to the nodes they were found for,
and the tree is matched again on its own tokens, without the text. The
second match gives the same tokens for every node, as long as each node was
matched once and no node but the root left white space in the slot.

White space in the slot moves from the child that has read it to a node
above, and the child does not find it again in its own tokens. The second
match may then fail, or succeed with tokens left over. In that case its text
is shorter, by what the nodes have left unread.
-/

namespace TreeAlign

namespace Progress

variable {τ σ ρ : Type}

/-- The nodes that were finished, each by its address and with its spelling, the latest first. -/
def finished (progress : Progress τ σ ρ) : List (Route × Spelling) :=
  progress.journal.filterMap fun moment =>
    match moment.act with
    | .finish spelling => some (moment.frame.path.address, spelling)
    | _ => none

theorem Finished.mem_finished {progress : Progress τ σ ρ} {path : Ancestry} {spelling : Spelling}
    {slot : List Token} (h : progress.Finished path spelling slot) :
    (path.address, spelling) ∈ progress.finished := by
  obtain ⟨moment, hmem, rfl, hact, _⟩ := h
  rw [finished, List.mem_filterMap]
  exact ⟨moment, hmem, by rw [hact]⟩

end Progress

namespace Alignment

/-- The tokens that an alignment has for the node at an address, where the finished nodes are
given by their addresses. The root also has what was left in the slot at the end. -/
def tokensAt (alignment : Alignment) (finished : List (Route × Spelling)) (address : Route) :
    Option (List Token) :=
  if address = [] then some alignment.root.tokens
  else (finished.lookup address).map Spelling.tokens

/-- A node that was finished once has the tokens of its spelling. -/
theorem tokensAt_eq_some {alignment : Alignment} {finished : List (Route × Spelling)}
    {address : Route} {spelling : Spelling} (once : (finished.map Prod.fst).Nodup)
    (mem : (address, spelling) ∈ finished) (ne : address ≠ []) :
    alignment.tokensAt finished address = some spelling.tokens := by
  obtain ⟨before, after, rfl⟩ := List.append_of_mem mem
  have hlookup : (before ++ (address, spelling) :: after).lookup address = some spelling := by
    rw [List.lookup_eq_some_iff]
    refine ⟨before, after, rfl, ?_⟩
    intro entry hentry
    rw [List.map_append, List.nodup_append] at once
    have hne := once.2.2 entry.1 (List.mem_map_of_mem hentry) address (by simp)
    simpa using Ne.symm hne
  rw [tokensAt, if_neg ne, hlookup]
  rfl

/-- The finished nodes of a match that finished each node once have their tokens attached. -/
theorem attached_tokensAt {τ σ ρ : Type} (alignment : Alignment) {progress : Progress τ σ ρ}
    (once : (progress.finished.map Prod.fst).Nodup) :
    progress.Attached (alignment.tokensAt progress.finished) := by
  intro path spelling slot hfinished hne
  apply tokensAt_eq_some once _ hne
  exact hfinished.mem_finished

/-- The tree with the tokens of an alignment attached to the nodes they were found for. -/
def annotate (alignment : Alignment) (finished : List (Route × Spelling)) (root : Node Token) :
    Node Token :=
  root.attach (alignment.tokensAt finished)

/-- A cursor on the tokens of the root begins with all tokens of the alignment. -/
theorem remaining_annotate (alignment : Alignment) (finished : List (Route × Spelling))
    (root : Node Token) :
    (TokenCursor.ofNode (alignment.annotate finished root)).remaining = alignment.root.tokens := by
  have htokens : (alignment.annotate finished root).tokens = some alignment.root.tokens := by
    rw [annotate, Node.tokens_attach, tokensAt, if_pos rfl]
    rfl
  simp [TokenCursor.remaining, TokenCursor.ofNode, htokens]

end Alignment

namespace Aligner

/-- The match of a tree on the tokens that an alignment has for it, without the text. -/
def reread (aligner : Aligner Stock ByName) (alignment : Alignment)
    (finished : List (Route × Spelling)) (root : Node Token) (supply : Nat) :
    Except Failure Alignment × Progress Stock Input ByName :=
  aligner.run (alignment.annotate finished root)
    (.tokens (.ofNode (alignment.annotate finished root))) supply

/-- A tree that was matched on flat text, each node once and with an empty slot behind every node
but the root, is matched again on its own tokens. Every node is read from tokens and has the same
tokens as before, and the leaves are the same. -/
theorem run_annotated_same_tokens (aligner : Aligner Stock ByName)
    (byName : aligner.resolver = .byName) (settled : aligner.grammar.Settled Stock.Definite)
    {root : Node Token} (rangeless : root.Rangeless) {text : List Char} {place : TextCursor}
    (opens : place.Opens text) {supply : Nat} {alignment : Alignment}
    (h : (aligner.run root (Input.text place) supply).1 = .ok alignment)
    (once : ((aligner.run root (Input.text place) supply).2.finished.map Prod.fst).Nodup)
    (clean : ∀ parent node route spelling slot,
      (aligner.run root (Input.text place) supply).2.Finished (.child parent node route) spelling
        slot → slot = [])
    (again : Nat) :
    ∃ second,
      (aligner.reread alignment (aligner.run root (Input.text place) supply).2.finished root
        again).1 = .ok second ∧
      second.root.extent.medium = .tokens ∧ second.root.tokens = alignment.root.tokens ∧
      (∀ reference spelling, second.subtrees.get? reference = some spelling →
        spelling.extent.medium = .tokens) ∧
      (∀ reference, (second.subtrees.get? reference).map Spelling.tokens =
        (alignment.subtrees.get? reference).map Spelling.tokens) ∧
      second.leaves = alignment.leaves := by
  obtain ⟨spelling, after, hmatch, halignment, hrun⟩ := run_eq_ok h
  rw [hrun] at once clean ⊢
  generalize hfinished : after.claimed.finished = finished
  have hhanded : after.Handed (alignment.tokensAt finished) := by
    constructor
    · rw [← hfinished]
      exact alignment.attached_tokensAt once
    · intro path found slot hfound hne
      cases path with
      | root node => exact absurd rfl hne
      | child parent node route =>
          apply clean parent node route found slot
          exact hfound
  have hremaining : (TokenCursor.ofNode (alignment.annotate finished root)).remaining =
      spelling.tokens ++ after.pendingTokens := by
    rw [Alignment.remaining_annotate, halignment]
  have hstart : ({ supply } : Progress Stock Input ByName).Alike { supply := again } :=
    ⟨rfl, rfl, fun _ _ hget => absurd hget (by simp [Subtrees.get?, Subtrees.empty])⟩
  obtain ⟨spelling', after', hmatch', htokens, hmedium, halike⟩ :=
    retraces_matchNode byName settled (alignment.tokensAt finished) _ (.root root) opens.sound
      rangeless (Progress.minted_start supply) rfl hhanded hmatch _ _ hremaining hstart
  refine ⟨⟨{ spelling' with tokens := spelling'.tokens ++ after'.pendingTokens },
    after'.subtrees⟩, ?_, hmedium, ?_, halike.medium, ?_, ?_⟩
  · have hroot : (Ancestry.root root).attach (alignment.tokensAt finished) =
        .root (alignment.annotate finished root) := rfl
    rw [hroot] at hmatch'
    rw [reread, run, hmatch']
  · rw [halignment, htokens, halike.slot]
  · rw [halignment]
    exact Subtrees.map_tokens_get?_eq halike.outline
  · rw [Alignment.leaves, Alignment.leavesOf, Subtrees.leaves_eq_expand, htokens, halike.slot,
      Subtrees.expand_eq halike.outline, Alignment.leaves, Alignment.leavesOf,
      Subtrees.leaves_eq_expand, halignment]

/-- A sum of two names. -/
def nameSum : Node Token :=
  ⟨"Sum", [("left", .node ⟨"First", [], none, none⟩), ("right", .node ⟨"Second", [], none, none⟩)],
    none, none⟩

/-- White space may stand on both sides of the sign and at the end, all of it in the sum. -/
def nameSumAligner : Aligner Stock ByName where
  grammar := .demanding
    [("First", [[.identifier "a"]]), ("Second", [[.identifier "b"]]),
      ("Sum", [[.reference "left", .separator, .punctuator "+"],
        [.optional (.punctuator ";"), .whitespace " ", .reference "right", .separator]])]
  resolver := .byName

theorem settled_nameSumAligner : nameSumAligner.grammar.Settled Stock.Definite := by
  apply Grammar.settled_demanding
  simp [Stock.Definite, Stock.core, Stock.whitespace]

/-- The moment is not the end of a node below the root with something left in the slot. -/
def isClean (moment : Moment Stock Input ByName) : Bool :=
  match moment.act with
  | .finish _ => moment.frame.path.depth = 0 || moment.slot = []
  | _ => true

/-- A sum with white space in four places is read again from its own tokens. -/
theorem run_annotated_same_tokens_nameSum :
    ∃ alignment second,
      (nameSumAligner.run nameSum (Input.text (.whole "a + b ".toList)) 0).1 = .ok alignment ∧
      (nameSumAligner.reread alignment
        (nameSumAligner.run nameSum (Input.text (.whole "a + b ".toList)) 0).2.finished nameSum
        0).1 = .ok second ∧
      alignment.text = "a + b " ∧ second.root.extent.medium = .tokens ∧
      second.root.tokens = alignment.root.tokens ∧ second.leaves = alignment.leaves := by
  have hrun : ((nameSumAligner.run nameSum (Input.text (.whole "a + b ".toList)) 0).1.toOption.map
      Alignment.text) = some "a + b " := by
    decide +kernel
  have honce : ((nameSumAligner.run nameSum
      (Input.text (.whole "a + b ".toList)) 0).2.finished.map Prod.fst).Nodup := by
    decide +kernel
  have hclean : ((nameSumAligner.run nameSum
      (Input.text (.whole "a + b ".toList)) 0).2.journal.all isClean) = true := by
    decide +kernel
  obtain ⟨alignment, hfound, htext⟩ := Option.map_eq_some_iff.mp hrun
  have h := eq_ok_of_toOption hfound
  have hrangeless : nameSum.Rangeless := rfl
  obtain ⟨second, hsecond, hmedium, htokens, _, _, hleaves⟩ :=
    run_annotated_same_tokens nameSumAligner rfl settled_nameSumAligner hrangeless .whole h honce
      (by
        rintro parent node route spelling slot ⟨moment, hmem, hpath, hact, rfl⟩
        have hmoment := List.all_eq_true.mp hclean moment hmem
        simpa [isClean, hact, hpath, Ancestry.depth] using hmoment)
      0
  exact ⟨alignment, second, h, hsecond, htext, hmedium, htokens, hleaves⟩

/-- The text of a second match on the own tokens of a tree that was matched on flat text, each node
once, is the first text with some of its characters left out. It is the same text exactly when no
node of the second match is finished while tokens that stand for text are left in its list. -/
theorem reread_text_sublist (aligner : Aligner Stock ByName)
    (byName : aligner.resolver = .byName) (takes : aligner.grammar.TakesOnly)
    {root : Node Token} (rangeless : root.Rangeless) {text : List Char} {place : TextCursor}
    (opens : place.Opens text) {supply : Nat} {alignment : Alignment}
    (h : (aligner.run root (Input.text place) supply).1 = .ok alignment)
    (once : ((aligner.run root (Input.text place) supply).2.finished.map Prod.fst).Nodup)
    {again : Nat} {second : Alignment}
    (hsecond : (aligner.reread alignment
      (aligner.run root (Input.text place) supply).2.finished root again).1 = .ok second) :
    second.text.toList.Sublist alignment.text.toList ∧
      (second.text = alignment.text ↔
        ∀ moment ∈ (aligner.reread alignment
            (aligner.run root (Input.text place) supply).2.finished root again).2.journal,
          alignment.subtrees.charsOf moment.unread = []) := by
  obtain ⟨resolver, _, hsubtrees, hwoven⟩ := woven_of_run takes rangeless opens.sound h
  generalize (aligner.run root (Input.text place) supply).2 = first at *
  have hthreaded := hwoven.threaded byName (alignment.attached_tokensAt once)
  rw [← hsubtrees, ← alignment.remaining_annotate first.finished root] at hthreaded
  obtain ⟨spelling, after, hmatch, rfl, hrun⟩ := run_eq_ok hsecond
  obtain ⟨leaves, hexpands, hsublist, hlength⟩ :=
    (consumes_matchNode byName takes _ (.root root) rfl hthreaded (Subtrees.below_empty supply) rfl
      hmatch).leaves
  rw [Alignment.remaining_annotate, ← Alignment.toList_text] at hsublist hlength
  have htext : (⟨{ spelling with tokens := spelling.tokens ++ after.pendingTokens },
      after.subtrees⟩ : Alignment).text.toList = Token.charsOf leaves := by
    rw [Alignment.toList_text, Subtrees.charsOf, hexpands.expand_eq]
  refine ⟨htext ▸ hsublist, ?_⟩
  rw [reread, hrun]
  change _ ↔ ∀ moment ∈ after.journal, _
  rw [← Progress.unreadLength_eq_zero_iff, ← String.toList_inj, htext]
  have hstart : ({ supply := again } : Progress Stock Input ByName).unreadLength
      alignment.subtrees = 0 := rfl
  constructor
  · intro hsame
    rw [hsame] at hlength
    omega
  · intro hnone
    exact hsublist.eq_of_length (by omega)

/-- A sum of which only the left side is there. -/
def looseSum : Node Token :=
  ⟨"Sum", [("left", .node ⟨"Word", [], none, none⟩)], none, none⟩

/-- The word reads the white space behind it, which then moves up into the sum. What the sum asks
for before its sign is a parameter. -/
def looseSumAligner (between : List Stock) : Aligner Stock ByName where
  grammar := .demanding
    [("Word", [[.identifier "a", .separator]]),
      ("Sum", [.reference "left" :: between ++ [.optional (.punctuator "+")]])]
  resolver := .byName

/-- The texts of a first match on a text and of the second one on its tokens. -/
def textsOf (aligner : Aligner Stock ByName) (root : Node Token) (text : List Char) :
    Option (String × String) := do
  let first := aligner.run root (Input.text (.whole text)) 0
  let alignment ← first.1.toOption
  let second ← (aligner.reread alignment first.2.finished root 0).1.toOption
  return (alignment.text, second.text)

theorem exists_of_textsOf {aligner : Aligner Stock ByName} {root : Node Token} {text : List Char}
    {texts : String × String} (h : aligner.textsOf root text = some texts) :
    ∃ alignment second,
      (aligner.run root (Input.text (.whole text)) 0).1 = .ok alignment ∧
      (aligner.reread alignment (aligner.run root (Input.text (.whole text)) 0).2.finished root
        0).1 = .ok second ∧ alignment.text = texts.1 ∧ second.text = texts.2 := by
  simp only [textsOf, Option.bind_eq_bind, Option.bind_eq_some_iff, Option.pure_def,
    Option.some.injEq] at h
  obtain ⟨alignment, hfirst, second, hsecond, rfl⟩ := h
  exact ⟨alignment, second, eq_ok_of_toOption hfirst, eq_ok_of_toOption hsecond, rfl, rfl⟩

/-- A sum that asks for the white space itself finds it again, and no node leaves any text. -/
theorem reread_text_sublist_looseSum :
    ∃ alignment second,
      ((looseSumAligner [.separator]).run looseSum (Input.text (.whole "a +".toList)) 0).1 =
        .ok alignment ∧
      ((looseSumAligner [.separator]).reread alignment
        ((looseSumAligner [.separator]).run looseSum
          (Input.text (.whole "a +".toList)) 0).2.finished looseSum 0).1 = .ok second ∧
      second.text = "a +" ∧
      ∀ moment ∈ ((looseSumAligner [.separator]).reread alignment
          ((looseSumAligner [.separator]).run looseSum
            (Input.text (.whole "a +".toList)) 0).2.finished looseSum 0).2.journal,
        alignment.subtrees.charsOf moment.unread = [] := by
  have htexts : (looseSumAligner [.separator]).textsOf looseSum "a +".toList =
      some ("a +", "a +") := by
    decide +kernel
  have honce : (((looseSumAligner [.separator]).run looseSum
      (Input.text (.whole "a +".toList)) 0).2.finished.map Prod.fst).Nodup := by
    decide +kernel
  obtain ⟨alignment, second, hfirst, hsecond, htext, htext'⟩ := exists_of_textsOf htexts
  have hrangeless : looseSum.Rangeless := rfl
  have hsame := reread_text_sublist (looseSumAligner [.separator]) rfl
    (Grammar.takesOnly_demanding _) hrangeless .whole hfirst honce hsecond
  exact ⟨alignment, second, hfirst, hsecond, htext', hsame.2.mp (htext'.trans htext.symm)⟩

/-- A sum that asks for its sign alone does not find the sign behind the white space. The second
match succeeds, and the text has become another. -/
theorem reread_text_changes :
    (looseSumAligner []).resolver = .byName ∧
      (looseSumAligner []).grammar.Settled (fun _ => True) ∧ looseSum.Rangeless ∧
      (((looseSumAligner []).run looseSum
        (Input.text (.whole "a +".toList)) 0).2.finished.map Prod.fst).Nodup ∧
      ∃ alignment second,
        ((looseSumAligner []).run looseSum (Input.text (.whole "a +".toList)) 0).1 =
          .ok alignment ∧
        ((looseSumAligner []).reread alignment
          ((looseSumAligner []).run looseSum
            (Input.text (.whole "a +".toList)) 0).2.finished looseSum 0).1 = .ok second ∧
        alignment.text = "a +" ∧ second.text = "a" := by
  have htexts : (looseSumAligner []).textsOf looseSum "a +".toList = some ("a +", "a") := by
    decide +kernel
  refine ⟨rfl, ?_, rfl, by decide +kernel, exists_of_textsOf htexts⟩
  exact Grammar.settled_demanding fun _ _ _ _ _ _ => trivial

end Aligner

end TreeAlign
