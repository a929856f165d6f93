import TreeAlign.Proofs.Matching.Stages
import TreeAlign.Proofs.Slot

/-!
# Where failures come from

A match that fails does so at one moment, which is its last. The failure it
returns is the one that was raised there: no node above turns it into
something else, none goes on without the child, and none begins again on
another input. `Aligner.Raises` lists the reasons for a failure, as far as
they can be seen at the moment itself and right before it.

A terminal that is missing is no failure. If the command was an offer, the
procedure is told at the very next moment and goes on; only if it was a
demand, the attempt is given up.
-/

namespace TreeAlign

variable {τ σ ρ : Type}

namespace Act

/-- The match ends with a failure. -/
def IsRaise : Act τ → Prop
  | .raise _ => True
  | _ => False

/-- A terminal is missing. -/
def IsMiss : Act τ → Prop
  | .miss _ => True
  | _ => False

/-- The procedure gets a reply. -/
def IsReply : Act τ → Prop
  | .step _ _ => True
  | _ => False

end Act

/-- The procedure of the node has yielded the command and got no reply since. The latest moment
comes first. -/
def Current (path : Ancestry) (command : Command τ) : List (Moment τ σ ρ) → Prop
  | [] => False
  | moment :: older =>
    (moment.frame.path = path ∧ ∃ reply, moment.act = .step reply (some command)) ∨
      ((moment.frame.path = path → ¬ moment.act.IsReply) ∧ Current path command older)

namespace Current

variable {path : Ancestry} {command other : Command τ} {journal older : List (Moment τ σ ρ)}

/-- Moments without a reply to the node leave its command where it is. -/
theorem append (h : Current path command older)
    (silent : ∀ moment ∈ journal, moment.frame.path = path → ¬ moment.act.IsReply) :
    Current path command (journal ++ older) := by
  induction journal with
  | nil => exact h
  | cons moment rest ih =>
      obtain ⟨hmoment, hrest⟩ := List.forall_mem_cons.mp silent
      exact Or.inr ⟨hmoment, ih hrest⟩

theorem cons (h : Current path command older) {moment : Moment τ σ ρ}
    (silent : ¬ moment.act.IsReply) : Current path command (moment :: older) :=
  Or.inr ⟨fun _ => silent, h⟩

theorem unique (h : Current path command journal) (h' : Current path other journal) :
    command = other := by
  induction journal with
  | nil => exact absurd h id
  | cons moment older ih =>
      rcases h with ⟨hpath, reply, hact⟩ | ⟨hsilent, hrest⟩
      · rcases h' with ⟨_, reply', hact'⟩ | ⟨hsilent', _⟩
        · rw [hact] at hact'
          cases hact'
          rfl
        · exact absurd (by rw [hact]; trivial) (hsilent' hpath)
      · rcases h' with ⟨hpath, reply', hact'⟩ | ⟨_, hrest'⟩
        · exact absurd (by rw [hact']; trivial) (hsilent hpath)
        · exact ih hrest hrest'

end Current

/-- A moment follows a missing terminal, in the same node: after an offer the procedure is told, and
after a demand the attempt is given up. -/
def Moment.Answers [Terminal τ] (command : Command τ) (terminal : τ)
    (moment missed : Moment τ σ ρ) : Prop :=
  moment.frame.path = missed.frame.path ∧
    match command with
    | .offer _ => ∃ next, moment.act = .step .mismatched next
    | .take _ => moment.act = .abandon (Terminal.describe terminal)
    | .emit _ => False

section Answered

variable [Terminal τ]

/-- An answer is neither a failure nor another miss. -/
theorem Moment.Answers.quiet {command : Command τ} {terminal : τ} {moment missed : Moment τ σ ρ}
    (h : moment.Answers command terminal missed) :
    ¬ moment.act.IsRaise ∧ ¬ moment.act.IsMiss := by
  obtain ⟨_, hact⟩ := h
  cases command with
  | emit tokens => exact absurd hact id
  | offer terminals =>
      obtain ⟨next, hact⟩ := hact
      rw [hact]
      exact ⟨id, id⟩
  | take terminals =>
      rw [show moment.act = _ from hact]
      exact ⟨id, id⟩

/-- Every missing terminal but one at the latest moment is answered right away. -/
def Answered : List (Moment τ σ ρ) → Prop
  | [] => True
  | moment :: older =>
    (∀ missed rest terminal, older = missed :: rest → missed.act = .miss terminal →
      ∃ command, Current missed.frame.path command rest ∧
        moment.Answers command terminal missed) ∧
    Answered older

theorem Answered.of_append {newer older : List (Moment τ σ ρ)} {next missed : Moment τ σ ρ}
    {terminal : τ} (h : Answered (newer ++ next :: missed :: older))
    (miss : missed.act = .miss terminal) :
    ∃ command, Current missed.frame.path command older ∧
      next.Answers command terminal missed := by
  induction newer with
  | nil => exact h.1 missed older terminal rfl miss
  | cons first rest ih => exact ih h.2

/-- The match has not failed, and every missing terminal has been answered. -/
structure Calm (journal : List (Moment τ σ ρ)) : Prop where
  silent : ∀ moment ∈ journal, ¬ moment.act.IsRaise
  answered : Answered journal
  settled : ∀ moment ∈ journal.head?, ¬ moment.act.IsMiss

namespace Calm

variable {journal older : List (Moment τ σ ρ)} {moment missed : Moment τ σ ρ}

theorem nil : Calm ([] : List (Moment τ σ ρ)) :=
  ⟨by simp, trivial, by simp⟩

/-- Whatever comes next, no missing terminal waits for an answer. -/
theorem answered_cons (h : Calm journal) (moment : Moment τ σ ρ) :
    Answered (moment :: journal) := by
  refine ⟨?_, h.answered⟩
  rintro missed rest terminal rfl hact
  exact absurd (by rw [hact]; trivial) (h.settled missed rfl)

theorem cons (h : Calm journal) (quiet : ¬ moment.act.IsRaise) (found : ¬ moment.act.IsMiss) :
    Calm (moment :: journal) where
  silent := List.forall_mem_cons.mpr ⟨quiet, h.silent⟩
  answered := h.answered_cons moment
  settled := by
    rintro _ ⟨⟩
    exact found

/-- A missing terminal is answered. -/
theorem answer (h : Calm older) {terminal : τ} (miss : missed.act = .miss terminal)
    {command : Command τ} (current : Current missed.frame.path command older)
    (answers : moment.Answers command terminal missed) : Calm (moment :: missed :: older) where
  silent := by
    have hmissed : ¬ missed.act.IsRaise := by
      rw [miss]
      exact id
    exact List.forall_mem_cons.mpr ⟨answers.quiet.1, List.forall_mem_cons.mpr ⟨hmissed, h.silent⟩⟩
  answered := by
    refine ⟨?_, h.answered_cons missed⟩
    rintro _ _ other ⟨⟩ hact
    rw [miss] at hact
    cases hact
    exact ⟨command, current, answers⟩
  settled := by
    rintro _ ⟨⟩
    exact answers.quiet.2

end Calm

end Answered

variable [Terminal τ]

namespace Aligner

/-- Why a match fails at its last moment, after the moments before it. A node has no rule, a
reference leads to no child, a node is too deep, or an attempt was given up at a terminal that its
procedure demands, and there is no other input to begin again on. -/
inductive Raises (aligner : Aligner τ ρ) (last : Moment τ Input ρ) :
    List (Moment τ Input ρ) → Failure → Prop where
  | unknownType {before : List (Moment τ Input ρ)}
      (unknown : aligner.grammar.rule? last.frame.path.node.type = none) :
      Raises aligner last before (.unknownType last.frame.path.node.type)
  | unresolved {before : List (Moment τ Input ρ)} {reference : Token}
      (unresolved : childAt? last.frame
        (aligner.resolver.resolve last.frame.resolver reference).1 = none) :
      Raises aligner last before (.unresolved last.frame.path.node.type reference.value)
  | tooDeep {before : List (Moment τ Input ρ)}
      (deep : aligner.limits.maxDepth < last.frame.path.depth) :
      Raises aligner last before
        (.tooDeep aligner.limits.maxDepth last.frame.path.node.type)
  | parsing {before : List (Moment τ Input ρ)} {missed gaveUp : Moment τ Input ρ} {terminal : τ}
      {terminals : List τ} {reason : String}
      (demanded : Current last.frame.path (.take terminals) before.reverse)
      (miss : missed.act = .miss terminal) (miss_path : missed.frame.path = last.frame.path)
      (abandon : gaveUp.act = .abandon (Terminal.describe terminal))
      (abandon_path : gaveUp.frame.path = last.frame.path)
      (abandon_cursor : gaveUp.frame.cursor = last.frame.cursor) :
      Raises aligner last (before ++ [missed, gaveUp])
        (.parsing last.frame.path.node.type (Terminal.describe terminal)
          (Cursor.medium last.frame.cursor) (Cursor.position last.frame.cursor)
          (some (.noFallback (Cursor.medium last.frame.cursor) reason)))

/-- A match never ends because there is no other input: that is always the cause of something. -/
theorem Raises.ne_noFallback {aligner : Aligner τ ρ} {last : Moment τ Input ρ}
    {before : List (Moment τ Input ρ)} {failure : Failure}
    (h : aligner.Raises last before failure) (medium : Medium) (reason : String) :
    failure ≠ .noFallback medium reason := by
  rintro rfl
  cases h

/-- Behind a terminal that is missing stands an input without another form, and nothing else. -/
theorem Raises.rootCause {aligner : Aligner τ ρ} {last : Moment τ Input ρ}
    {before : List (Moment τ Input ρ)} {type terminal : String} {medium : Medium} {position : Nat}
    {cause : Option Failure}
    (h : aligner.Raises last before (.parsing type terminal medium position cause)) :
    ∃ reason, cause = some (.noFallback medium reason) ∧
      (Failure.parsing type terminal medium position cause).rootCause =
        .noFallback medium reason := by
  cases h with
  | parsing _ _ _ _ _ _ => exact ⟨_, rfl, rfl⟩

omit [Terminal τ] in
/-- An input that cannot be changed says so in its own name. -/
theorem Final.exists_noFallback {aligner : Aligner τ ρ} {cursor : Input} {cause : Failure}
    (h : aligner.Final cursor cause) :
    ∃ reason, cause = .noFallback (Cursor.medium cursor) reason := by
  cases h with
  | limit => exact ⟨_, rfl⟩
  | fallback none =>
      cases cursor with
      | text place =>
          cases none
          exact ⟨_, rfl⟩
      | synthetic =>
          cases none
          exact ⟨_, rfl⟩
      | tokens reading =>
          have hmap : reading.fallback.map Input.text = .error cause := none
          rw [TokenCursor.fallback] at hmap
          cases htext : reading.text with
          | none =>
              simp only [htext] at hmap
              cases hmap
              exact ⟨_, rfl⟩
          | some text =>
              cases hrange : reading.range with
              | none =>
                  simp only [htext, hrange] at hmap
                  cases hmap
                  exact ⟨_, rfl⟩
              | some range => simp [htext, hrange, Except.map] at hmap

end Aligner

/-- The match has failed at its last moment. -/
def Failed (aligner : Aligner τ ρ) (failure : Failure) (progress : Progress τ Input ρ) : Prop :=
  ∃ last older, progress.journal = last :: older ∧ last.act = .raise failure ∧ Calm older ∧
    aligner.Raises last older.reverse failure

/-- What the journal says at a stage of a node's match. -/
def Stage.Told (aligner : Aligner τ ρ) (path : Ancestry) :
    Stage τ Input ρ → Progress τ Input ρ → Prop
  | .ready _, progress | .spelled _, progress => Calm progress.journal
  | .idle _ procedure _, progress =>
    Calm progress.journal ∧
      ∀ command, procedure.command? = some command → Current path command progress.journal
  | .busy _ command _ _ _ _, progress =>
    Calm progress.journal ∧ Current path command progress.journal
  | .missed _ command _ _ terminal _, progress =>
    ∃ missed older, progress.journal = missed :: older ∧ missed.act = .miss terminal ∧
      missed.frame.path = path ∧ Calm older ∧ Current path command older
  | .stuck name cursor, progress =>
    Calm progress.journal ∧ ∃ gaveUp missed older terminal terminals,
      progress.journal = gaveUp :: missed :: older ∧ name = Terminal.describe terminal ∧
      gaveUp.act = .abandon name ∧ gaveUp.frame.path = path ∧ gaveUp.frame.cursor = cursor ∧
      missed.act = .miss terminal ∧ missed.frame.path = path ∧
      Current path (.take terminals) older
  | .failed failure, progress => Failed aligner failure progress

namespace Aligner

variable {aligner : Aligner τ ρ} {levels : Nat} {path : Ancestry}

/-- A reply makes the command of the procedure the current one. -/
theorem told_stepped {progress : Progress τ Input ρ} {frame : Frame Input ρ} {reply : Reply}
    {procedure : Procedure τ} {start : Nat} (path_eq : frame.path = path)
    (h : Calm (stepped frame reply procedure progress).journal) :
    (Stage.idle start procedure frame).Told aligner path
      (stepped frame reply procedure progress) := by
  refine ⟨h, ?_⟩
  intro command hcommand
  refine Or.inl ⟨path_eq, reply, ?_⟩
  rw [← hcommand]

/-- Children tell of their failures. -/
def TellsFailures (aligner : Aligner τ ρ) (levels : Nat) (path : Ancestry) : Prop :=
  ∀ node route cursor (progress : Progress τ Input ρ), Calm progress.journal →
    (aligner.matchNode levels (.child path node route) cursor progress).Ends (Failed aligner)
      fun _ after => Calm after.journal

/-- A terminal that is found leaves the match calm and the command current. -/
theorem Finding.calm {terminal : τ} {frame found : Frame Input ρ}
    {progress after : Progress τ Input ρ} {command : Command τ}
    (finding : aligner.Finding (aligner.matchNode levels) terminal frame progress found after)
    (children : aligner.TellsFailures levels frame.path) (calm : Calm progress.journal)
    (current : Current frame.path command progress.journal) :
    Calm after.journal ∧ Current frame.path command after.journal := by
  cases finding with
  | plain _ _ _ => exact ⟨calm.cons id id, current.cons id⟩
  | separator _ _ _ => exact ⟨(calm.cons id id).cons id id, (current.cons id).cons id⟩
  | @child found reference _ route node _ state _ _ _ _ matched =>
      have hopened : Calm ((progress.draw found).note frame (.descend reference route)).journal :=
        calm.cons id id
      have hafter := (children node route _ _ hopened).of_done matched
      obtain ⟨new, hnew, hdepth⟩ := (aligner.writesBelow_matchNode levels _ _ _).of_done matched
      have hcurrent : Current frame.path command state.journal := by
        rw [hnew]
        apply Current.append (current.cons id)
        intro moment hmoment hpath
        have hle := hdepth moment hmoment
        rw [hpath] at hle
        exact absurd hle (Nat.not_succ_le_self _)
      exact ⟨(hafter.cons id id).cons id id, (hcurrent.cons id).cons id⟩

/-- A failure that a child raised is not touched. -/
theorem Breaking.failed {terminal : τ} {frame : Frame Input ρ}
    {progress after : Progress τ Input ρ} {failure : Failure}
    (breaking : aligner.Breaking (aligner.matchNode levels) terminal frame progress failure after)
    (children : aligner.TellsFailures levels frame.path) (calm : Calm progress.journal) :
    Failed aligner failure after := by
  cases breaking with
  | unresolved _ _ _ unresolved => exact ⟨_, _, rfl, rfl, calm, .unresolved unresolved⟩
  | @child found reference _ route node _ _ _ _ _ _ failed =>
      have hopened : Calm ((progress.draw found).note frame (.descend reference route)).journal :=
        calm.cons id id
      exact (children node route _ _ hopened).of_failed failed

/-- Every step of the attempts at a node tells of failures and answers what is missing. -/
theorem keeps_told (children : aligner.TellsFailures levels path) :
    aligner.Keeps (aligner.matchNode levels) path (Stage.Told aligner path) := by
  constructor
  intro stage later progress after h hat step
  cases step with
  | begin _ => exact told_stepped rfl ((Calm.cons h id id).cons id id)
  | unknown unknown => exact ⟨_, _, rfl, rfl, Calm.cons h id id, .unknownType unknown⟩
  | finish => exact h.1.cons id id
  | emit => exact told_stepped hat (h.1.cons id id)
  | look _ => exact ⟨h.1, h.2 _ rfl⟩
  | @find _ _ _ _ tried _ _ _ _ _ finding =>
      obtain ⟨_, rfl⟩ := hat
      exact finding.calm children h.1 h.2
  | miss missing =>
      cases missing with
      | nothing => exact ⟨_, _, rfl, rfl, hat.2, h.1, h.2⟩
      | void _ _ => exact ⟨_, _, rfl, rfl, hat.2, h.1, h.2⟩
  | breaks breaking =>
      obtain ⟨_, rfl⟩ := hat
      exact breaking.failed children h.1
  | offered => exact told_stepped hat.2 (h.1.cons id id)
  | taken => exact told_stepped hat.2 (h.1.cons id id)
  | @declined _ _ _ frame tried _ _ =>
      obtain ⟨missed, older, hjournal, hmiss, rfl, hcalm, hcurrent⟩ := h
      have hpath : (frame.giveBack tried).path = missed.frame.path := hat.1
      apply told_stepped hpath
      rw [stepped, Progress.note, hjournal]
      exact hcalm.answer hmiss hcurrent ⟨hpath, _, rfl⟩
  | @abandon _ _ _ frame tried _ _ =>
      obtain ⟨missed, older, hjournal, hmiss, rfl, hcalm, hcurrent⟩ := h
      have hpath : (frame.giveBack tried).path = missed.frame.path := hat.1
      rw [Progress.note, hjournal]
      exact ⟨hcalm.answer hmiss hcurrent ⟨hpath, rfl⟩, _, _, _, _, _, rfl, rfl, rfl, hpath, rfl,
        hmiss, rfl, hcurrent⟩
  | again _ => exact h.1
  | @giveUp name cursor _ cause final =>
      obtain ⟨hcalm, gaveUp, missed, older, terminal, terminals, hjournal, rfl, habandon, rfl,
        rfl, hmiss, hmissPath, hcurrent⟩ := h
      -- whether restarts or inputs have run out, the cause names the medium that was given up
      obtain ⟨reason, rfl⟩ := final.exists_noFallback
      refine ⟨_, _, rfl, rfl, hcalm, ?_⟩
      rw [hjournal, List.reverse_cons, List.reverse_cons, List.append_assoc]
      rw [← older.reverse_reverse] at hcurrent
      exact .parsing hcurrent hmiss hmissPath habandon rfl rfl

/-- A match of a node tells of its failure. -/
theorem told_matchNode (levels : Nat) {path : Ancestry} (cursor : Input)
    {progress : Progress τ Input ρ} (depth_eq : path.depth + levels = aligner.limits.maxDepth + 1)
    (calm : Calm progress.journal) :
    (aligner.matchNode levels path cursor progress).Ends (Failed aligner)
      fun _ after => Calm after.journal := by
  induction levels generalizing path cursor progress with
  | zero =>
      have hdeep : aligner.limits.maxDepth < path.depth := by omega
      exact ⟨_, _, rfl, rfl, calm, .tooDeep hdeep⟩
  | succ levels ih =>
      have hchildren : aligner.TellsFailures levels path := by
        intro node route cursor progress hcalm
        apply ih cursor _ hcalm
        change path.depth + 1 + levels = _
        omega
      exact (keeps_told hchildren).restart calm

/-- A whole match tells of its failure, and raises nothing if it succeeds. -/
theorem told_run (aligner : Aligner τ ρ) (root : Node Token) (cursor : Input) (supply : Nat) :
    (∃ failure, (aligner.run root cursor supply).1 = .error failure ∧
      Failed aligner failure (aligner.run root cursor supply).2) ∨
    ∃ alignment, (aligner.run root cursor supply).1 = .ok alignment ∧
      Calm (aligner.run root cursor supply).2.journal := by
  have hdepth : (Ancestry.root root).depth + (aligner.limits.maxDepth + 1) =
      aligner.limits.maxDepth + 1 := Nat.zero_add _
  have hstart : Calm ({ supply } : Progress τ Input ρ).journal := .nil
  have hmatch := aligner.told_matchNode (aligner.limits.maxDepth + 1) cursor hdepth hstart
  rcases run_ends hmatch with ⟨failure, after, hrun, hfailed⟩ | ⟨spelling, after, hrun, hcalm⟩
  · rw [hrun]
    exact Or.inl ⟨failure, rfl, hfailed⟩
  · rw [hrun]
    exact Or.inr ⟨_, rfl, hcalm⟩

/-- Every missing terminal of a match is answered at the next moment. -/
theorem answered_run {root : Node Token} {cursor : Input} {supply : Nat}
    {before after : List (Moment τ Input ρ)} {missed : Moment τ Input ρ} {terminal : τ}
    (hsplit : (aligner.run root cursor supply).2.moments = before ++ missed :: after)
    (miss : missed.act = .miss terminal) :
    ∃ next rest command, after = next :: rest ∧
      Current missed.frame.path command before.reverse ∧
      next.Answers command terminal missed := by
  have hanswered : Answered (aligner.run root cursor supply).2.journal ∧
      ∀ moment ∈ (aligner.run root cursor supply).2.journal.head?, ¬ moment.act.IsMiss := by
    rcases aligner.told_run root cursor supply with
      ⟨_, _, last, older, hjournal, hraise, hcalm, _⟩ | ⟨_, _, hcalm⟩
    · rw [hjournal]
      refine ⟨hcalm.answered_cons last, ?_⟩
      rintro _ ⟨⟩
      rw [hraise]
      exact id
    · exact ⟨hcalm.answered, hcalm.settled⟩
  rw [journal_of_moments hsplit, List.reverse_cons, List.append_assoc] at hanswered
  cases after with
  | nil => exact absurd (by rw [miss]; trivial) (hanswered.2 missed rfl)
  | cons next rest =>
      rw [List.reverse_cons, List.append_assoc] at hanswered
      obtain ⟨command, hcurrent, hanswer⟩ := hanswered.1.of_append miss
      exact ⟨next, rest, command, rfl, hcurrent, hanswer⟩

/-- A match fails at its last moment, with the failure that was raised there and at no moment
before, for one of the reasons of `Raises`. It is never a bare lack of another input, but that is
what stands behind every terminal that is missing. A match that succeeds raises nothing. A terminal
that is missing is answered at the next moment: an offer makes the procedure go on, and only a
demand ends the attempt. -/
theorem run_failure_source (aligner : Aligner τ ρ) (root : Node Token) (cursor : Input)
    (supply : Nat) :
    (∀ failure, (aligner.run root cursor supply).1 = .error failure →
      ∃ before last, (aligner.run root cursor supply).2.moments = before ++ [last] ∧
        last.act = .raise failure ∧ (∀ moment ∈ before, ¬ moment.act.IsRaise) ∧
        aligner.Raises last before failure ∧
        (∀ medium reason, failure ≠ .noFallback medium reason) ∧
        ∀ type terminal medium position cause,
          failure = .parsing type terminal medium position cause →
          ∃ reason, cause = some (.noFallback medium reason) ∧
            failure.rootCause = .noFallback medium reason) ∧
    (∀ alignment, (aligner.run root cursor supply).1 = .ok alignment →
      ∀ moment ∈ (aligner.run root cursor supply).2.moments, ¬ moment.act.IsRaise) ∧
    ∀ before missed after terminal,
      (aligner.run root cursor supply).2.moments = before ++ missed :: after →
      missed.act = .miss terminal →
      ∃ next rest, after = next :: rest ∧
        (∃ command, Current missed.frame.path command before.reverse) ∧
        ∀ command, Current missed.frame.path command before.reverse →
          next.Answers command terminal missed := by
  refine ⟨?_, ?_, ?_⟩
  · intro failure herror
    rcases aligner.told_run root cursor supply with
      ⟨other, hother, last, older, hjournal, hraise, hcalm, hraises⟩ | ⟨alignment, hok, _⟩
    · rw [herror] at hother
      cases hother
      refine ⟨older.reverse, last, ?_, hraise, ?_, hraises, hraises.ne_noFallback, ?_⟩
      · rw [Progress.moments, hjournal, List.reverse_cons]
      · intro moment hmoment
        exact hcalm.silent moment (List.mem_reverse.mp hmoment)
      · rintro type terminal medium position cause rfl
        exact hraises.rootCause
    · rw [herror] at hok
      cases hok
  · intro alignment hok moment hmoment
    rcases aligner.told_run root cursor supply with ⟨_, hother, _⟩ | ⟨_, _, hcalm⟩
    · rw [hok] at hother
      cases hother
    · exact hcalm.silent moment (List.mem_reverse.mp hmoment)
  · intro before missed after terminal hsplit hmiss
    obtain ⟨next, rest, command, hafter, hcurrent, hanswer⟩ := answered_run hsplit hmiss
    refine ⟨next, rest, hafter, ⟨command, hcurrent⟩, ?_⟩
    intro other hother
    rw [hother.unique hcurrent]
    exact hanswer

/-- A sum with one name. -/
def brokenOffer : Node Token :=
  ⟨"Sum", [("left", .node ⟨"Name", [], none, none⟩)], none, none⟩

/-- A sum offers its name, and a name demands a letter. -/
def brokenOfferAligner : Aligner Stock ByName where
  grammar := ⟨[("Name", fun _ _ => .script [.take [.identifier "a"]]),
    ("Sum", fun _ _ => .script [.offer [.reference "left"]])]⟩
  resolver := .byName

/-- The letter is missing in the text. The failure of the name is that of the match, although the
name was only offered. -/
theorem run_failure_source_brokenOffer :
    ∃ failure,
      (brokenOfferAligner.run brokenOffer (Input.text (.whole "b".toList)) 0).1 =
        .error failure ∧
      failure.message = "parsing failed: `Name` expected Identifier(\"a\") at text position 0" ∧
      failure.rootCause.message = TextCursor.noFallback.message ∧
      ∃ before last,
        (brokenOfferAligner.run brokenOffer (Input.text (.whole "b".toList)) 0).2.moments =
          before ++ [last] ∧
        (∀ moment ∈ before, ¬ moment.act.IsRaise) ∧
        brokenOfferAligner.Raises last before failure := by
  have hrun : (match (brokenOfferAligner.run brokenOffer (Input.text (.whole "b".toList)) 0).1 with
      | .ok _ => none
      | .error failure => some (failure.message, failure.rootCause.message)) =
      some ("parsing failed: `Name` expected Identifier(\"a\") at text position 0",
        TextCursor.noFallback.message) := by
    decide +kernel
  cases h : (brokenOfferAligner.run brokenOffer (Input.text (.whole "b".toList)) 0).1 with
  | ok alignment =>
      rw [h] at hrun
      cases hrun
  | error failure =>
      rw [h] at hrun
      have hmessages := Option.some.inj hrun
      obtain ⟨before, last, hmoments, _, hsilent, hraises, _⟩ :=
        (run_failure_source brokenOfferAligner brokenOffer (Input.text (.whole "b".toList)) 0).1
          failure h
      exact ⟨failure, rfl, congrArg Prod.fst hmessages, congrArg Prod.snd hmessages, before, last,
        hmoments, hsilent, hraises⟩

end Aligner

end TreeAlign
