import TreeAlign.Proofs.Text.Position

/-!
# Reading a text with jumps

A reader moves through a text in two ways: it reads what stands at its
position, or it jumps to another position and reads on there. `Text.Travels`
says what was read on a way, and which jumps were made.

A way without jumps reads all that stands between its ends. A way on which
every jump goes forward reads all of it but the stretches that were jumped
over, so it reads everything only if there was no jump.
-/

namespace TreeAlign

/-- A move from one byte position to another that reads nothing. -/
structure Jump where
  source : Nat
  target : Nat
deriving DecidableEq, Repr

namespace Jump

/-- The jump between two positions, if it takes one to get there. -/
def between? (source target : Nat) : Option Jump :=
  if source = target then none else some ⟨source, target⟩

/-- The number of bytes that a jump leaves out when it goes forward. -/
def length (jump : Jump) : Nat := jump.target - jump.source

end Jump

namespace Text

/-- What is read on a way through a text, and the jumps on the way. -/
inductive Travels (text : List Char) (start : Nat) : Nat → List Char → List Jump → Prop where
  | start (boundary : Between text start start []) : Travels text start start [] []
  | read {position next : Nat} {chars part : List Char} {jumps : List Jump}
      (earlier : Travels text start position chars jumps)
      (between : Between text position next part) : Travels text start next (chars ++ part) jumps
  | jump {position target : Nat} {chars : List Char} {jumps : List Jump}
      (earlier : Travels text start position chars jumps) (moves : position ≠ target)
      (boundary : Between text target target []) :
      Travels text start target chars (jumps ++ [⟨position, target⟩])

/-- What stands between two boundaries of a text. -/
theorem exists_between {text : List Char} {start stop : Nat} (first : Between text start start [])
    (last : Between text stop stop []) (le : start ≤ stop) :
    ∃ part, Between text start stop part := by
  obtain ⟨before, after, htext, rfl, _⟩ := first
  obtain ⟨before', after', htext', rfl, _⟩ := last
  rw [List.append_nil] at htext htext'
  obtain ⟨part, rfl⟩ := prefix_of_byteLength_le (htext.symm.trans htext') le
  exact ⟨part, before, after', htext', rfl, (byteLength_append before part).symm⟩

namespace Travels

variable {text chars more : List Char} {start middle stop : Nat} {jumps others : List Jump}

/-- A way ends at a boundary. -/
theorem boundary (h : Travels text start stop chars jumps) : Between text stop stop [] := by
  induction h with
  | start boundary => exact boundary
  | read _ between _ => exact between.nil_stop
  | jump _ _ boundary _ => exact boundary

/-- Two ways, one behind the other. -/
theorem append (h : Travels text start middle chars jumps)
    (h' : Travels text middle stop more others) :
    Travels text start stop (chars ++ more) (jumps ++ others) := by
  induction h' with
  | start _ =>
      rw [List.append_nil, List.append_nil]
      exact h
  | read _ between ih =>
      rw [← List.append_assoc]
      exact .read ih between
  | jump _ moves boundary ih =>
      rw [← List.append_assoc]
      exact .jump ih moves boundary

/-- A way goes on at another boundary. -/
theorem jumpTo (h : Travels text start middle chars jumps) {target : Nat}
    (boundary : Between text target target []) :
    Travels text start target chars (jumps ++ (Jump.between? middle target).toList) := by
  by_cases hmoves : middle = target
  · rw [← hmoves, Jump.between?, if_pos rfl, Option.toList_none, List.append_nil]
    exact h
  · rw [Jump.between?, if_neg hmoves]
    exact .jump h hmoves boundary

/-- A way without jumps has read all that stands between its ends. -/
theorem between (h : Travels text start stop chars []) : Between text start stop chars := by
  generalize hjumps : ([] : List Jump) = jumps at h
  induction h with
  | start boundary => exact boundary
  | read _ between ih => exact (ih hjumps).append between
  | jump _ _ _ _ => simp at hjumps

/-- A way on which all jumps go forward has left out the bytes that were jumped over. -/
theorem forward (h : Travels text start stop chars jumps)
    (ahead : ∀ jump ∈ jumps, jump.source ≤ jump.target) :
    ∃ covered, Between text start stop covered ∧ chars.Sublist covered ∧
      byteLength covered = byteLength chars + total Jump.length jumps := by
  induction h with
  | start boundary => exact ⟨[], boundary, .slnil, rfl⟩
  | @read position next chars part jumps _ between ih =>
      obtain ⟨covered, hcovered, hsublist, hlength⟩ := ih ahead
      refine ⟨covered ++ part, hcovered.append between, hsublist.append (.refl part), ?_⟩
      rw [byteLength_append, byteLength_append, hlength]
      omega
  | @jump position target chars jumps earlier _ boundary ih =>
      have hjump : position ≤ target := ahead ⟨position, target⟩ (by simp)
      obtain ⟨covered, hcovered, hsublist, hlength⟩ :=
        ih fun jump hmem => ahead jump (by simp [hmem])
      obtain ⟨gap, hgap⟩ := exists_between earlier.boundary boundary hjump
      refine ⟨covered ++ gap, hcovered.append hgap,
        hsublist.trans (List.sublist_append_left covered gap), ?_⟩
      have hstop := hgap.stop_eq
      rw [byteLength_append, hlength, total_append, total_cons, total_nil, Jump.length]
      simp only
      omega

/-- A way with a jump that goes forward has left something out. -/
theorem total_length_pos (h : Travels text start stop chars jumps)
    (ahead : ∀ jump ∈ jumps, jump.source ≤ jump.target) (jumped : jumps ≠ []) :
    0 < total Jump.length jumps := by
  induction h with
  | start _ => exact absurd rfl jumped
  | read _ _ ih => exact ih ahead jumped
  | @jump position target _ _ _ moves _ _ =>
      have hjump : position ≤ target := ahead ⟨position, target⟩ (by simp)
      rw [total_append, total_cons, Jump.length]
      simp only
      omega

/-- A way on which all jumps go forward has read all that stands between its ends exactly if there
are no jumps. -/
theorem eq_covered_iff (h : Travels text start stop chars jumps)
    (ahead : ∀ jump ∈ jumps, jump.source ≤ jump.target) {covered : List Char}
    (between : Between text start stop covered)
    (length : byteLength covered = byteLength chars + total Jump.length jumps) :
    chars = covered ↔ jumps = [] := by
  constructor
  · intro hall
    by_cases hjumped : jumps = []
    · exact hjumped
    · have hpos := h.total_length_pos ahead hjumped
      rw [hall] at length
      omega
  · rintro rfl
    exact h.between.slice_eq.symm.trans between.slice_eq

end Travels

end Text

end TreeAlign
