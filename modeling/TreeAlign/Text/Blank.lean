/-!
# Blank characters

The characters with the Unicode property `White_Space`, as ranges of code
points. A blank run of a text is its longest prefix of such characters.
-/

namespace TreeAlign.Text

/-- A code point lies in one of the listed closed ranges. -/
def inRanges (ranges : List (Nat × Nat)) (c : Char) : Bool :=
  ranges.any fun range => range.1 ≤ c.toNat && c.toNat ≤ range.2

/-- The code points of the property `White_Space`. -/
def blankRanges : List (Nat × Nat) :=
  [(0x09, 0x0d), (0x20, 0x20), (0x85, 0x85), (0xa0, 0xa0), (0x1680, 0x1680), (0x2000, 0x200a),
   (0x2028, 0x2029), (0x202f, 0x202f), (0x205f, 0x205f), (0x3000, 0x3000)]

/-- A character that counts as white space. -/
def isBlank (c : Char) : Bool :=
  inRanges blankRanges c

/-- The longest blank prefix of a text. -/
def blankRun (s : List Char) : List Char :=
  s.takeWhile isBlank

/-- Every character of a blank run is blank. -/
theorem isBlank_of_mem_blankRun {s : List Char} {c : Char} (h : c ∈ blankRun s) :
    isBlank c = true := by
  induction s with
  | nil => simp [blankRun] at h
  | cons a rest ih =>
      by_cases ha : isBlank a = true
      · simp only [blankRun, List.takeWhile_cons, ha, if_true, List.mem_cons] at h
        rcases h with rfl | h
        · exact ha
        · exact ih h
      · simp [blankRun, ha] at h

end TreeAlign.Text
