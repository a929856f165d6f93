/-!
# Texts measured in bytes

A text is a list of characters. Positions in it count the bytes of its UTF-8
form, so a position may fall inside a character. The two cuts below always
stop at the last character boundary that the position reaches, and `floor`
names that boundary.

## Implementation notes

The cuts recurse on the characters, so nothing here depends on the byte
layout of a stored string. Only the width of each character is used.
-/

namespace TreeAlign.Text

/-- The number of bytes that the characters take in UTF-8. -/
def byteLength : List Char → Nat
  | [] => 0
  | c :: rest => c.utf8Size + byteLength rest

@[simp] theorem byteLength_nil : byteLength [] = 0 := rfl

@[simp] theorem byteLength_cons (c : Char) (rest : List Char) :
    byteLength (c :: rest) = c.utf8Size + byteLength rest := rfl

@[simp] theorem byteLength_append (s t : List Char) :
    byteLength (s ++ t) = byteLength s + byteLength t := by
  induction s with
  | nil => simp
  | cons c rest ih => simp [ih, Nat.add_assoc]

/-- The longest run of whole characters that fits into the first `n` bytes. -/
def takeBytes : Nat → List Char → List Char
  | _, [] => []
  | n, c :: rest => if c.utf8Size ≤ n then c :: takeBytes (n - c.utf8Size) rest else []

/-- What follows the longest run of whole characters that fits into the first `n` bytes. -/
def dropBytes : Nat → List Char → List Char
  | _, [] => []
  | n, c :: rest => if c.utf8Size ≤ n then dropBytes (n - c.utf8Size) rest else c :: rest

/-- The two cuts split the text and lose nothing. -/
theorem takeBytes_append_dropBytes (n : Nat) (s : List Char) :
    takeBytes n s ++ dropBytes n s = s := by
  induction s generalizing n with
  | nil => rfl
  | cons c rest ih =>
      by_cases h : c.utf8Size ≤ n
      · simp [takeBytes, dropBytes, h, ih]
      · simp [takeBytes, dropBytes, h]

/-- The greatest character boundary that is not beyond byte `n` of the text. -/
def floor (s : List Char) (n : Nat) : Nat :=
  byteLength (takeBytes n s)

/-- The whole characters between two byte positions. -/
def slice (s : List Char) (start stop : Nat) : List Char :=
  takeBytes (stop - start) (dropBytes start s)

/-- What is left of the text when it starts with the given characters. -/
def afterWord : List Char → List Char → Option (List Char)
  | [], text => some text
  | _ :: _, [] => none
  | w :: word, c :: text => if w = c then afterWord word text else none

/-- A text starts with a word exactly when it is the word and a rest. -/
theorem afterWord_eq_some_iff {word text rest : List Char} :
    afterWord word text = some rest ↔ text = word ++ rest := by
  induction word generalizing text with
  | nil => simp [afterWord, eq_comm]
  | cons w word ih =>
      cases text with
      | nil => simp [afterWord]
      | cons c text =>
          by_cases h : w = c
          · subst h
            simp [afterWord, ih]
          · simp [afterWord, h, Ne.symm h]

end TreeAlign.Text
