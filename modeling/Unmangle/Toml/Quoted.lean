import Unmangle.Text.Basic

set_option autoImplicit false

/-! # Quoted texts of TOML

The four forms of a text: in double quotes, where a backslash escapes, in single quotes, where
nothing does, and both over several lines between three quotes. Each reader starts after the
opening quotes and gives the text and what follows the closing quotes. A line break in a text over
several lines is kept as it is written; the one right after the opening quotes is dropped.
-/

namespace Unmangle.Toml

def hexDigit? (c : Char) : Option Nat :=
  if '0' ≤ c ∧ c ≤ '9' then some (c.toNat - '0'.toNat)
  else if 'a' ≤ c ∧ c ≤ 'f' then some (c.toNat - 'a'.toNat + 10)
  else if 'A' ≤ c ∧ c ≤ 'F' then some (c.toNat - 'A'.toNat + 10)
  else none

def scalar? (n : Nat) : Option Char := if n.isValidChar then some (Char.ofNat n) else none

/-- Whether a character may stand in a comment or a text as it is. -/
def isPlainChar (c : Char) : Bool := c == '\t' || (' ' ≤ c && c != '\x7f')

def escaped? : Char → Option Char
  | 'b' => some '\x08'
  | 't' => some '\t'
  | 'n' => some '\n'
  | 'f' => some '\x0c'
  | 'r' => some '\r'
  | 'e' => some '\x1b'
  | '"' => some '"'
  | '\\' => some '\\'
  | _ => none

/-- The number of digits that follow a backslash and a letter. -/
def escapeDigits? : Char → Option Nat
  | 'x' => some 2
  | 'u' => some 4
  | 'U' => some 8
  | _ => none

/-- What a reader of a text with escapes is in the middle of. -/
inductive Escape where
  | none
  /-- A backslash was read. -/
  | begun
  /-- Some digits are still to come. -/
  | digits (left value : Nat)
  /-- A backslash and blanks were read; the line has to end. -/
  | lineEnd
  /-- The line has ended; blanks and further line ends are dropped. -/
  | margin

def withChar (c : Char) (r : Option (Text × Text)) : Option (Text × Text) :=
  r.map fun (t, rest) => (c :: t, rest)

/-- One more hexadecimal digit: either more are to come, or the character is complete. -/
def moreDigits (left value : Nat) (c : Char) : Option (Nat ⊕ Char) := do
  let digit ← hexDigit? c
  let value := value * 16 + digit
  if left ≤ 1 then (scalar? value).map .inr else some (.inl value)

/-- A text in double quotes. -/
def readBasic : Escape → Text → Option (Text × Text)
  | _, [] => none
  | .begun, c :: rest =>
      match escaped? c, escapeDigits? c with
      | some d, _ => withChar d (readBasic .none rest)
      | none, some n => readBasic (.digits n 0) rest
      | none, none => none
  | .digits left value, c :: rest =>
      match moreDigits left value c with
      | some (.inl value) => readBasic (.digits (left - 1) value) rest
      | some (.inr d) => withChar d (readBasic .none rest)
      | none => none
  | _, '"' :: rest => some ([], rest)
  | _, '\\' :: rest => readBasic .begun rest
  | _, c :: rest => if isPlainChar c then withChar c (readBasic .none rest) else none

/-- A text in single quotes. -/
def readLiteral : Text → Option (Text × Text)
  | [] => none
  | '\'' :: rest => some ([], rest)
  | c :: rest => if isPlainChar c then withChar c (readLiteral rest) else none

/-- The closing of a text over several lines: three quotes, or up to five, of which the first ones
belong to the text. The input starts after the first three. -/
def closing (quote : Char) : Text → Text × Text
  | c :: d :: rest =>
      if c = quote ∧ d = quote then ([quote, quote], rest)
      else if c = quote then ([quote], d :: rest)
      else ([], c :: d :: rest)
  | [c] => if c = quote then ([quote], []) else ([], [c])
  | [] => ([], [])

/-- A text between three double quotes. -/
def readBasicLines : Escape → Text → Option (Text × Text)
  | _, [] => none
  | .digits left value, c :: rest =>
      match moreDigits left value c with
      | some (.inl value) => readBasicLines (.digits (left - 1) value) rest
      | some (.inr d) => withChar d (readBasicLines .none rest)
      | none => none
  | .begun, c :: rest =>
      match escaped? c, escapeDigits? c with
      | some d, _ => withChar d (readBasicLines .none rest)
      | none, some n => readBasicLines (.digits n 0) rest
      | none, none =>
          if c = ' ' ∨ c = '\t' ∨ (c = '\r' ∧ rest.head? = some '\n') then
            readBasicLines .lineEnd rest
          else if c = '\n' then readBasicLines .margin rest
          else none
  | .lineEnd, c :: rest =>
      if c = ' ' ∨ c = '\t' ∨ (c = '\r' ∧ rest.head? = some '\n') then
        readBasicLines .lineEnd rest
      else if c = '\n' then readBasicLines .margin rest
      else none
  | .margin, ' ' :: rest => readBasicLines .margin rest
  | .margin, '\t' :: rest => readBasicLines .margin rest
  | .margin, '\n' :: rest => readBasicLines .margin rest
  | .margin, '\r' :: '\n' :: rest => readBasicLines .margin rest
  | _, '"' :: '"' :: '"' :: rest => some (closing '"' rest)
  | _, '\\' :: rest => readBasicLines .begun rest
  | _, '\n' :: rest => withChar '\n' (readBasicLines .none rest)
  | _, '\r' :: '\n' :: rest => withChar '\r' (withChar '\n' (readBasicLines .none rest))
  | _, c :: rest => if isPlainChar c then withChar c (readBasicLines .none rest) else none

/-- A text between three single quotes. -/
def readLiteralLines : Text → Option (Text × Text)
  | [] => none
  | '\'' :: '\'' :: '\'' :: rest => some (closing '\'' rest)
  | '\n' :: rest => withChar '\n' (readLiteralLines rest)
  | '\r' :: '\n' :: rest => withChar '\r' (withChar '\n' (readLiteralLines rest))
  | c :: rest => if isPlainChar c then withChar c (readLiteralLines rest) else none

/-- Drops the line break right after the opening quotes. -/
def dropBreak : Text → Text
  | '\n' :: rest => rest
  | '\r' :: '\n' :: rest => rest
  | t => t

/-- A text of any form, if the input starts with a quote. -/
def readQuoted : Text → Option (Text × Text)
  | '"' :: '"' :: '"' :: rest => readBasicLines .none (dropBreak rest)
  | '"' :: rest => readBasic .none rest
  | '\'' :: '\'' :: '\'' :: rest => readLiteralLines (dropBreak rest)
  | '\'' :: rest => readLiteral rest
  | _ => none

end Unmangle.Toml
