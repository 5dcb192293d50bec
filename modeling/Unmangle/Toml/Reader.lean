import Unmangle.Toml.Quoted
import Unmangle.Toml.Scalar

set_option autoImplicit false

/-! # Reading TOML documents

A document is read line by line: headers open tables, and key paths with values fill the one that
was opened last. Values nest no deeper than `nestingLimit`, and no key path is longer. Between
braces a line may end at any place but inside a key path. A text that is no document has no
reading. The recursive readers carry a count of steps; each step takes a character, so the length
of the text is enough.
-/

namespace Unmangle.Toml

/-- The deepest nesting of lists and braces, and the greatest number of keys in a path. -/
def nestingLimit : Nat := 80

/-! ## Blanks, comments and line ends -/

def skipBlanks (t : Text) : Text := t.dropWhile fun c => c == ' ' || c == '\t'

/-- Drops blanks, line ends and comments. -/
def skipLines (comment : Bool) : Text → Option Text
  | [] => some []
  | '\n' :: rest => skipLines false rest
  | '\r' :: '\n' :: rest => skipLines false rest
  | c :: rest =>
      if comment then if isPlainChar c then skipLines true rest else none
      else if c = ' ' ∨ c = '\t' then skipLines false rest
      else if c = '#' then skipLines true rest
      else some (c :: rest)

/-- Drops the rest of a line, which may hold blanks and a comment only. -/
def endLine (comment : Bool) : Text → Option Text
  | [] => some []
  | '\n' :: rest => some rest
  | '\r' :: '\n' :: rest => some rest
  | c :: rest =>
      if comment then if isPlainChar c then endLine true rest else none
      else if c = ' ' ∨ c = '\t' then endLine false rest
      else if c = '#' then endLine true rest
      else none

/-! ## Keys -/

def isKeyChar (c : Char) : Bool := c.isAlphanum || c == '_' || c == '-'

/-- One key: bare, or quoted on one line. -/
def readKey : Text → Option (Text × Text)
  | '"' :: '"' :: '"' :: _ => none
  | '\'' :: '\'' :: '\'' :: _ => none
  | '"' :: rest => readQuoted ('"' :: rest)
  | '\'' :: rest => readQuoted ('\'' :: rest)
  | t =>
      let key := t.takeWhile isKeyChar
      if key.isEmpty then none else some (key, t.dropWhile isKeyChar)

/-- Keys with dots between them, no more than a given number of them: all but the last one, the last
one, and what follows. -/
def readKeyPath : Nat → Text → Option (List Text × Text × Text)
  | 0, _ => none
  | steps + 1, t => do
      let (key, rest) ← readKey (skipBlanks t)
      match skipBlanks rest with
      | '.' :: rest =>
          let (path, last, rest) ← readKeyPath steps rest
          return (key :: path, last, rest)
      | rest => return ([], key, rest)

/-! ## Values -/

mutual

/-- A value, where a given number of levels may still open. -/
def readValue : Nat → Nat → Text → Option (Item × Text)
  | 0, _, _ => none
  | steps + 1, depth, t =>
      match t with
      | '[' :: rest =>
          if depth = 0 then none
          else (readArray steps (depth - 1) rest).map fun (items, rest) => (.array items, rest)
      | '\x7b' :: rest =>
          if depth = 0 then none
          else
            (readInline steps (depth - 1) [] rest).map fun (entries, rest) =>
              (.table .inline entries, rest)
      | c :: _ =>
          if c = '"' ∨ c = '\'' then
            (readQuoted t).map fun (text, rest) => (.text text, rest)
          else
            let (word, rest) := token t
            (scalarItem? word).map fun item => (item, rest)
      | [] => none

/-- The items of a list up to its closing bracket. -/
def readArray : Nat → Nat → Text → Option (List Item × Text)
  | 0, _, _ => none
  | steps + 1, depth, t => do
      match ← skipLines false t with
      | ']' :: rest => return ([], rest)
      | t =>
          let (item, rest) ← readValue steps depth t
          match ← skipLines false rest with
          | ',' :: rest =>
              let (items, rest) ← readArray steps depth rest
              return (item :: items, rest)
          | ']' :: rest => return ([item], rest)
          | _ => none

/-- The entries between braces, added to those before them. -/
def readInline : Nat → Nat → Entries → Text → Option (Entries × Text)
  | 0, _, _, _ => none
  | steps + 1, depth, entries, t => do
      match ← skipLines false t with
      | '\x7d' :: rest => return (entries, rest)
      | t =>
          let (path, key, rest) ← readKeyPath nestingLimit t
          match ← skipLines false rest with
          | '=' :: rest =>
              let (item, rest) ← readValue steps depth (← skipLines false rest)
              let entries ← entries.addValue path key item
              match ← skipLines false rest with
              | ',' :: rest => readInline steps depth entries rest
              | '\x7d' :: rest => return (entries, rest)
              | _ => none
          | _ => none

end

/-! ## Documents -/

/-- The entries of a document so far, and the path of the table that was opened last. -/
structure Draft where
  entries : Entries
  header : List Text

/-- Reads one line, which is not blank. -/
def readLine (draft : Draft) (t : Text) : Option (Draft × Text) := do
  match t with
  | '[' :: '[' :: rest =>
      let (path, key, rest) ← readKeyPath nestingLimit rest
      match rest with
      | ']' :: ']' :: rest =>
          return (⟨← draft.entries.openElement path key, path ++ [key]⟩, ← endLine false rest)
      | _ => none
  | '[' :: rest =>
      let (path, key, rest) ← readKeyPath nestingLimit rest
      match rest with
      | ']' :: rest =>
          return (⟨← draft.entries.openTable path key, path ++ [key]⟩, ← endLine false rest)
      | _ => none
  | _ =>
      let (path, key, rest) ← readKeyPath nestingLimit t
      match rest with
      | '=' :: rest =>
          let (item, rest) ← readValue (2 * rest.length + 1) nestingLimit (skipBlanks rest)
          let entries ← draft.entries.addUnder draft.header path key item
          return ({ draft with entries }, ← endLine false rest)
      | _ => none

def readLinesFrom : Nat → Draft → Text → Option Entries
  | 0, _, _ => none
  | steps + 1, draft, t => do
      match ← skipLines false t with
      | [] => return draft.entries
      | t =>
          let (draft, rest) ← readLine draft t
          readLinesFrom steps draft rest

/-- The entries of a document. A byte order mark before it does not count. -/
def readDocument (t : Text) : Option Entries :=
  let t := if t.head? = some '\ufeff' then t.tail else t
  readLinesFrom (t.length + 1) ⟨[], []⟩ t

end Unmangle.Toml
