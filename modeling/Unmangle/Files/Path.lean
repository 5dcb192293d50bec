import Unmangle.Text.Basic

set_option autoImplicit false

/-! # Paths

A path is a text with slashes. It keeps the way it was written; its parts are found by cutting it
at the slashes, where empty parts and parts that are a single dot do not count. Only a single dot
that opens a relative path counts, as a part of its own.

* `Path.join` and `Path.parent?` give texts cut from or put together of the given ones, never a
  normal form.
* `Path.extension?` is what follows the last dot of the last part, unless that dot opens it.
* `Path.parts` decides when two paths are the same.
-/

namespace Unmangle

/-- A path, as it was written. -/
structure Path where
  text : Text
  deriving DecidableEq, Repr, Inhabited

namespace Path

def ofString (s : String) : Path := ⟨s.toList⟩

def toString (p : Path) : String := String.ofList p.text

def isAbsolute (p : Path) : Bool := p.text.head? == some '/'

/-! ## Parts -/

inductive Part where
  | root
  | here
  | up
  | name (n : Text)
  deriving DecidableEq, Repr

/-- Whether a cut of a path does not count as a part. -/
def isTrivial (cut : Text) : Bool := cut == [] || cut == ['.']

/-- The head of a path, which is the leading slash or a leading single dot, and the cuts of what
follows it. -/
def cuts (p : Path) : Text × List Text :=
  match p.text with
  | '/' :: rest => (['/'], Text.splitOn '/' rest)
  | ['.'] => (['.'], [])
  | '.' :: '/' :: rest => (['.'], [] :: Text.splitOn '/' rest)
  | t => ([], Text.splitOn '/' t)

def partOf (cut : Text) : Part := if cut = ['.', '.'] then .up else .name cut

def parts (p : Path) : List Part :=
  let (head, body) := p.cuts
  let front := if head = ['/'] then [Part.root] else if head = ['.'] then [Part.here] else []
  front ++ (body.filter (!isTrivial ·)).map partOf

/-- Whether two paths have the same parts. -/
def same (p q : Path) : Bool := p.parts == q.parts

/-- The last part, if it is a name. -/
def fileName? (p : Path) : Option Text :=
  match p.parts.getLast? with
  | some (.name n) => some n
  | _ => none

/-! ## Joining and leaving -/

/-- A path seen from another one: an absolute path stays as it is. -/
def join (base p : Path) : Path :=
  if p.isAbsolute then p
  else if base.text = [] ∨ base.text.getLast? = some '/' then ⟨base.text ++ p.text⟩
  else ⟨base.text ++ '/' :: p.text⟩

/-- The path through some names from a path on. -/
def along (p : Path) (names : List Text) : Path := names.foldl (fun path name => path.join ⟨name⟩) p

/-- The text of some cuts after a head. -/
def glue (head : Text) (body : List Text) : Path := ⟨head ++ ['/'].intercalate body⟩

/-- The path without its last part. The root and the empty path have no parent. -/
def parent? (p : Path) : Option Path :=
  let (head, body) := p.cuts
  match body.reverse.dropWhile isTrivial with
  | _ :: rest => some (glue head (rest.dropWhile isTrivial).reverse)
  | [] => if head = ['.'] then some ⟨[]⟩ else none

/-- The path with another last part; without a last name, the path with one more part. -/
def withFileName (p : Path) (name : Text) : Path :=
  let base := if p.fileName?.isSome then p.parent?.getD p else p
  base.join ⟨name⟩

/-- A path and its parents, the longest first. The fuel is the number of cuts, which is never
less than the number of parents. -/
def ancestors (p : Path) : List Path := go (p.cuts.2.length + 1) p
where
  go : Nat → Path → List Path
    | 0, p => [p]
    | fuel + 1, p =>
        match p.parent? with
        | none => [p]
        | some up => p :: go fuel up

/-! ## Extensions -/

/-- Cuts a file name at its last dot. A dot that opens the name, or one of `..`, is none. -/
def cutName (name : Text) : Text × Option Text :=
  if name = ['.', '.'] then (name, none)
  else
    match name.reverse.dropWhile (· != '.') with
    | [] => (name, none)
    | _ :: stem =>
        if stem.isEmpty then (name, none)
        else (stem.reverse, some (name.reverse.takeWhile (· != '.')).reverse)

/-- The file name without its extension. -/
def stem? (p : Path) : Option Text := p.fileName?.map fun n => (cutName n).1

/-- What follows the last dot of the file name. -/
def extension? (p : Path) : Option Text := p.fileName?.bind fun n => (cutName n).2

end Path

end Unmangle
