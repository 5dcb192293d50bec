import Unmangle.Toml.Item

set_option autoImplicit false

/-! # Unquoted values of TOML

Booleans, whole numbers, decimal numbers, dates and times. A token is one of them or an error.
Whole numbers have to fit into 128 bits, and decimal numbers must not round to infinity in 64-bit
floating point. Dates must exist; in times the seconds may be left out.
-/

namespace Unmangle.Toml

/-! ## Numbers -/

def isDigit (c : Char) : Bool := '0' ≤ c && c ≤ '9'

/-- The digits of a text in which single underscores stand between digits. -/
def digits? (ok : Char → Bool) (t : Text) : Option Text :=
  let groups := Text.splitOn '_' t
  if groups.all fun g => !g.isEmpty && g.all ok then some groups.flatten else none

/-- The number that some digits write in a base. -/
def numberOf (base : Nat) (t : Text) : Nat :=
  t.foldl (fun n c => n * base + (c.toNat - if isDigit c then 48 else if 'a' ≤ c then 87 else 55)) 0

/-- A text without its sign, and whether the sign is a minus. -/
def unsigned : Text → Bool × Text
  | '-' :: rest => (true, rest)
  | '+' :: rest => (false, rest)
  | t => (false, t)

/-- Whether some digits do not start with a zero that is not the only one. -/
def isProper : Text → Bool
  | '0' :: _ :: _ => false
  | _ => true

/-- Whether a number with a sign fits into 128 bits. -/
def fits (negative : Bool) (n : Nat) : Bool :=
  if negative then n ≤ Nat.pow 2 127 else n < Nat.pow 2 128

def isInteger (t : Text) : Bool :=
  match t with
  | '0' :: 'x' :: rest => prefixed 16 (fun c => c.isAlphanum && (isDigit c || c.toLower ≤ 'f')) rest
  | '0' :: 'o' :: rest => prefixed 8 (fun c => isDigit c && c ≤ '7') rest
  | '0' :: 'b' :: rest => prefixed 2 (fun c => c == '0' || c == '1') rest
  | _ =>
      let (negative, body) := unsigned t
      match digits? isDigit body with
      | some ds => isProper ds && fits negative (numberOf 10 ds)
      | none => false
where
  /-- Digits after a mark of their base. -/
  prefixed (base : Nat) (ok : Char → Bool) (t : Text) : Bool :=
    match digits? ok t with
    | some ds => fits false (numberOf base ds)
    | none => false

/-- The least number that rounds to infinity in 64-bit floating point. -/
def overflowBound : Nat := Nat.pow 2 1024 - Nat.pow 2 970

/-- Whether some digits, the last `places` of them after the point, stay below the bound of
floating point when a power of ten is multiplied to them or, if `below`, divided from them. The
tests of lengths come first, so no large power is ever computed. -/
def isFinite (digits : Text) (places : Nat) (below : Bool) (power : Nat) : Bool :=
  let digits := digits.dropWhile (· == '0')
  if digits.isEmpty then true
  else if below then
    digits.length ≤ 308 + power || numberOf 10 digits < overflowBound * Nat.pow 10 (power + places)
  else
    digits.length + power ≤ 310 + places &&
      numberOf 10 digits * Nat.pow 10 power < overflowBound * Nat.pow 10 places

/-- Whether a token is a decimal number: digits, then a fraction or an exponent or both. -/
def isFloat (t : Text) : Bool :=
  let (_, body) := unsigned t
  if body = "inf".toList ∨ body = "nan".toList then true
  else
    let isExponentMark := fun c : Char => c == 'e' || c == 'E'
    let mantissa := body.takeWhile (!isExponentMark ·)
    let whole := mantissa.takeWhile (· != '.')
    let fraction? := (mantissa.dropWhile (· != '.')).tail?
    let exponent? := (body.dropWhile (!isExponentMark ·)).tail?
    let (below, power) := unsigned (exponent?.getD ['0'])
    match digits? isDigit whole, digits? isDigit (fraction?.getD ['0']), digits? isDigit power with
    | some w, some f, some p =>
        isProper w && (fraction?.isSome || exponent?.isSome) &&
          isFinite (w ++ f) f.length below (numberOf 10 p)
    | _, _, _ => false

/-! ## Dates and times -/

def daysOf (year month : Nat) : Nat :=
  if month = 2 then
    if year % 4 = 0 ∧ (year % 100 ≠ 0 ∨ year % 400 = 0) then 29 else 28
  else if month = 4 ∨ month = 6 ∨ month = 9 ∨ month = 11 then 30
  else 31

/-- The number that a text of a given count of digits writes. -/
def fixed? (count : Nat) (t : Text) : Option Nat :=
  if t.length = count ∧ t.all isDigit then some (numberOf 10 t) else none

/-- Whether a text is a date: year, month and day with dashes between them. -/
def isDate (t : Text) : Bool :=
  match Text.splitOn '-' t with
  | [y, m, d] =>
      match fixed? 4 y, fixed? 2 m, fixed? 2 d with
      | some y, some m, some d => 1 ≤ m && m ≤ 12 && 1 ≤ d && d ≤ daysOf y m
      | _, _, _ => false
  | _ => false

/-- Whether a text is a clock reading of hours and minutes. -/
def isClock (h m : Text) : Bool :=
  (fixed? 2 h).any (· ≤ 23) && (fixed? 2 m).any (· ≤ 59)

/-- Whether a text is the seconds of a time, with or without a fraction. -/
def isSeconds (t : Text) : Bool :=
  match Text.splitOn '.' t with
  | [s] => (fixed? 2 s).any (· ≤ 60)
  | [s, f] => (fixed? 2 s).any (· ≤ 60) && !f.isEmpty && f.all isDigit
  | _ => false

def isTime (t : Text) : Bool :=
  match Text.splitOn ':' t with
  | [h, m] => isClock h m
  | [h, m, s] => isClock h m && isSeconds s
  | _ => false

/-- Whether a text is a time of day with or without its distance from universal time. -/
def isZonedTime (t : Text) : Bool :=
  let clock := t.takeWhile fun c => isDigit c || c == ':' || c == '.'
  match t.dropWhile fun c => isDigit c || c == ':' || c == '.' with
  | [] => isTime clock
  | sign :: zone =>
      isTime clock &&
        (((sign == 'Z' || sign == 'z') && zone.isEmpty) ||
          ((sign == '+' || sign == '-') &&
            match Text.splitOn ':' zone with
            | [h, m] => isClock h m
            | _ => false))

/-- Whether a token is a date, a time or both. -/
def isMoment (t : Text) : Bool :=
  match t.drop 10 with
  | [] => isDate t || isTime t
  | c :: time =>
      ((c == 'T' || c == 't' || c == ' ') && isDate (t.take 10) && isZonedTime time) || isTime t

/-! ## Tokens -/

/-- Whether a character can stand in an unquoted value. -/
def isScalarChar (c : Char) : Bool :=
  c.isAlphanum || c == '+' || c == '-' || c == '.' || c == '_' || c == ':'

def startsHour : Text → Bool
  | a :: b :: ':' :: _ => isDigit a && isDigit b
  | _ => false

/-- The token at the start of a text, and what follows. A date goes on over one blank if a time
follows. -/
def token (t : Text) : Text × Text :=
  let first := t.takeWhile isScalarChar
  match t.dropWhile isScalarChar with
  | ' ' :: rest =>
      if isDate first && startsHour rest then
        (first ++ ' ' :: rest.takeWhile isScalarChar, rest.dropWhile isScalarChar)
      else (first, ' ' :: rest)
  | rest => (first, rest)

def scalarItem? (t : Text) : Option Item :=
  if t = "true".toList then some (.flag true)
  else if t = "false".toList then some (.flag false)
  else if isInteger t || isFloat t then some .number
  else if isMoment t then some .moment
  else none

end Unmangle.Toml
