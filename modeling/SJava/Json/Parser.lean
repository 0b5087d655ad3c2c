import SJava.Json

/-!
# Reading JSON

A text is read into a value. The fields of an object are kept sorted by key, of two fields with one
key the later stays, and values nest at most 127 deep.
-/

namespace SJava

namespace Json

def insertField (key : String) (value : Json) : List (String × Json) → List (String × Json)
  | [] => [(key, value)]
  | (k, v) :: fields =>
      if key < k then (key, value) :: (k, v) :: fields
      else if key == k then (key, value) :: fields
      else (k, v) :: insertField key value fields

def isBlankChar (c : Char) : Bool := c == ' ' || c == '\n' || c == '\t' || c == '\r'

def skipBlanks (cs : List Char) : List Char := cs.dropWhile isBlankChar

def afterWord? : List Char → List Char → Option (List Char)
  | [], cs => some cs
  | w :: ws, c :: cs => if w == c then afterWord? ws cs else none
  | _ :: _, [] => none

def hexValue? (c : Char) : Option Nat :=
  if c.isDigit then some (c.toNat - '0'.toNat)
  else if 'a' ≤ c ∧ c ≤ 'f' then some (c.toNat - 'a'.toNat + 10)
  else if 'A' ≤ c ∧ c ≤ 'F' then some (c.toNat - 'A'.toNat + 10)
  else none

def codeUnit? (a b c d : Char) : Option Nat := do
  let a ← hexValue? a
  let b ← hexValue? b
  let c ← hexValue? c
  let d ← hexValue? d
  return ((a * 16 + b) * 16 + c) * 16 + d

def escaped? : Char → Option Char
  | '"' => some '"'
  | '\\' => some '\\'
  | '/' => some '/'
  | 'b' => some '\x08'
  | 'f' => some '\x0c'
  | 'n' => some '\n'
  | 'r' => some '\r'
  | 't' => some '\t'
  | _ => none

/-- The characters up to the closing quote, and the rest of the text after it. A code point above
`0xffff` is escaped as a high surrogate and a low one, neither of which may stand alone. -/
def stringBody : List Char → Option (List Char × List Char)
  | '"' :: rest => some ([], rest)
  | '\\' :: 'u' :: a :: b :: c :: d :: rest =>
      match codeUnit? a b c d with
      | none => none
      | some unit =>
          if 0xdc00 ≤ unit ∧ unit ≤ 0xdfff then none
          else if 0xd800 ≤ unit ∧ unit ≤ 0xdbff then
            match rest with
            | '\\' :: 'u' :: e :: f :: g :: h :: rest =>
                match codeUnit? e f g h with
                | none => none
                | some low =>
                    if 0xdc00 ≤ low ∧ low ≤ 0xdfff then
                      let point := 0x10000 + (unit - 0xd800) * 0x400 + (low - 0xdc00)
                      (stringBody rest).map fun (cs, rest) => (.ofNat point :: cs, rest)
                    else none
            | _ => none
          else (stringBody rest).map fun (cs, rest) => (.ofNat unit :: cs, rest)
  | '\\' :: c :: rest =>
      match escaped? c with
      | none => none
      | some plain => (stringBody rest).map fun (cs, rest) => (plain :: cs, rest)
  | c :: rest =>
      if c.toNat < 0x20 || c == '\\' then none
      else (stringBody rest).map fun (cs, rest) => (c :: cs, rest)
  | [] => none

def digitValue (c : Char) : Nat := c.toNat - '0'.toNat

def wordLimit : Nat := Nat.pow 2 64

/-- Takes digits into a significand while it fits a word, and counts those that do not. -/
def takeDigits (significand : Nat) : List Char → Nat × Nat
  | [] => (significand, 0)
  | d :: ds =>
      let longer := significand * 10 + digitValue d
      if longer < wordLimit then takeDigits longer ds else (significand, (d :: ds).length)

/-- Scales by powers of ten, at most `10 ^ 308` at a time. What overflows has no value. -/
def scaled (x : Float) (exponent : Int) : Option Float :=
  let down : Nat → Float → Float := fun steps x =>
    (List.range steps).foldl (fun x _ => x / 1e308) x
  if 0 ≤ exponent then
    if exponent ≤ 308 then
      let y := x * .ofScientific 1 false exponent.toNat
      if y.isInf then none else some y
    else if x == 0 then some x else none
  else
    let size := (-exponent).toNat
    let steps := min ((size - 1) / 308) 3
    some (down steps x / .ofScientific 1 false (min (size - steps * 308) 308))

/-- The number with some digits before and after the point and some exponent. A whole number that
fits a word stays whole; any other becomes a float. -/
def numberOf (negative : Bool) (whole : List Char) (fraction : Option (List Char))
    (exponent : Option Int) : Option JsonNumber :=
  let (significand, dropped) := takeDigits 0 whole
  if fraction.isNone && exponent.isNone && dropped == 0 then
    if !negative then some (.integer significand)
    else if significand == 0 || Nat.pow 2 63 < significand then
      some (.float (-(Float.ofNat significand)))
    else some (.integer (-significand))
  else
    let digits := fraction.getD []
    let (significand, left) := takeDigits significand digits
    let shift : Int := dropped - (digits.length - left : Nat)
    (scaled (Float.ofNat significand) (shift + exponent.getD 0)).map fun x =>
      .float (if negative then -x else x)

def decimalValue (digits : List Char) : Nat :=
  digits.foldl (fun n d => n * 10 + digitValue d) 0

def fractionPart : List Char → Option (Option (List Char) × List Char)
  | '.' :: rest =>
      let digits := rest.takeWhile Char.isDigit
      if digits.isEmpty then none else some (some digits, rest.dropWhile Char.isDigit)
  | rest => some (none, rest)

def exponentPart : List Char → Option (Option Int × List Char)
  | [] => some (none, [])
  | c :: rest =>
      if c == 'e' || c == 'E' then
        let (negative, rest) :=
          match rest with
          | '-' :: rest => (true, rest)
          | '+' :: rest => (false, rest)
          | rest => (false, rest)
        let digits := rest.takeWhile Char.isDigit
        if digits.isEmpty then none
        else
          let size : Int := decimalValue digits
          some (some (if negative then -size else size), rest.dropWhile Char.isDigit)
      else some (none, c :: rest)

/-- A number whose sign has been read, and the rest of the text. No number but zero starts with the
digit zero. -/
def numberPart (negative : Bool) (cs : List Char) : Option (JsonNumber × List Char) := do
  let whole := cs.takeWhile Char.isDigit
  if whole.isEmpty || (whole.length > 1 && whole.head? == some '0') then none
  let (fraction, rest) ← fractionPart (cs.dropWhile Char.isDigit)
  let (exponent, rest) ← exponentPart rest
  let number ← numberOf negative whole fraction exponent
  return (number, rest)

mutual

/-- A value at the front of a text, and the rest of it. Every call takes a character or hands over
to one that does, so that twice the length of the text is fuel enough. -/
def valuePart (fuel depth : Nat) (cs : List Char) : Option (Json × List Char) :=
  match fuel with
  | 0 => none
  | fuel + 1 =>
      match skipBlanks cs with
      | '"' :: rest => (stringBody rest).map fun (cs, rest) => (.string (.ofList cs), rest)
      | '[' :: rest =>
          match depth, skipBlanks rest with
          | 0, _ => none
          | _ + 1, ']' :: rest => some (.array [], rest)
          | depth + 1, rest =>
              (itemsPart fuel depth rest).map fun (items, rest) => (.array items, rest)
      | '{' :: rest =>
          match depth, skipBlanks rest with
          | 0, _ => none
          | _ + 1, '}' :: rest => some (.object [], rest)
          | depth + 1, rest =>
              (fieldsPart fuel depth [] rest).map fun (fields, rest) => (.object fields, rest)
      | '-' :: rest => (numberPart true rest).map fun (n, rest) => (.number n, rest)
      | 'n' :: rest => (afterWord? ['u', 'l', 'l'] rest).map (.null, ·)
      | 't' :: rest => (afterWord? ['r', 'u', 'e'] rest).map (.bool true, ·)
      | 'f' :: rest => (afterWord? ['a', 'l', 's', 'e'] rest).map (.bool false, ·)
      | rest => (numberPart false rest).map fun (n, rest) => (.number n, rest)

def itemsPart (fuel depth : Nat) (cs : List Char) : Option (List Json × List Char) :=
  match fuel with
  | 0 => none
  | fuel + 1 =>
      match valuePart fuel depth cs with
      | none => none
      | some (item, rest) =>
          match skipBlanks rest with
          | ']' :: rest => some ([item], rest)
          | ',' :: rest =>
              (itemsPart fuel depth rest).map fun (items, rest) => (item :: items, rest)
          | _ => none

/-- The fields up to the brace that ends an object, put in among those before them. -/
def fieldsPart (fuel depth : Nat) (before : List (String × Json)) (cs : List Char) :
    Option (List (String × Json) × List Char) :=
  match fuel with
  | 0 => none
  | fuel + 1 =>
      match skipBlanks cs with
      | '"' :: rest =>
          match stringBody rest with
          | none => none
          | some (key, rest) =>
              match skipBlanks rest with
              | ':' :: rest =>
                  match valuePart fuel depth rest with
                  | none => none
                  | some (value, rest) =>
                      let fields := insertField (.ofList key) value before
                      match skipBlanks rest with
                      | '}' :: rest => some (fields, rest)
                      | ',' :: rest => fieldsPart fuel depth fields rest
                      | _ => none
              | _ => none
      | _ => none

end

def ofText? (text : String) : Option Json :=
  let cs := text.toList
  match valuePart (2 * cs.length + 2) 127 cs with
  | some (value, rest) => if (skipBlanks rest).isEmpty then some value else none
  | none => none

end Json

end SJava
