/-!
# Shortest decimals

A finite float is written with the fewest decimal digits that round to it. The reals that round to
it form an interval; on each decimal grid only the two neighbours of the float can lie in it, and
the coarsest grid that has a point in it gives the digits.
-/

namespace SJava

/-- The number `digits * 10 ^ exponent`. -/
structure Decimal where
  digits : Nat
  exponent : Int
  deriving DecidableEq, Repr

/-- The number `significand * 2 ^ exponent`. -/
structure Binary where
  significand : Nat
  exponent : Int
  deriving DecidableEq, Repr

namespace Binary

def ofFloat (x : Float) : Binary :=
  let bits := x.toBits.toNat
  let field : Nat := bits / Nat.pow 2 52 % Nat.pow 2 11
  let fraction : Nat := bits % Nat.pow 2 52
  if field = 0 then ⟨fraction, -1074⟩ else ⟨Nat.pow 2 52 + fraction, (field : Int) - 1075⟩

def quotient (b : Binary) (scale : Int) : Nat × Nat :=
  (b.significand * Nat.pow 2 b.exponent.toNat * Nat.pow 10 (-scale).toNat,
    Nat.pow 2 (-b.exponent).toNat * Nat.pow 10 scale.toNat)

def magnitude (b : Binary) : Int :=
  let guess := Int.fdiv ((b.exponent + b.significand.log2) * 30103) 100000
  let holds (e : Int) : Bool := (b.quotient e).2 ≤ (b.quotient e).1
  if holds (guess + 1) then guess + 1 else if holds guess then guess else guess - 1

/-- Whether `n * 10 ^ scale` rounds to a float. The ends of the interval around the float round to
it if its significand is even, and the interval is narrower below a power of two. -/
def roundsFrom (b : Binary) (n : Nat) (scale : Int) : Bool :=
  let atPower := b.significand == Nat.pow 2 52 && b.exponent != -1074
  let lower : Binary := ⟨4 * b.significand - (if atPower then 1 else 2), b.exponent - 2⟩
  let upper : Binary := ⟨4 * b.significand + 2, b.exponent - 2⟩
  let (lowerNum, den) := lower.quotient scale
  let (upperNum, _) := upper.quotient scale
  if b.significand % 2 = 0 then lowerNum ≤ n * den && n * den ≤ upperNum
  else lowerNum < n * den && n * den < upperNum

/-- The point of a grid that is nearest to a float among those that round to it. -/
def onGrid? (b : Binary) (scale : Int) : Option Decimal :=
  let (num, den) := b.quotient scale
  let below := num / den
  match b.roundsFrom below scale, b.roundsFrom (below + 1) scale with
  | false, false => none
  | true, false => some ⟨below, scale⟩
  | false, true => some ⟨below + 1, scale⟩
  | true, true =>
      let twice := 2 * num
      let middle := (2 * below + 1) * den
      let down := twice < middle || (twice == middle && below % 2 == 0)
      some ⟨if down then below else below + 1, scale⟩

/-- The shortest decimal for a positive float. Seventeen digits are always enough. -/
def shortest (b : Binary) : Decimal :=
  let top := b.magnitude
  ((List.range 17).findSome? fun k => b.onGrid? (top - (k : Nat))).getD ⟨0, 0⟩

end Binary

/-- Digits are written positionally when the leading one stands between the fifth place after the
point and the sixteenth before it, with `.0` after a whole number, and with a signed exponent
otherwise. -/
def Decimal.text (d : Decimal) : String :=
  let shown := (d.digits.repr.toList.reverse.dropWhile (· == '0')).reverse
  let exponent := d.exponent + (d.digits.repr.length - shown.length : Nat)
  let point := exponent + shown.length
  let zeros (n : Int) : List Char := List.replicate n.toNat '0'
  if 0 ≤ exponent ∧ point ≤ 16 then .ofList (shown ++ zeros exponent ++ ['.', '0'])
  else if 0 < point ∧ point ≤ 16 then
    .ofList (shown.take point.toNat ++ ['.'] ++ shown.drop point.toNat)
  else if -5 < point ∧ point ≤ 0 then .ofList (['0', '.'] ++ zeros (-point) ++ shown)
  else
    let tail := shown.drop 1
    .ofList (shown.take 1 ++ (if tail.isEmpty then [] else '.' :: tail)) ++
      (if 0 < point then "e+" else "e-") ++ (point - 1).natAbs.repr

def floatText (x : Float) : String :=
  let sign := if x.toBits ≥ 0x8000000000000000 then "-" else ""
  if x == 0 then sign ++ "0.0" else sign ++ (Binary.ofFloat x).shortest.text

end SJava
