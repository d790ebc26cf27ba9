/-!
# Shortest decimals

The fewest decimal digits that read back as a given floating-point number, and of those the
nearest. A number is taken apart into `m · 2 ^ q`; the reals that round to it lie between the
midpoints to its two neighbours, ends included when `m` is even. Of the grids of 1, 2, … 17
significant digits the first one wins that has a point there, and of its two points next to the
number the nearer one, the even one in a tie.
-/

namespace PixelUnit.Number

/-- A positive floating-point number as `m · 2 ^ q`, and whether it is the least one with its
exponent, so that its lower neighbour is half as far away. -/
structure Binary where
  m : Nat
  q : Int
  isLeast : Bool

/-- A decimal number `0.d₁d₂… · 10 ^ exponent`. -/
structure Decimal where
  digits : List Char
  exponent : Int
deriving DecidableEq

/-- A power of two. -/
def powerOfTwo (n : Nat) : Nat :=
  Nat.pow 2 n

/-- A power of ten. -/
def powerOfTen (n : Nat) : Nat :=
  Nat.pow 10 n

/-- The parts of a positive finite number. -/
def Binary.ofFloat (x : Float) : Binary :=
  let bits := x.toBits.toNat % powerOfTwo 63
  let e : Nat := bits / powerOfTwo 52
  let fraction : Nat := bits % powerOfTwo 52
  if e == 0 then ⟨fraction, -1074, false⟩
  else ⟨powerOfTwo 52 + fraction, (e : Int) - 1075, fraction == 0 && e != 1⟩

namespace Binary

/-- The number, its lower and its upper midpoint, all in quarters of `2 ^ q`. -/
def quarters (b : Binary) : Nat × Nat × Nat :=
  (4 * b.m, if b.isLeast then 4 * b.m - 1 else 4 * b.m - 2, 4 * b.m + 2)

/-- The fraction `(num, den)` by which quarters are turned into units of `10 ^ k`. -/
def scale (b : Binary) (k : Int) : Nat × Nat :=
  let p := b.q - 2
  (powerOfTwo p.toNat * powerOfTen (-k).toNat, powerOfTwo (-p).toNat * powerOfTen k.toNat)

/-- The least `e` such that the number is below `10 ^ e`. -/
def magnitude (b : Binary) : Int :=
  let (num, den) := b.scale (-400)
  ((Nat.toDigits 10 (4 * b.m * num / den)).length : Int) - 400

/-- The point nearest to the number on the grid of step `10 ^ k`, if it reads back. -/
def nearest? (b : Binary) (k : Int) : Option Nat :=
  let (num, den) := b.scale k
  let (value, low, high) := b.quarters
  let below := value * num / den
  let readsBack (d : Nat) : Bool :=
    if b.m % 2 == 0 then low * num ≤ d * den && d * den ≤ high * num
    else low * num < d * den && d * den < high * num
  let belowError := value * num - below * den
  let aboveError := (below + 1) * den - value * num
  if readsBack below && readsBack (below + 1) then
    if belowError < aboveError || (belowError == aboveError && below % 2 == 0) then some below
    else some (below + 1)
  else if readsBack below then some below
  else if readsBack (below + 1) then some (below + 1)
  else none

/-- The shortest decimal with at least `n` digits, of which `17 - n` more may be tried. -/
def shortestFrom (b : Binary) (e : Int) : Nat → Nat → Decimal
  | 0, _ => ⟨['0'], 1⟩
  | fuel + 1, n =>
    match b.nearest? (e - n) with
    | some d =>
      let digits := Nat.toDigits 10 d
      ⟨(digits.reverse.dropWhile (· == '0')).reverse, e - n + digits.length⟩
    | none => b.shortestFrom e fuel (n + 1)

/-- The shortest decimal that reads back as the number. -/
def shortest (b : Binary) : Decimal :=
  b.shortestFrom b.magnitude 17 1

end Binary

/-- How decimals are laid out: which exponents are written with the point in its place. -/
structure Layout where
  leastPositional : Int
  mostPositional : Int
  exponentDigits : Nat

/-- A decimal laid out, always with a point or an exponent. -/
def Layout.write (l : Layout) (d : Decimal) : List Char :=
  let n : Int := d.digits.length
  if l.leastPositional ≤ d.exponent && d.exponent ≤ l.mostPositional then
    if d.exponent ≤ 0 then '0' :: '.' :: List.replicate (-d.exponent).toNat '0' ++ d.digits
    else if n ≤ d.exponent then
      d.digits ++ List.replicate (d.exponent - n).toNat '0' ++ ['.', '0']
    else d.digits.take d.exponent.toNat ++ '.' :: d.digits.drop d.exponent.toNat
  else
    let point := if n == 1 then [] else '.' :: d.digits.drop 1
    let e := d.exponent - 1
    let exponent := Nat.toDigits 10 e.natAbs
    d.digits.take 1 ++ point ++ 'e' :: (if e < 0 then '-' else '+') ::
      (List.replicate (l.exponentDigits - exponent.length) '0' ++ exponent)

/-- Numbers from a ten-thousandth up to sixteen digits before the point are written in full,
others with an exponent of at least two digits. -/
def layout : Layout := ⟨-3, 16, 2⟩

/-- A floating-point number as it is shown. -/
def showFloat (x : Float) : String :=
  if x.isNaN then "nan"
  else
    let sign := if x.toBits.toNat / powerOfTwo 63 == 1 then "-" else ""
    if x.isInf then sign ++ "inf"
    else
      let b := Binary.ofFloat x
      sign ++ String.ofList (if b.m == 0 then ['0', '.', '0'] else layout.write b.shortest)

end PixelUnit.Number
