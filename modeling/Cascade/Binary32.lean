import Cascade.Text
/-!
Floating point numbers of 32 bits, as exact data.

A finite number is a sign and a rank: the number of magnitudes below its own. Every finite
magnitude is a whole number of units of `2 ^ -149`, and `units` gives that number, so that
comparing, dividing and rounding are integer arithmetic. `ofRatio` is the one place where a
number is rounded: to the nearest magnitude, and to the even one of two equally near.
-/
namespace Cascade

inductive Binary32 where
  | finite (negative : Bool) (rank : Fin 0x7f800000)
  | infinite (negative : Bool)
  | nan
  deriving DecidableEq, Inhabited

namespace Binary32

def nearestEven (n d : Nat) : Nat :=
  let low := n / d
  let rest := n % d
  if 2 * rest < d ∨ (2 * rest = d ∧ low % 2 = 0) then low else low + 1

/-- The whole number nearest to `n / d`; of two equally near, the greater one. -/
def nearestUp (n d : Nat) : Nat := (2 * n + d) / (2 * d)

def binade : Nat := 0x800000

def unitsInOne : Nat := Nat.pow 2 149

/-- The binary exponent of a rank's magnitude, counted from the least one. The ranks of the first
two binades lie evenly from zero on, and share the exponent 0. -/
def scale (rank : Nat) : Nat := rank / binade - 1

def units (rank : Nat) : Nat := (rank - scale rank * binade) * Nat.pow 2 (scale rank)

/-- The finite number of a sign and a rank; the infinity of that sign beyond the last rank. -/
def ofRank (negative : Bool) (rank : Nat) : Binary32 :=
  if h : rank < 0x7f800000 then .finite negative ⟨rank, h⟩ else .infinite negative

/-- The rank nearest to `n / d` units, ties to even: the quotient is measured in steps of the
binade it falls into, and a step too many carries into the next binade by itself. -/
def nearestRank (n d : Nat) : Nat :=
  let exponent := (n / d).log2 - 23
  nearestEven n (d * Nat.pow 2 exponent) + exponent * binade

def ofRatio (negative : Bool) (num den : Nat) : Binary32 :=
  ofRank negative (nearestRank (num * unitsInOne) den)

def signedZero (negative : Bool) : Binary32 := .finite negative 0

def zero : Binary32 := signedZero false
def one : Binary32 := ofRatio false 1 1
def hundred : Binary32 := ofRatio false 100 1
def thousand : Binary32 := ofRatio false 1000 1

/-- Numeric equality: the two zeros are equal, and nothing is equal to `nan`. -/
def numEq : Binary32 → Binary32 → Bool
  | .finite s a, .finite t b => a == b && (s == t || a == 0)
  | .infinite s, .infinite t => s == t
  | _, _ => false

def isPositive : Binary32 → Bool
  | .finite s a => !s && a != 0
  | .infinite s => !s
  | .nan => false

def inUnitInterval : Binary32 → Bool
  | .finite s a => a == 0 || (!s && units a ≤ unitsInOne)
  | _ => false

/-- The place of a number in the total order: it extends the numeric order, puts `-0` below `0`
and `nan` above everything. -/
def place : Binary32 → Int
  | .finite false a => a.val
  | .finite true a => -1 - a.val
  | .infinite false => 0x7f800000
  | .infinite true => -1 - 0x7f800000
  | .nan => 0x7f800001

def precedes (x y : Binary32) : Bool := x.place < y.place

/-- The correctly rounded quotient. Units cancel, so the quotient of two finite numbers is the
quotient of their units. -/
def div : Binary32 → Binary32 → Binary32
  | .nan, _ => .nan
  | _, .nan => .nan
  | .infinite _, .infinite _ => .nan
  | .infinite s, .finite t _ => .infinite (s != t)
  | .finite s _, .infinite t => signedZero (s != t)
  | .finite s a, .finite t b =>
    if b = 0 then if a = 0 then .nan else .infinite (s != t)
    else ofRatio (s != t) (units a) (units b)

/-- The number brought between 0 and 255 and rounded to a whole one, halves upward; `nan` is 0. -/
def toByte : Binary32 → UInt8
  | .finite false a => UInt8.ofNat (min 255 (nearestUp (units a) unitsInOne))
  | .infinite false => 255
  | _ => 0

end Binary32
end Cascade

/-! Decimal texts to numbers. A decimal is rounded once, from its exact value, whatever its length;
`ofScientific` answers the exponents that are far out of range before it computes a power. -/
namespace Cascade.Binary32
open Cascade.Text

def ofScientific (negative : Bool) (digits : Nat) (exponent : Int) : Binary32 :=
  if digits = 0 then signedZero negative
  else match exponent with
    | .ofNat e => if 39 ≤ e then .infinite negative else ofRatio negative (digits * Nat.pow 10 e) 1
    | .negSucc e =>
      -- `10 ^ (e + 1)` exceeds `2 ^ (3 * (e + 1))`, so here the value is below half a unit.
      if digits.log2 + 152 ≤ 3 * (e + 1) then signedZero negative
      else ofRatio negative digits (Nat.pow 10 (e + 1))

/-- The exponent after `e` or `E`: an optional sign and at least one digit. Nothing at all stands
for the exponent 0. -/
def exponent? : List Char → Option Int
  | [] => some 0
  | mark :: rest =>
    if mark ≠ 'e' ∧ mark ≠ 'E' then none
    else
      let (negative, digits) := match rest with
        | '-' :: more => (true, more)
        | '+' :: more => (false, more)
        | _ => (false, rest)
      if digits.isEmpty || !digits.all isDigit then none
      else some (if negative then -(decimalValue digits : Int) else decimalValue digits)

def unsigned? (negative : Bool) (cs : List Char) : Option Binary32 :=
  let whole := cs.takeWhile isDigit
  let afterWhole := cs.dropWhile isDigit
  let (fraction, tail) := match afterWhole with
    | '.' :: rest => (rest.takeWhile isDigit, rest.dropWhile isDigit)
    | _ => ([], afterWhole)
  let digits := whole ++ fraction
  if digits.isEmpty then none
  else (exponent? tail).map fun exponent =>
    ofScientific negative (decimalValue digits) (exponent - fraction.length)

/-- The number that a text stands for: an optional sign, then a decimal or one of the words `inf`,
`infinity` and `nan` in any case. -/
def ofText? (cs : List Char) : Option Binary32 :=
  let (negative, magnitude) := match cs with
    | '-' :: rest => (true, rest)
    | '+' :: rest => (false, rest)
    | _ => (false, cs)
  let word := String.ofList (magnitude.map lower)
  if word = "inf" ∨ word = "infinity" then some (.infinite negative)
  else if word = "nan" then some .nan
  else unsigned? negative magnitude

/-! The fewest decimal digits that read back to a number.
On each decimal grid, coarse to fine, the two neighbours of the exact value are tried; the first
grid on which one of them reads back decides, and of two such neighbours the nearer one is taken,
the upper one if both are equally near. Candidates are tested by reading them back, so whatever
`shortest` returns reads back; the exact value, which always does, ends the search. -/

structure Scientific where
  digits : Nat
  exponent : Int
  deriving DecidableEq, Inhabited

/-- The same decimal without trailing zeros; `fuel` bounds their number. -/
def Scientific.reduced : (fuel : Nat) → Scientific → Scientific
  | 0, d => d
  | fuel + 1, d =>
    if d.digits % 10 = 0 ∧ d.digits ≠ 0 then reduced fuel ⟨d.digits / 10, d.exponent + 1⟩ else d

def Scientific.readsAs (d : Scientific) (rank : Fin 0x7f800000) : Bool :=
  ofScientific false d.digits d.exponent == .finite false rank

/-- The power of ten of the leading digit of a magnitude above zero. All magnitudes are at least
`10 ^ -50`, so the magnitude shifted up by 50 places has that many digits before its point. -/
def leadingPower (rank : Nat) : Int :=
  ((Nat.toDigits 10 (units rank * Nat.pow 10 50 / unitsInOne)).length : Int) - 51

def inSteps (rank : Nat) (exponent : Int) : Nat × Nat :=
  match exponent with
  | .ofNat e => (units rank, unitsInOne * Nat.pow 10 e)
  | .negSucc e => (units rank * Nat.pow 10 (e + 1), unitsInOne)

/-- The decimal in steps of `10 ^ exponent` that reads back, if there is one. -/
def onGrid? (rank : Fin 0x7f800000) (exponent : Int) : Option Scientific :=
  let (n, d) := inSteps rank exponent
  let low : Scientific := .reduced 60 ⟨n / d, exponent⟩
  let high : Scientific := .reduced 60 ⟨n / d + 1, exponent⟩
  match low.readsAs rank, high.readsAs rank with
  | true, true => if 2 * (n % d) < d then some low else some high
  | true, false => some low
  | false, true => some high
  | false, false => none

/-- The decimal with `count` digits that reads back, if there is one. -/
def withDigits? (rank : Fin 0x7f800000) (count : Nat) : Option Scientific :=
  onGrid? rank (leadingPower rank + 1 - count)

/-- The magnitude itself: `units / 2 ^ 149` is `units * 5 ^ 149 / 10 ^ 149`. -/
def exactly (rank : Nat) : Scientific := ⟨units rank * Nat.pow 5 149, -149⟩

/-- The shortest decimal that reads back to a finite magnitude above zero. Nine digits are always
enough. -/
def shortest (rank : Fin 0x7f800000) : Scientific :=
  ([1, 2, 3, 4, 5, 6, 7, 8, 9].findSome? (withDigits? rank)).getD (exactly rank)

/-! Writing numbers. Which digits are written is `shortest`'s decision; a `Layout` says how they are
laid out. Style texts use `plain`, and error messages show values in the `inspected` layout. -/

structure Layout where
  /-- Written after a whole number in positional form. -/
  wholeMark : List Char
  /-- Whether a number whose leading digit stands for this power of ten has an exponent. -/
  scientific : Int → Bool

/-- Positional at every size, and a whole number has no point. -/
def plain : Layout := ⟨[], fun _ => false⟩

/-- A point in every positional number, and an exponent below `10 ^ -4` and from `10 ^ 16` on. -/
def inspected : Layout := ⟨['.', '0'], fun power => power < -4 || 16 ≤ power⟩

def Layout.positional (layout : Layout) (digits : List Char) (exponent : Int) : List Char :=
  match exponent with
  | .ofNat e => digits ++ List.replicate e '0' ++ layout.wholeMark
  | .negSucc e =>
    if e + 1 < digits.length then
      digits.take (digits.length - (e + 1)) ++ '.' :: digits.drop (digits.length - (e + 1))
    else '0' :: '.' :: List.replicate (e + 1 - digits.length) '0' ++ digits

def Layout.withExponent (digits : List Char) (power : Int) : List Char :=
  let mantissa := match digits with
    | first :: second :: more => first :: '.' :: second :: more
    | _ => digits
  mantissa ++ 'e' :: (toString power).toList

def Layout.magnitude (layout : Layout) (rank : Fin 0x7f800000) : List Char :=
  if rank.val = 0 then '0' :: layout.wholeMark
  else
    let decimal := shortest rank
    let digits := Nat.toDigits 10 decimal.digits
    let power := decimal.exponent + digits.length - 1
    if layout.scientific power then Layout.withExponent digits power
    else layout.positional digits decimal.exponent

def Layout.text (layout : Layout) : Binary32 → List Char
  | .finite negative rank => (if negative then ['-'] else []) ++ layout.magnitude rank
  | .infinite negative => (if negative then ['-'] else []) ++ "inf".toList
  | .nan => "NaN".toList

def text (x : Binary32) : String := String.ofList (plain.text x)

def inspect (x : Binary32) : String := String.ofList (inspected.text x)

end Cascade.Binary32
