import FlowTyping.Number.Basic

namespace FlowTyping.Number

structure Decimal where
  digits : Nat
  exponent : Int
deriving DecidableEq

def digitCount (n : Nat) : Nat := (Nat.toDigits 10 n).length

def decimalPoint (num den : Nat) : Int :=
  if den ≤ num then digitCount (num / den)
  else 1 - digitCount ((den - 1) / num)

def scale10 (num den : Nat) (e : Int) : Nat × Nat :=
  match e with
  | .ofNat k => (num, den * Nat.pow 10 k)
  | .negSucc k => (num * Nat.pow 10 (k + 1), den)

/-- The reals that round to a number, as multiples of `num / den`: those between `low` and `high`
around `mid`, with both ends when `closed`. -/
structure Interval where
  low : Nat
  mid : Nat
  high : Nat
  closed : Bool
  num : Nat
  den : Nat

/-- The interval of the number `m * 2 ^ q` in quarters of its last place. The gap below a power of
two is half the gap above it, unless the number is subnormal or the least normal one. -/
def Interval.of (m : Nat) (q : Int) : Interval where
  low := if m = Nat.pow 2 52 && -1074 < q then 4 * m - 1 else 4 * m - 2
  mid := 4 * m
  high := 4 * m + 2
  closed := m % 2 = 0
  num := match q - 2 with
    | .ofNat k => Nat.pow 2 k
    | .negSucc _ => 1
  den := match q - 2 with
    | .ofNat _ => 1
    | .negSucc k => Nat.pow 2 (k + 1)

def Interval.holds (i : Interval) (n d c : Nat) : Bool :=
  if i.closed then i.low * n ≤ c * d && c * d ≤ i.high * n
  else i.low * n < c * d && c * d < i.high * n

/-- The point of the grid of multiples of `10 ^ e` that stands for the interval, if it has one: of
the two neighbours of its middle the one inside, and of two inside the nearer, a tie to the even
one. -/
def Interval.onGrid (i : Interval) (e : Int) : Option Nat :=
  let (n, d) := scale10 i.num i.den e
  let a := i.mid * n / d
  let b := a + 1
  match i.holds n d a, i.holds n d b with
  | true, true =>
    let below := i.mid * n - a * d
    let above := b * d - i.mid * n
    some (if below < above then a else if above < below then b else if a % 2 = 0 then a else b)
  | true, false => some a
  | false, true => some b
  | false, false => none

def Interval.search (i : Interval) (point : Int) : Nat → Nat → Option Decimal
  | 0, _ => none
  | fuel + 1, count =>
    match i.onGrid (point - count) with
    | some c => some ⟨c, point - count⟩
    | none => i.search point fuel (count + 1)

def Decimal.strip (x : Decimal) : Nat → Decimal
  | 0 => x
  | fuel + 1 =>
    if x.digits % 10 = 0 then Decimal.strip ⟨x.digits / 10, x.exponent + 1⟩ fuel else x

/-- The shortest decimal of `m * 2 ^ q`, for `m` positive. Seventeen digits always suffice. -/
def shortest (m : Nat) (q : Int) : Decimal :=
  let i := Interval.of m q
  let point := decimalPoint (i.mid * i.num) i.den
  ((i.search point 17 1).getD ⟨0, 0⟩).strip 17

end FlowTyping.Number
