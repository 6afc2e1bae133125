import FlowTyping.Number.Basic

namespace FlowTyping.Number

/-- The quotient rounded to the nearest integer, a tie to the even one. -/
def roundDiv (num den : Nat) : Nat :=
  let k := num / den
  let r := num % den
  if 2 * r < den then k
  else if den < 2 * r then k + 1
  else if k % 2 = 0 then k else k + 1

def scale (num den : Nat) (q : Int) : Nat × Nat :=
  match q with
  | .ofNat k => (num, den * Nat.pow 2 k)
  | .negSucc k => (num * Nat.pow 2 (k + 1), den)

def exponentOf (num den : Nat) : Int :=
  let e : Int := Int.ofNat num.log2 - Int.ofNat den.log2
  let (n, d) := scale num den e
  if d ≤ n then e else e - 1

/-- The bit pattern nearest to a positive fraction. The pattern of `m * 2 ^ q` is
`(q + 1074) * 2 ^ 52 + m` for subnormal and normal numbers alike, also when rounding carries `m` up
to `2 ^ 53`. -/
def nearestPattern (num den : Nat) : Nat :=
  let q := max (exponentOf num den - 52) (-1074)
  let (n, d) := scale num den q
  (q + 1074).toNat * Nat.pow 2 52 + roundDiv n d

/-- The number nearest to `num / den`, unless it would be infinite, or zero for a fraction that
is not zero. -/
def ofRatio? (negative : Bool) (num den : Nat) : Option Number :=
  let sign := if negative then signBit else 0
  if num = 0 then some (ofBits sign)
  else
    let p := nearestPattern num den
    if p = 0 || infinityBits.toNat ≤ p then none else some (ofBits (UInt64.ofNat p ||| sign))

def ofNat (n : Nat) : Number := (ofRatio? false n 1).getD (infinity false)

end FlowTyping.Number
