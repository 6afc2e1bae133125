import FlowTyping.Number.Shortest
import FlowTyping.Text

namespace FlowTyping.Number

def Decimal.positional (x : Decimal) (whole : Nat) : Text :=
  let ds := Text.ofNat x.digits
  match x.exponent with
  | .ofNat _ => Text.ofNat whole
  | .negSucc k =>
    let places := k + 1
    if places < ds.length then
      ds.take (ds.length - places) ++ text "." ++ ds.drop (ds.length - places)
    else text "0." ++ List.replicate (places - ds.length) 0x30 ++ ds

def exponentText (e : Int) : Text :=
  let ds := Text.ofNat e.natAbs
  text (if e < 0 then "-" else "+") ++ (if ds.length < 2 then text "0" ++ ds else ds)

def Decimal.scientific (x : Decimal) : Text :=
  let ds := Text.ofNat x.digits
  let mantissa := if ds.length = 1 then ds else ds.take 1 ++ text "." ++ ds.drop 1
  mantissa ++ text "e" ++ exponentText (x.exponent + (ds.length - 1 : Nat))

def magnitudeText (m : Nat) (q : Int) : Text :=
  let x := shortest m q
  let fixed := x.positional (match q with
    | .ofNat k => m * Nat.pow 2 k
    | .negSucc k => m / Nat.pow 2 (k + 1))
  let sci := x.scientific
  if fixed.length ≤ sci.length then fixed else sci

def print (x : Number) : Text :=
  match x.value with
  | .nan => text "NaN"
  | .infinite negative => text (if negative then "-Infinity" else "Infinity")
  | .finite negative m q =>
    text (if negative then "-" else "") ++ (if m = 0 then text "0" else magnitudeText m q)

end FlowTyping.Number
