import FlowTyping.Number.Rounding
import FlowTyping.Text

namespace FlowTyping.Number

/-- An unsigned decimal as written: its digits, how many of them follow the point, its exponent. -/
structure Written where
  digits : Text
  places : Nat
  exponent : Int

def readExponent : Text → Option Int
  | [] => some 0
  | e :: rest =>
    if Text.lowerByte e != 0x65 then none
    else
      let (negative, ds) := match rest with
        | c :: r => if c = 0x2d then (true, r) else if c = 0x2b then (false, r) else (false, rest)
        | [] => (false, rest)
      if ds.isEmpty || !ds.all Text.isDigit then none
      else some (if negative then -Int.ofNat (Text.toNat ds) else Int.ofNat (Text.toNat ds))

def readWritten (t : Text) : Option Written :=
  let whole := t.takeWhile Text.isDigit
  let rest := t.dropWhile Text.isDigit
  let (fraction, rest) := match rest with
    | c :: r =>
      if c = 0x2e then (r.takeWhile Text.isDigit, r.dropWhile Text.isDigit) else ([], rest)
    | [] => ([], rest)
  if whole.isEmpty && fraction.isEmpty then none
  else (readExponent rest).map fun e => ⟨whole ++ fraction, fraction.length, e⟩

/-- The number nearest to a written decimal. Decimals of 10 ^ 310 or more are too large, those
under 10 ^ -330 too small. -/
def Written.toNumber? (w : Written) (negative : Bool) : Option Number :=
  let n := Text.toNat w.digits
  let e := w.exponent - w.places
  let size := (w.digits.dropWhile (· == 0x30)).length + e
  if n = 0 then ofRatio? negative 0 1
  else if 310 < size || size < -330 then none
  else match e with
    | .ofNat k => ofRatio? negative (n * Nat.pow 10 k) 1
    | .negSucc k => ofRatio? negative n (Nat.pow 10 (k + 1))

def isNaNWord (t : Text) : Bool :=
  Text.lower (t.take 3) == text "nan" &&
    match t.drop 3 with
    | [] => true
    | c :: r =>
      c == 0x28 && r.getLast? == some 0x29 &&
        r.dropLast.all fun c => Text.isLetter c || Text.isDigit c || c == 0x5f

def readUnsigned (negative : Bool) (t : Text) : Option Number :=
  if Text.lower t = text "inf" || Text.lower t = text "infinity" then some (infinity negative)
  else if isNaNWord t then some nan
  else (readWritten t).bind (·.toNumber? negative)

def read : Text → Option Number
  | [] => none
  | c :: t => if c = 0x2d then readUnsigned true t else readUnsigned false (c :: t)

end FlowTyping.Number
