namespace FlowTyping

def nanBits : UInt64 := 0x7ff8000000000000

def infinityBits : UInt64 := 0x7ff0000000000000

def signBit : UInt64 := 0x8000000000000000

def isNaNBits (b : UInt64) : Bool := infinityBits < b &&& 0x7fffffffffffffff

/-- A number is a binary64 bit pattern; of the patterns of not-a-number only `nanBits` is used. -/
structure Number where
  bits : UInt64
  canonical : isNaNBits bits = true → bits = nanBits
deriving DecidableEq

namespace Number

def ofBits (b : UInt64) : Number :=
  if h : isNaNBits b = true then ⟨nanBits, fun _ => rfl⟩ else ⟨b, fun h' => absurd h' h⟩

def nan : Number := ofBits nanBits

def infinity (negative : Bool) : Number :=
  ofBits (if negative then infinityBits ||| signBit else infinityBits)

/-- What a number stands for: a finite one is `m * 2 ^ q`, with its sign apart. -/
inductive Value
  | nan
  | infinite (negative : Bool)
  | finite (negative : Bool) (m : Nat) (q : Int)
deriving DecidableEq

def exponentField (x : Number) : Nat := ((x.bits >>> 52) &&& 0x7ff).toNat

def fractionField (x : Number) : Nat := (x.bits &&& 0xfffffffffffff).toNat

def negative (x : Number) : Bool := x.bits &&& signBit != 0

def value (x : Number) : Value :=
  match x.exponentField with
  | 0 => .finite x.negative x.fractionField (-1074)
  | 0x7ff => if x.fractionField = 0 then .infinite x.negative else .nan
  | e => .finite x.negative (Nat.pow 2 52 + x.fractionField) (e - 1075)

end Number

end FlowTyping
