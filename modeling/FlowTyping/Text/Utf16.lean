import FlowTyping.Text

namespace FlowTyping.Text

def isTail (c : UInt8) : Bool := c &&& 0xc0 == 0x80

def scalarOf3 (a b c : UInt8) : Nat :=
  (a &&& 0x0f).toNat * 0x1000 + (b &&& 0x3f).toNat * 0x40 + (c &&& 0x3f).toNat

def scalarOf4 (a b c d : UInt8) : Nat :=
  (a &&& 0x07).toNat * 0x40000 + (b &&& 0x3f).toNat * 0x1000 + (c &&& 0x3f).toNat * 0x40
    + (d &&& 0x3f).toNat

/-- The number of UTF-16 code units of a text, or nothing when the text is not well-formed UTF-8:
no overlong sequence, no surrogate, nothing above U+10FFFF. -/
def utf16Length : Text → Option Nat
  | [] => some 0
  | a :: rest =>
    if a < 0x80 then (utf16Length rest).map (· + 1)
    else if a >>> 5 == 0x06 then
      match rest with
      | b :: rest =>
        if isTail b && a &&& 0x1e != 0 then (utf16Length rest).map (· + 1) else none
      | _ => none
    else if a >>> 4 == 0x0e then
      match rest with
      | b :: c :: rest =>
        let s := scalarOf3 a b c
        if isTail b && isTail c && 0x800 ≤ s && !(0xd800 ≤ s && s ≤ 0xdfff) then
          (utf16Length rest).map (· + 1)
        else none
      | _ => none
    else if a >>> 3 == 0x1e then
      match rest with
      | b :: c :: d :: rest =>
        let s := scalarOf4 a b c d
        if isTail b && isTail c && isTail d && 0x10000 ≤ s && s ≤ 0x10ffff then
          (utf16Length rest).map (· + 2)
        else none
      | _ => none
    else none

end FlowTyping.Text
