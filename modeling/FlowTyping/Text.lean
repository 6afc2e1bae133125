namespace FlowTyping

abbrev Text := List UInt8

def text (s : String) : Text := s.toUTF8.data.toList

namespace Text

def isDigit (c : UInt8) : Bool := 0x30 ≤ c && c ≤ 0x39

def isLetter (c : UInt8) : Bool := (0x41 ≤ c && c ≤ 0x5a) || (0x61 ≤ c && c ≤ 0x7a)

def isBlank (c : UInt8) : Bool := c == 0x20 || (0x09 ≤ c && c ≤ 0x0d)

def lowerByte (c : UInt8) : UInt8 := if 0x41 ≤ c && c ≤ 0x5a then c + 0x20 else c

def lower (t : Text) : Text := t.map lowerByte

def trim (t : Text) : Text := ((t.dropWhile isBlank).reverse.dropWhile isBlank).reverse

def untilNul (t : Text) : Text := t.takeWhile (· != 0)

def ofNat (n : Nat) : Text := (Nat.toDigits 10 n).map Char.toUInt8

def toNat (t : Text) : Nat := t.foldl (fun n c => 10 * n + (c.toNat - 0x30)) 0

def join (sep : Text) : List Text → Text
  | [] => []
  | [t] => t
  | t :: ts => t ++ sep ++ join sep ts

/-- Whether `a` comes before `b` when they are compared byte by byte, a proper beginning first. -/
def precedes : Text → Text → Bool
  | _, [] => false
  | [], _ :: _ => true
  | a :: as, b :: bs => a < b || (a == b && precedes as bs)

end Text

end FlowTyping
