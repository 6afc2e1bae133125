import FlowTyping.Text

namespace FlowTyping

/-- The entries of a tally, in increasing order of their keys. -/
structure Tally where
  entries : List (Text × UInt64) := []
deriving DecidableEq

namespace Tally

def updateIn (key : Text) (f : UInt64 → UInt64) : List (Text × UInt64) → List (Text × UInt64)
  | [] => [(key, f 0)]
  | (k, v) :: rest =>
    if k = key then (k, f v) :: rest
    else if Text.precedes key k then (key, f 0) :: (k, v) :: rest
    else (k, v) :: updateIn key f rest

def update (t : Tally) (key : Text) (f : UInt64 → UInt64) : Tally := ⟨updateIn key f t.entries⟩

def add (t : Tally) (key : Text) (n : UInt64) : Tally := t.update key (· + n)

def set (t : Tally) (key : Text) (n : UInt64) : Tally := t.update key fun _ => n

def get? (t : Tally) (key : Text) : Option UInt64 := t.entries.lookup key

def get (t : Tally) (key : Text) : UInt64 := (t.get? key).getD 0

end Tally

end FlowTyping
