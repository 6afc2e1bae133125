import FlowTyping.Fault
import FlowTyping.Number.Read
import FlowTyping.Ty

namespace FlowTyping.Spelling

def words : List Simple :=
  [.string, .number, .bigint, .boolean, .symbol, .object, .void, .null, .undefined, .any, .unknown,
    .never]

def word? (t : Text) : Option Ty :=
  match words.find? (fun s => t = text s.name) with
  | some s => some (.simple s)
  | none =>
    if t = text "true" then some (.boolean true)
    else if t = text "false" then some (.boolean false)
    else none

def isQuote (c : UInt8) : Bool := c == 0x27 || c == 0x22

/-- The canonical digits of an integer given by its sign and digits: no zeros in front, no sign on
zero. -/
def canonicalDigits (negative : Bool) (ds : Text) : Text :=
  match ds.dropWhile (· == 0x30) with
  | [] => text "0"
  | ds => if negative then text "-" ++ ds else ds

def integer? (t : Text) : Option Text :=
  let (negative, ds) := match t with
    | c :: r => if c = 0x2d then (true, r) else (false, t)
    | [] => (false, t)
  if ds.isEmpty || !ds.all Text.isDigit then none else some (canonicalDigits negative ds)

def bigint? (t : Text) : Option Text :=
  if t.getLast? = some 0x6e then integer? t.dropLast else none

def readTrimmed (t : Text) : Except Fault Ty :=
  match word? t with
  | some ty => .ok ty
  | none =>
    match t with
    | [] => .error .emptySpelling
    | c :: rest =>
      if isQuote c then
        if rest.getLast? = some c then .ok (.string rest.dropLast)
        else .error (.unterminatedString t)
      else match bigint? t with
        | some ds => .ok (.bigint ds)
        | none =>
          match Number.read t with
          | some x => .ok (.number x)
          | none => .error (.unknownSpelling t)

def read (t : Text) : Except Fault Ty := readTrimmed t.trim

/-- Cuts a text at the bars outside quotes. `open?` is the quote that is open, and `piece` is what
has been read since the last cut. -/
def splitFrom (open? : Option UInt8) (piece : Text) : Text → List Text
  | [] => [piece]
  | c :: rest =>
    match open? with
    | some q => splitFrom (if c = q then none else some q) (piece ++ [c]) rest
    | none =>
      if isQuote c then splitFrom (some c) (piece ++ [c]) rest
      else if c = 0x7c then piece :: splitFrom none [] rest
      else splitFrom none (piece ++ [c]) rest

def split (t : Text) : List Text := splitFrom none [] t

def readAll (args : List Text) : Except Fault (List Ty) := (args.flatMap split).mapM read

end FlowTyping.Spelling
