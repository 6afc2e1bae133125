import FlowTyping.CommandLine.Flag

/-!
Parsing the command line, token by token from the left. Tokens that name flags are applied, the
first `--` in their place ends the options, and all else is a spelling.
-/

namespace FlowTyping.CommandLine

structure Parsed where
  options : Options
  refusal : Option UsageError
deriving DecidableEq

def isNegativeNumber : Text → Bool
  | [] | [_] => false
  | a :: b :: _ => a == 0x2d && (Text.isDigit b || b == 0x2e)

def looksLikeOption (arg : Text) : Bool := arg.head? == some 0x2d && !isNegativeNumber arg

def Options.addSpelling (o : Options) (arg : Text) : Options :=
  if arg.isEmpty then o else { o with types := o.types ++ [arg] }

def Options.conclude (o : Options) : Parsed :=
  if o.types.isEmpty then ⟨o, some .noSpellings⟩
  else if o.logTypes && o.logPath.isEmpty then ⟨o, some .logTypesWithoutPath⟩
  else ⟨o, none⟩

/-- Reads the tokens after the program's name. Help ends the parsing at once. -/
def parseFrom (o : Options) : List Text → Parsed
  | [] => o.conclude
  | arg :: rest =>
    if arg = text "--" then (rest.foldl Options.addSpelling o).conclude
    else match readFlag arg rest.head? o with
      | .refused e o _ => ⟨o, some e⟩
      | .accepted o tookNext =>
        if o.help then ⟨o, none⟩
        else match tookNext, rest with
          | true, _ :: rest => parseFrom o rest
          | _, rest => parseFrom o rest
      | .unmatched =>
        if looksLikeOption arg then ⟨o, some (.unknownOption arg)⟩
        else parseFrom (o.addSpelling arg) rest

def parse (args : List Text) : Parsed := parseFrom {} args

end FlowTyping.CommandLine
