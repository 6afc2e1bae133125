import FlowTyping.CommandLine.Flag

namespace FlowTyping.CommandLine

def baseName (path : Text) : Text := (path.reverse.takeWhile (· != 0x2f)).reverse

def programName (path : Option Text) : Text :=
  match path.getD [] with
  | [] => text "tyflow"
  | path => baseName path

def column : Nat := 24

def usageLine (spelling explanation : Text) : Text :=
  text "  " ++ spelling ++
    List.replicate (if spelling.length < column then column - spelling.length else 1) 0x20 ++
    explanation ++ text "\n"

def usage (path : Option Text) : Text :=
  text "Usage: " ++ programName path ++ text " [options] type...\n\n" ++
  text "Folds every type spelling into one union and prints it.\n\nOptions:\n" ++
  Flag.all.flatMap (fun f => usageLine (text f.spelling) (text f.summary)) ++
  usageLine (text "--") (text "End of options") ++
  text "\nType spellings:\n" ++
  text "  string number bigint boolean symbol object void null undefined\n" ++
  text "  any unknown never true false 'text' \"text\" 42 -1.5 7n\n" ++
  usageLine (text "a|b") (text "Several members in one argument")

end FlowTyping.CommandLine
