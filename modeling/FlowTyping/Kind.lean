namespace FlowTyping

inductive Simple
  | never
  | error
  | any
  | unknown
  | object
  | void
  | null
  | undefined
  | string
  | number
  | bigint
  | symbol
  | boolean
deriving DecidableEq, Repr

def Simple.name : Simple → String
  | .never => "never"
  | .error => "error"
  | .any => "any"
  | .unknown => "unknown"
  | .object => "object"
  | .void => "void"
  | .null => "null"
  | .undefined => "undefined"
  | .string => "string"
  | .number => "number"
  | .bigint => "bigint"
  | .symbol => "symbol"
  | .boolean => "boolean"

inductive Kind
  | simple (s : Simple)
  | stringLiteral
  | numericLiteral
  | bigintLiteral
  | uniqueSymbol
  | booleanLiteral
  | union
  | record
  | function
  | construct
  | interface
  | intersection
  | nameSpace
  | generic
  | intrinsic
  | instantiation
  | unresolved
deriving DecidableEq, Repr

namespace Kind

def all : List Kind :=
  [.simple .never, .simple .error, .simple .any, .simple .unknown, .simple .object, .simple .void,
    .simple .null, .simple .undefined, .simple .string, .simple .number, .simple .bigint,
    .simple .symbol, .simple .boolean, .stringLiteral, .numericLiteral, .bigintLiteral,
    .uniqueSymbol, .booleanLiteral, .union, .record, .function, .construct, .interface,
    .intersection, .nameSpace, .generic, .intrinsic, .instantiation, .unresolved]

def name : Kind → String
  | .simple s => s.name
  | .stringLiteral => "string-literal"
  | .numericLiteral => "numeric-literal"
  | .bigintLiteral => "bigint-literal"
  | .uniqueSymbol => "unique-symbol"
  | .booleanLiteral => "boolean-literal"
  | .union => "union"
  | .record => "record"
  | .function => "function"
  | .construct => "constructor"
  | .interface => "interface"
  | .intersection => "intersection"
  | .nameSpace => "namespace"
  | .generic => "generic"
  | .intrinsic => "intrinsic"
  | .instantiation => "instance"
  | .unresolved => "unresolved"

def index (k : Kind) : Nat := all.idxOf k

def ofIndex? (n : Nat) : Option Kind := all[n]?

def ofName? (s : String) : Option Kind := all.find? (·.name == s)

def nameAt (n : Nat) : String := ((ofIndex? n).map name).getD "?"

def isShapeIndex (n : Nat) : Bool := union.index ≤ n

def isSimpleIndex (n : Nat) : Bool := n ≤ (Kind.simple .boolean).index

end Kind

end FlowTyping
