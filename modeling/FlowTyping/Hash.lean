import FlowTyping.Graph

/-!
Hashes of types that agree with equality. The hash unrolls a shape down to a fixed depth and does
not notice cycles, so that equal cyclic shapes of different lengths still hash alike.
-/

namespace FlowTyping

namespace Hash

def mix (seed value : UInt64) : UInt64 :=
  seed ^^^ (value + 0x9e3779b97f4a7c15 + (seed <<< (6 : UInt64)) + (seed >>> (2 : UInt64)))

def mixAll (seed : UInt64) (values : List UInt64) : UInt64 := values.foldl mix seed

def ofBool (b : Bool) : UInt64 := if b then 1 else 0

def ofKind (k : Kind) : UInt64 := UInt64.ofNat k.index

def ofNode (i : NodeId) : UInt64 := UInt64.ofNat (i + 1)

def maxDepth : Nat := 6

def bytes (t : Text) : UInt64 :=
  t.foldl (fun h c => (h ^^^ c.toUInt64) * 0x100000001b3) 0xcbf29ce484222325

end Hash

open Hash

def PropertyKey.hashWith (hashText : Text → UInt64) : PropertyKey → UInt64
  | .named name => mix 0 (hashText name)
  | .symbol id => mix 1 id.toUInt64

namespace Shape

def hashSlots (hashText : Text → UInt64) (hash : Ty → UInt64) (slots : List Slot) : UInt64 :=
  mixAll (UInt64.ofNat slots.length) <|
    slots.flatMap fun s => [s.key.hashWith hashText, hash s.type, ofBool s.optional]

def hashTypes (hash : Ty → UInt64) (types : List Ty) : UInt64 :=
  mixAll (UInt64.ofNat types.length) (types.map hash)

/-- The hash of a shape at a node, with `hash` for the types inside. The order of a union's members
does not matter. -/
def hashWith (hashText : Text → UInt64) (hash : Ty → UInt64) (id : NodeId) : Shape → UInt64
  | .union u => (u.toList.map hash).foldl (· + ·) 0
  | .record slots => hashSlots hashText hash slots
  | .callable _ params returns =>
    mixAll (UInt64.ofNat params.length) <|
      (params.flatMap fun p => [hash p.type, ofBool p.optional]) ++ [hash returns]
  | .interface name slots => mix (hashText name) (hashSlots hashText hash slots)
  | .intersection members => hashTypes hash members
  | .nameSpace name slots => mix (hashText name) (hashSlots hashText hash slots)
  | .generic _ _ _ => ofNode id
  | .intrinsic name => hashText name
  | .instantiation origin args => mix (origin.elim 0 ofNode) (hashTypes hash args)
  | .unresolved _ => ofNode id

end Shape

namespace Graph

def shallowHash (g : Graph) (hashText : Text → UInt64) (t : Ty) : UInt64 :=
  let seed := ofKind (g.kind t)
  match t with
  | .simple _ => seed
  | .string value => mix seed (hashText value)
  | .number value => mix seed value.bits
  | .bigint digits => mix seed (hashText digits)
  | .symbol id => mix seed id.toUInt64
  | .boolean value => mix seed (ofBool value)
  | .node i => mix seed (ofNode i)

def hashTo (g : Graph) (hashText : Text → UInt64) : Nat → Ty → UInt64
  | 0, .node i => ofKind (g.shape i).kind
  | levels + 1, .node i =>
    mix (ofKind (g.shape i).kind) ((g.shape i).hashWith hashText (g.hashTo hashText levels) i)
  | _, t => g.shallowHash hashText t

def hash (g : Graph) (hashText : Text → UInt64) (t : Ty) : UInt64 := g.hashTo hashText maxDepth t

/-- The hash of a node's shape, which sees one level more than that of a reference to it. -/
def hashNode (g : Graph) (hashText : Text → UInt64) (i : NodeId) : UInt64 :=
  (g.shape i).hashWith hashText (g.hashTo hashText maxDepth) i

end Graph

end FlowTyping
