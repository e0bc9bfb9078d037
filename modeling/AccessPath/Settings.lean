import AccessPath.Json.Decode

/-!
# Evaluation settings

The nesting limit of an evaluation. In JSON the settings are an object or an array; what they leave
out has its default.
-/

namespace AccessPath

structure Settings where
  /-- The greatest depth at which a node is evaluated. The outermost node has depth 0. -/
  maxDepth : Nat := 256
  deriving DecidableEq, Repr, Inhabited

namespace Settings

open Json (Tree)

/-- The settings in JSON. -/
def toTree (s : Settings) : Tree := .ofFields [("max_depth", .ofInt s.maxDepth)]

/-- The JSON text of the settings. -/
def toJson (s : Settings) : String := s.toTree.render

/-- The first number that is too great for a limit. -/
def limitBound : Int := 0x10000000000000000

/-- Settings with a given limit, which is a 64-bit number. -/
def ofLimit? (t : Tree) : Option Settings := do
  let n ← t.toInt?
  if 0 ≤ n ∧ n < limitBound then some ⟨n.toNat⟩ else none

/-- Reads settings. -/
def ofTree? : Tree → Option Settings
  | .array [] => some {}
  | .array [limit] => ofLimit? limit
  | .object fields => do
    match ← Tree.single? (← Tree.named? fields) "max_depth" with
    | none => some {}
    | some limit => ofLimit? limit
  | _ => none

/-- Reads the settings that a JSON text writes. -/
def ofJson? (s : String) : Option Settings := Json.decodeText ofTree? s

end Settings

end AccessPath
