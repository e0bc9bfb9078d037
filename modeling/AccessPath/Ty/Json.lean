import AccessPath.Json.Decode
import AccessPath.Ty.Basic

/-!
# Types in JSON

A type is written as an object: its `kind`, and `of` for what the kind carries. It is also read
from the array of the two. A kind that carries nothing may have an `of` of null. Where `of` stands
before `kind` the reader has to copy it, since only the kind says what to read it as.

As a key's value the kind is an enumerator, at the head of an array a tag.
-/

namespace AccessPath.Ty

open Json (Tree Source)

/-- A kind and what it carries. -/
def kindTree (kind : String) (content : Option Tree) : Tree :=
  .ofFields (("kind", .ofString kind) :: (content.map fun c => ("of", c)).toList)

mutual

/-- A type in JSON. -/
def toTree : Ty → Tree
  | .string => kindTree "string" none
  | .bool => kindTree "bool" none
  | .int => kindTree "int" none
  | .long => kindTree "long" none
  | .double => kindTree "double" none
  | .struct name => kindTree "struct" (some (.ofString name))
  | .reference name => kindTree "class" (some (.ofString name))
  | .set element => kindTree "set" (some element.toTree)
  | .list element => kindTree "list" (some element.toTree)
  | .sequence element => kindTree "sequence" (some element.toTree)
  | .function params result =>
    kindTree "function" (some (.array [.array (toTrees params), result.toTree]))
  | .any => kindTree "any" none
  | .void => kindTree "void" none
termination_by structural t => t

/-- Types in JSON. -/
def toTrees : List Ty → List Tree
  | [] => []
  | t :: ts => t.toTree :: toTrees ts
termination_by structural ts => ts

end

/-- The JSON text of a type. -/
def toJson (t : Ty) : String := t.toTree.render

/-- The kinds, numbered from zero. -/
def kinds : List String :=
  ["string", "bool", "int", "long", "double", "struct", "class", "set", "list", "sequence",
    "function", "any", "void"]

/-- The kind of a type and what it carries, with the source to read that from. -/
def tagged? (source : Source) (budget : Nat) : Tree → Option (String × Option Tree × Source)
  | .array [kind, content] => do return (← kind.tag? source kinds, some content, source)
  | .object fields => do
    let fields ← Tree.named? fields
    match fields.filter (fun f => f.1 = "kind" ∨ f.1 = "of") with
    | [("kind", kind)] => return (← kind.enumerator? source budget, none, source)
    | [("kind", kind), ("of", content)] =>
      return (← kind.enumerator? source budget, some content, source)
    | [("of", content), ("kind", kind)] =>
      return (← kind.enumerator? source budget, some content, ← source.copied? budget content)
    | _ => none
  | _ => none

/-- The type of a kind that carries nothing. -/
def ofPlainKind? : String → Option Ty
  | "string" => some .string
  | "bool" => some .bool
  | "int" => some .int
  | "long" => some .long
  | "double" => some .double
  | "any" => some .any
  | "void" => some .void
  | _ => none

/-- A kind that carries nothing has no content, or null. -/
def isPlainContent : Option Tree → Bool
  | none | some .null => true
  | _ => false

/-- Reads a type in which at most `budget` arrays and objects nest. -/
def ofTree? (source : Source) : Nat → Tree → Option Ty
  | 0, _ => none
  | budget + 1, t => do
    let (kind, content, source) ← tagged? source budget t
    match kind, content with
    | "struct", some name => name.toString?.map .struct
    | "class", some name => name.toString?.map .reference
    | "set", some element => (ofTree? source budget element).map .set
    | "list", some element => (ofTree? source budget element).map .list
    | "sequence", some element => (ofTree? source budget element).map .sequence
    | "function", some (.array [.array params, result]) =>
      match budget with
      | budget + 2 =>
        return .function (← params.mapM fun p => ofTree? source budget p)
          (← ofTree? source (budget + 1) result)
      | _ => none
    | kind, content => if isPlainContent content then ofPlainKind? kind else none
termination_by structural budget => budget

/-- Reads the type that a JSON text writes. -/
def ofJson? (s : String) : Option Ty := Json.decodeText (ofTree? .stream Json.nestingLimit) s

end AccessPath.Ty
