import AccessPath.Path.Basic
import AccessPath.Ty.Json

/-!
# Paths in JSON

A node is written as an object whose first key, `node`, names its kind. It is also read from the
array of the kind and the node's fields. A reader takes a copy of the whole text but for the
outermost kind, so that whatever the text holds has to be sound, unknown keys included. In the copy a
kind may also be given by its number.

A call made extension style has a receiver of null, or none.
-/

namespace AccessPath

open Json (Tree Source)

namespace MemberSig

/-- A member in JSON. -/
def toTree (m : MemberSig) : Tree := .ofFields [("name", .ofString m.name), ("ty", m.ty.toTree)]

/-- The JSON text of a member. -/
def toJson (m : MemberSig) : String := m.toTree.render

/-- Reads a member in which at most `budget` arrays and objects nest. -/
def ofTree? (source : Source) (budget : Nat) (t : Tree) : Option MemberSig :=
  match budget with
  | 0 => none
  | budget + 1 => do
    match ← t.record? ["name", "ty"] with
    | [some name, some ty] => return ⟨← name.toString?, ← Ty.ofTree? source budget ty⟩
    | _ => none

/-- Reads the member that a JSON text writes. -/
def ofJson? (s : String) : Option MemberSig :=
  Json.decodeText (ofTree? .stream Json.nestingLimit) s

end MemberSig

namespace MethodSig

/-- A method in JSON. -/
def toTree (m : MethodSig) : Tree :=
  .ofFields [("name", .ofString m.name), ("params", .array (Ty.toTrees m.params)),
    ("ret", m.result.toTree)]

/-- The JSON text of a method. -/
def toJson (m : MethodSig) : String := m.toTree.render

/-- Reads a method in which at most `budget` arrays and objects nest. -/
def ofTree? (source : Source) (budget : Nat) (t : Tree) : Option MethodSig :=
  match budget with
  | budget + 2 => do
    match ← t.record? ["name", "params", "ret"] with
    | [some name, some params, some result] =>
      return ⟨← name.toString?, ← (← params.items?).mapM (Ty.ofTree? source budget),
        ← Ty.ofTree? source (budget + 1) result⟩
    | _ => none
  | _ => none

/-- Reads the method that a JSON text writes. -/
def ofJson? (s : String) : Option MethodSig :=
  Json.decodeText (ofTree? .stream Json.nestingLimit) s

end MethodSig

namespace Path

/-- The kinds of nodes that JSON tells apart. -/
inductive NodeKind where
  | constant | parameter | memberAccess | methodCall | lambda
  deriving DecidableEq, Repr

namespace NodeKind

/-- The name of a kind. -/
def name : NodeKind → String
  | .constant => "constant"
  | .parameter => "parameter"
  | .memberAccess => "member_access"
  | .methodCall => "method_call"
  | .lambda => "lambda"

/-- The kinds, numbered from zero. -/
def all : List NodeKind := [.constant, .parameter, .memberAccess, .methodCall, .lambda]

/-- The kind that a tag names. -/
def ofTree? (source : Source) (t : Tree) : Option NodeKind := do
  let s ← t.tag? source (all.map name)
  all.find? fun kind => kind.name = s

/-- The object of a node. -/
def node (kind : NodeKind) (fields : List (String × Tree)) : Tree :=
  .ofFields (("node", .ofString kind.name) :: fields)

end NodeKind

mutual

/-- A path in JSON. -/
def toTree : Path → Tree
  | .constant value ty => NodeKind.constant.node [("value", value.toTree), ("ty", ty.toTree)]
  | .parameter name ty => NodeKind.parameter.node [("name", .ofString name), ("ty", ty.toTree)]
  | .memberAccess target member =>
    NodeKind.memberAccess.node [("target", target.toTree), ("member", member.toTree)]
  | .methodCall receiver method args =>
    NodeKind.methodCall.node [("receiver", receiver.toTree), ("method", method.toTree),
      ("args", .array (toTrees args))]
  | .extensionCall method args =>
    NodeKind.methodCall.node [("receiver", .null), ("method", method.toTree),
      ("args", .array (toTrees args))]
  | .lambda param paramTy body =>
    NodeKind.lambda.node [("param", .ofString param), ("param_ty", paramTy.toTree),
      ("body", body.toTree)]
termination_by structural p => p

/-- Paths in JSON. -/
def toTrees : List Path → List Tree
  | [] => []
  | p :: ps => p.toTree :: toTrees ps
termination_by structural ps => ps

end

/-- The JSON text of a path. -/
def toJson (p : Path) : String := p.toTree.render

/-- The kind of a node and a tree of its fields. -/
def tagged? (source : Source) : Tree → Option (NodeKind × Tree)
  | .array (tag :: items) => do return (← NodeKind.ofTree? source tag, .array items)
  | .object fields => do
    let named ← Tree.named? fields
    let tag ← ← Tree.single? named "node"
    let rest := fields.filter fun f => f.1.toString? ≠ some "node"
    return (← NodeKind.ofTree? source tag, .object rest)
  | _ => none

/-- The fields of a kind, in their declared order. -/
def NodeKind.keys : NodeKind → List String
  | .constant => ["value", "ty"]
  | .parameter => ["name", "ty"]
  | .memberAccess => ["target", "member"]
  | .methodCall => ["receiver", "method", "args"]
  | .lambda => ["param", "param_ty", "body"]

/-- Reads a path in which at most `budget` arrays and objects nest, the outermost kind from a given
source and everything else from a copy. -/
def ofNode? (source : Source) : Nat → Tree → Option Path
  | 0, _ => none
  | budget + 1, t => do
    let (kind, fields) ← tagged? source t
    match kind, ← fields.record? kind.keys with
    | .constant, [some value, some ty] =>
      return .constant (← Literal.ofTree? .copy budget value) (← Ty.ofTree? .copy budget ty)
    | .parameter, [some name, some ty] =>
      return .parameter (← name.toString?) (← Ty.ofTree? .copy budget ty)
    | .memberAccess, [some target, some member] =>
      return .memberAccess (← ofNode? .copy budget target) (← MemberSig.ofTree? .copy budget member)
    | .methodCall, [receiver, some method, some args] =>
      let method ← MethodSig.ofTree? .copy budget method
      match budget with
      | 0 => none
      | budget + 1 =>
        let args ← (← args.items?).mapM fun arg => ofNode? .copy budget arg
        match receiver with
        | none | some .null => return .extensionCall method args
        | some receiver => return .methodCall (← ofNode? .copy (budget + 1) receiver) method args
    | .lambda, [some param, some paramTy, some body] =>
      return .lambda (← param.toString?) (← Ty.ofTree? .copy budget paramTy)
        (← ofNode? .copy budget body)
    | _, _ => none
termination_by structural budget => budget

/-- Reads a path. -/
def ofTree? (t : Tree) : Option Path :=
  if t.isStrict Json.nestingLimit then ofNode? .stream Json.nestingLimit t else none

/-- Reads the path that a JSON text writes. -/
def ofJson? (s : String) : Option Path := Json.decodeText ofTree? s

end Path

end AccessPath
