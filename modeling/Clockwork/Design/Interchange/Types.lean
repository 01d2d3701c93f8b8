import Clockwork.Design.DataType
import Clockwork.Design.Interchange.Code

namespace Clockwork

open Interchange

namespace ProcessInfo

def toJson (p : ProcessInfo) : Json :=
  .object [("kind", .text p.kind.label), ("clock", Json.ofOption Expr.toJson p.clock),
    ("reset", Json.ofOption Expr.toJson p.reset),
    ("sensitivity", .array (p.sensitivity.map Expr.toJson))]

def ofJson? (j : Json) : Option ProcessInfo := do
  let r ← Record.of? ["kind", "clock", "reset", "sensitivity"] j
  return ⟨← r.get "kind" (choice? ProcessKind.all ProcessKind.label),
    ← r.optional "clock" Expr.ofJson?, ← r.optional "reset" Expr.ofJson?,
    ← r.get "sensitivity" (list? Expr.ofJson?)⟩

end ProcessInfo

namespace RegisterDecl

def toJson (r : RegisterDecl) : Json :=
  .object [("name", .text r.name), ("bits", .ofNat r.bits),
    ("offset", Json.ofOption Json.ofNat r.offset)]

def ofJson? (j : Json) : Option RegisterDecl := do
  let r ← Record.of? ["name", "bits", "offset"] j
  return ⟨← r.get "name" text?, ← r.getD "bits" 32 natural32?,
    ← r.getD "offset" none (nullable? natural64?)⟩

end RegisterDecl

namespace Bind

def toJson (b : Bind) : Json := .object [("lhs", b.lhs.toJson), ("rhs", b.rhs.toJson)]

def ofJson? (j : Json) : Option Bind := do
  let r ← Record.of? ["lhs", "rhs"] j
  return ⟨← r.get "lhs" Expr.ofJson?, ← r.get "rhs" Expr.ofJson?⟩

end Bind

mutual

def DataType.toJson : DataType → Json
  | .int bits signed =>
    taggedRecord "Int" [("bits", .ofNat bits), ("signed", .bool signed)]
  | .string => .text "String"
  | .enum name variants =>
    taggedRecord "Enum" [("name", .text name),
      ("variants", .array (variants.map fun v => .array [.text v.1, .ofInt v.2]))]
  | .struct b => tagged "Struct" b.toJson
  | .object b => tagged "Class" b.toJson
  | .component c => tagged "Component" c.toJson
  | .external c externalName =>
    taggedRecord "Extern" [("component", c.toJson), ("extern_name", .text externalName)]
  | .protocol name methods =>
    taggedRecord "Protocol" [("name", .text name), ("methods", .array (functionsJson methods))]
  | .lock => .text "Lock"
  | .event => .text "Event"
  | .memory element size =>
    taggedRecord "Memory" [("element_type", element.toJson), ("size", .ofNat size)]
  | .regFile name registers =>
    taggedRecord "RegFile" [("name", .text name),
      ("registers", .array (registers.map RegisterDecl.toJson))]
  | .addressSpace => .text "AddressSpace"
  | .addrHandle => .text "AddrHandle"
  | .channel element depth =>
    taggedRecord "Channel" [("element_type", element.toJson), ("depth", .ofNat depth)]
  | .getEnd element => taggedRecord "GetIf" [("element_type", element.toJson)]
  | .putEnd element => taggedRecord "PutIf" [("element_type", element.toJson)]
  | .tuple element size =>
    taggedRecord "Tuple" [("element_type", element.toJson), ("size", .ofNat size)]
  | .ref name => taggedRecord "Ref" [("name", .text name)]

def Body.toJson : Body → Json
  | ⟨name, super?, fields, functions⟩ =>
    .object [("name", .text name), ("super_type", typeJson? super?),
      ("fields", .array (fieldsJson fields)), ("functions", .array (functionsJson functions))]

def Component.toJson : Component → Json
  | ⟨body, binds, syncs, combs, processes⟩ =>
    .object [("body", body.toJson), ("bind_map", .array (binds.map Bind.toJson)),
      ("sync_processes", .array (functionsJson syncs)),
      ("comb_processes", .array (functionsJson combs)),
      ("processes", .array (functionsJson processes))]

def Field.toJson : Field → Json
  | ⟨name, type, kind, direction, initial, width, arguments, isConst⟩ =>
    .object [("name", .text name), ("datatype", type.toJson), ("kind", .text kind.label),
      ("direction", Json.ofOption (fun d => .text d.label) direction),
      ("initial_value", Json.ofOption Expr.toJson initial),
      ("width_expr", Json.ofOption Expr.toJson width),
      ("kwargs_expr", Json.ofOption (fun l => .array (Expr.toJsonKeywords l)) arguments),
      ("is_const", .bool isConst)]

def Function.toJson : Function → Json
  | ⟨name, params, body, returns, isAsync, process⟩ =>
    .object [("name", .text name), ("params", .array (paramsJson params)),
      ("body", .array (Stmt.toJsonAll body)), ("returns", typeJson? returns),
      ("is_async", .bool isAsync), ("metadata", Json.ofOption ProcessInfo.toJson process)]

def Param.toJson : Param → Json
  | ⟨name, type⟩ => .object [("name", .text name), ("datatype", typeJson? type)]

def typeJson? : Option DataType → Json
  | none => .null
  | some t => t.toJson

def fieldsJson : List Field → List Json
  | [] => []
  | f :: rest => f.toJson :: fieldsJson rest

def functionsJson : List Function → List Json
  | [] => []
  | f :: rest => f.toJson :: functionsJson rest

def paramsJson : List Param → List Json
  | [] => []
  | p :: rest => p.toJson :: paramsJson rest

end

def Param.read (type? : Json → Option DataType) (j : Json) : Option Param := do
  let r ← Record.of? ["name", "datatype"] j
  return ⟨← r.get "name" text?, ← r.optional "datatype" type?⟩

def Function.read (type? : Json → Option DataType) (j : Json) : Option Function := do
  let r ← Record.of? ["name", "params", "body", "returns", "is_async", "metadata"] j
  return ⟨← r.get "name" text?, ← r.get "params" (list? (Param.read type?)),
    ← r.get "body" (list? Stmt.ofJson?), ← r.optional "returns" type?,
    ← r.get "is_async" bool?, ← r.optional "metadata" ProcessInfo.ofJson?⟩

def Field.read (type? : Json → Option DataType) (j : Json) : Option Field := do
  let r ← Record.of? ["name", "datatype", "kind", "direction", "initial_value", "width_expr",
    "kwargs_expr", "is_const"] j
  return ⟨← r.get "name" text?, ← r.get "datatype" type?,
    ← r.get "kind" (choice? FieldKind.all FieldKind.label),
    ← r.optional "direction" (choice? Direction.all Direction.label),
    ← r.optional "initial_value" Expr.ofJson?, ← r.optional "width_expr" Expr.ofJson?,
    ← r.optional "kwargs_expr" (list? (keyword? Expr.ofJson?)), ← r.get "is_const" bool?⟩

def Body.read (type? : Json → Option DataType) (j : Json) : Option Body := do
  let r ← Record.of? ["name", "super_type", "fields", "functions"] j
  return ⟨← r.get "name" text?, ← r.optional "super_type" type?,
    ← r.get "fields" (list? (Field.read type?)),
    ← r.get "functions" (list? (Function.read type?))⟩

def Component.read (type? : Json → Option DataType) (j : Json) : Option Component := do
  let r ← Record.of? ["body", "bind_map", "sync_processes", "comb_processes", "processes"] j
  let functions := list? (Function.read type?)
  return ⟨← r.get "body" (Body.read type?), ← r.get "bind_map" (list? Bind.ofJson?),
    ← r.get "sync_processes" functions, ← r.get "comb_processes" functions,
    ← r.get "processes" functions⟩

namespace DataType

/-- Reads a type that nests at most `depth` deep. Without a size a memory has 1024 elements, and
without a depth a channel is unlimited. -/
def read : (depth : Nat) → Json → Option DataType
  | 0, _ => none
  | depth + 1, j => do
    let inner := read depth
    let t ← Tagged.of? j
    match t.tag with
    | "Int" =>
      let r ← t.record ["bits", "signed"]
      return int (← r.get "bits" natural32?) (← r.get "signed" bool?)
    | "String" => t.alone string
    | "Enum" =>
      let r ← t.record ["name", "variants"]
      return enum (← r.get "name" text?) (← r.get "variants" (list? (pair? text? word?)))
    | "Struct" => (t.one (Body.read inner)).map struct
    | "Class" => (t.one (Body.read inner)).map object
    | "Component" => (t.one (Component.read inner)).map component
    | "Extern" =>
      let r ← t.record ["component", "extern_name"]
      return external (← r.get "component" (Component.read inner))
        (← r.get "extern_name" text?)
    | "Protocol" =>
      let r ← t.record ["name", "methods"]
      return protocol (← r.get "name" text?) (← r.get "methods" (list? (Function.read inner)))
    | "Lock" => t.alone lock
    | "Event" => t.alone event
    | "Memory" =>
      let r ← t.record ["element_type", "size"]
      return memory (← r.get "element_type" inner) (← r.getD "size" 1024 natural64?)
    | "RegFile" =>
      let r ← t.record ["name", "registers"]
      return regFile (← r.get "name" text?) (← r.get "registers" (list? RegisterDecl.ofJson?))
    | "AddressSpace" => t.alone addressSpace
    | "AddrHandle" => t.alone addrHandle
    | "Channel" =>
      let r ← t.record ["element_type", "depth"]
      return channel (← r.get "element_type" inner) (← r.getD "depth" 0 natural64?)
    | "GetIf" =>
      let r ← t.record ["element_type"]
      return getEnd (← r.get "element_type" inner)
    | "PutIf" =>
      let r ← t.record ["element_type"]
      return putEnd (← r.get "element_type" inner)
    | "Tuple" =>
      let r ← t.record ["element_type", "size"]
      return tuple (← r.get "element_type" inner) (← r.get "size" natural64?)
    | "Ref" =>
      let r ← t.record ["name"]
      return ref (← r.get "name" text?)
    | _ => none

def ofJson? (j : Json) : Option DataType := read (j.depth + 1) j

end DataType

def Interchange.argument? : Json → Option (String × Expr) := keyword? Expr.ofJson?

def Field.ofJson? : Json → Option Field := Field.read DataType.ofJson?

end Clockwork
