import HardwareDesign.Graph.Defect
import HardwareDesign.Json
import HardwareDesign.Payload

/-!
The stored form of design values. A value with several forms is stored as an object with the name of its form as
its only key; a field that is not known is ignored when it is read.
-/

namespace HardwareDesign

open Json

def Json.name? : Json → Option String
  | .str s => some s
  | .obj [(s, .null)] => some s
  | _ => none

def Primitive.encode : Primitive → Json
  | blockRam => .str "M20K"
  | dsp => .str "Dsp"
  | flipFlop => .str "FF"

def Primitive.decode (j : Json) : Option Primitive :=
  match j.name? with
  | some "M20K" => some .blockRam
  | some "Dsp" => some .dsp
  | some "FF" => some .flipFlop
  | _ => none

def Severity.encode : Severity → Json
  | info => .str "Info"
  | warning => .str "Warning"
  | error => .str "Error"

def Severity.decode (j : Json) : Option Severity :=
  match j.name? with
  | some "Info" => some .info
  | some "Warning" => some .warning
  | some "Error" => some .error
  | _ => none

def PayloadKind.encode : PayloadKind → Json
  | module => .str "Module"
  | external => .str "ModuleExtern"
  | instantiation => .str "Instance"
  | register => .str "Register"
  | operation => .str "Other"
  | hierarchy => .str "InstanceHierarchy"
  | dynamicInstance => .str "DynamicInstance"
  | verbatim => .str "VerbatimAttr"
  | location => .str "PhysLocation"
  | registerLocations => .str "RegPhysLocation"

def PayloadKind.decode (j : Json) : Option PayloadKind :=
  match j.name? with
  | some "Module" => some .module
  | some "ModuleExtern" => some .external
  | some "Instance" => some .instantiation
  | some "Register" => some .register
  | some "Other" => some .operation
  | some "InstanceHierarchy" => some .hierarchy
  | some "DynamicInstance" => some .dynamicInstance
  | some "VerbatimAttr" => some .verbatim
  | some "PhysLocation" => some .location
  | some "RegPhysLocation" => some .registerLocations
  | _ => none

namespace ValueType

def encode : ValueType → Json
  | int width => .obj [("Int", .nat width.toNat)]
  | array element length => .obj [("Array", .obj [("element", element.encode), ("len", .nat length.toNat)])]
  | named name inner => .obj [("Alias", .obj [("name", .str name), ("inner", inner.encode)])]

theorem sizeOf_lookup_lt {members : List (String × Json)} {key : String} {j : Json}
    (h : members.lookup key = some j) : sizeOf j < sizeOf members := by
  induction members with
  | nil => simp at h
  | cons m ms ih =>
    obtain ⟨k, v⟩ := m
    rw [List.lookup_cons] at h
    split at h
    · cases h; simp; omega
    · have := ih h; simp; omega

def decode : Json → Option ValueType
  | .obj [("Int", width)] => width.word?.map int
  | .obj [("Array", .obj members)] =>
    match _h : members.lookup "element" with
    | none => none
    | some element => do
      let element ← decode element
      let length ← required? Json.word? (members.lookup "len")
      return array element length
  | .obj [("Alias", .obj members)] =>
    match _h : members.lookup "inner" with
    | none => none
    | some inner => do
      let name ← required? Json.str? (members.lookup "name")
      let inner ← decode inner
      return named name inner
  | _ => none
termination_by j => sizeOf j
decreasing_by
  · have := sizeOf_lookup_lt _h; simp; omega
  · have := sizeOf_lookup_lt _h; simp; omega

end ValueType

namespace Location

def encode (l : Location) : Json :=
  .obj [("prim", l.primitive.encode), ("x", .nat l.x.toNat), ("y", .nat l.y.toNat), ("num", .nat l.num.toNat)]

def decode (j : Json) : Option Location :=
  match j.fields ["prim", "x", "y", "num"] with
  | some [primitive, x, y, num] => do
    return ⟨← required? Primitive.decode primitive, ← required? Json.word? x, ← required? Json.word? y,
      ← required? Json.word? num⟩
  | _ => none

end Location

namespace LocationVector

def encode (v : LocationVector) : Json :=
  .obj [("ty", v.type.encode), ("locs", .arr (v.entries.map (Json.option Location.encode)))]

/-- The number of entries is not compared with the width of the type. -/
def decode (j : Json) : Option LocationVector :=
  match j.fields ["ty", "locs"] with
  | some [type, entries] => do
    return ⟨← required? ValueType.decode type,
      ← required? (Json.list? (fun j => nullable? Location.decode (some j))) entries⟩
  | _ => none

end LocationVector

namespace SiteRef

def encode (r : SiteRef) : Json := .obj [("module", .str r.module), ("name", .str r.name)]

def decode (j : Json) : Option SiteRef :=
  match j.fields ["module", "name"] with
  | some [module, name] => do return ⟨← required? Json.str? module, ← required? Json.str? name⟩
  | _ => none

end SiteRef

namespace Payload

def encode : Payload → Json
  | module symbol => .obj [("Module", .obj [("sym_name", .str symbol)])]
  | external symbol => .obj [("ModuleExtern", .obj [("sym_name", .str symbol)])]
  | instantiation name target => .obj [("Instance", .obj [("sym_name", .str name), ("module", .str target)])]
  | register name type => .obj [("Register", .obj [("sym_name", .str name), ("ty", type.encode)])]
  | operation name mnemonic =>
    .obj [("Other", .obj [("sym_name", Json.option .str name), ("mnemonic", .str mnemonic)])]
  | hierarchy top => .obj [("InstanceHierarchy", .obj [("top_module", .str top)])]
  | dynamicInstance site => .obj [("DynamicInstance", .obj [("instance_ref", site.encode)])]
  | verbatim name value subPath =>
    .obj [("VerbatimAttr",
      .obj [("name", .str name), ("value", .str value), ("sub_path", Json.option .str subPath)])]
  | location loc subPath =>
    .obj [("PhysLocation", .obj [("loc", loc.encode), ("sub_path", Json.option .str subPath)])]
  | registerLocations locations => .obj [("RegPhysLocation", .obj [("locs", locations.encode)])]

def decodeForm (members : List (String × Json)) : String → Option Payload
  | "Module" => do return module (← required? Json.str? (members.lookup "sym_name"))
  | "ModuleExtern" => do return external (← required? Json.str? (members.lookup "sym_name"))
  | "Instance" => do
    return instantiation (← required? Json.str? (members.lookup "sym_name"))
      (← required? Json.str? (members.lookup "module"))
  | "Register" => do
    return register (← required? Json.str? (members.lookup "sym_name"))
      (← required? ValueType.decode (members.lookup "ty"))
  | "Other" => do
    return operation (← nullable? Json.str? (members.lookup "sym_name"))
      (← required? Json.str? (members.lookup "mnemonic"))
  | "InstanceHierarchy" => do return hierarchy (← required? Json.str? (members.lookup "top_module"))
  | "DynamicInstance" => do return dynamicInstance (← required? SiteRef.decode (members.lookup "instance_ref"))
  | "VerbatimAttr" => do
    return verbatim (← required? Json.str? (members.lookup "name")) (← required? Json.str? (members.lookup "value"))
      (← nullable? Json.str? (members.lookup "sub_path"))
  | "PhysLocation" => do
    return location (← required? Location.decode (members.lookup "loc"))
      (← nullable? Json.str? (members.lookup "sub_path"))
  | "RegPhysLocation" => do
    return registerLocations (← required? LocationVector.decode (members.lookup "locs"))
  | _ => none

def decode : Json → Option Payload
  | .obj [(form, .obj members)] => decodeForm members form
  | _ => none

end Payload

namespace Defect

def encode : Defect → Json
  | duplicateSymbol symbol => .obj [("DuplicateSymbol", .obj [("symbol", .str symbol)])]
  | duplicateSiteName module name =>
    .obj [("DuplicateSiteName", .obj [("module", .str module), ("name", .str name)])]
  | unknownModule parent instantiation target =>
    .obj [("UnknownModule",
      .obj [("parent", .str parent), ("instance", .str instantiation), ("target", .str target)])]
  | unknownHierarchyTop top => .obj [("UnknownHierarchyTop", .obj [("top", .str top)])]
  | danglingDynamicInstance site => .obj [("DanglingDynamicInstance", .obj [("instance_ref", site.encode)])]

def decodeForm (members : List (String × Json)) : String → Option Defect
  | "DuplicateSymbol" => do return duplicateSymbol (← required? Json.str? (members.lookup "symbol"))
  | "DuplicateSiteName" => do
    return duplicateSiteName (← required? Json.str? (members.lookup "module"))
      (← required? Json.str? (members.lookup "name"))
  | "UnknownModule" => do
    return unknownModule (← required? Json.str? (members.lookup "parent"))
      (← required? Json.str? (members.lookup "instance")) (← required? Json.str? (members.lookup "target"))
  | "UnknownHierarchyTop" => do return unknownHierarchyTop (← required? Json.str? (members.lookup "top"))
  | "DanglingDynamicInstance" => do
    return danglingDynamicInstance (← required? SiteRef.decode (members.lookup "instance_ref"))
  | _ => none

def decode : Json → Option Defect
  | .obj [(form, .obj members)] => decodeForm members form
  | _ => none

end Defect

namespace GraphIssue

def encode (i : GraphIssue) : Json := .obj [("cause", i.cause.encode), ("severity", i.severity.encode)]

def decode (j : Json) : Option GraphIssue :=
  match j.fields ["cause", "severity"] with
  | some [cause, severity] => do return ⟨← required? Defect.decode cause, ← required? Severity.decode severity⟩
  | _ => none

end GraphIssue

end HardwareDesign
