import HardwareDesign.Json

namespace HardwareDesign

structure Config.Diagnostics where
  warnLiveHandles : Bool := true
  warnPartialGeneration : Bool := true
deriving DecidableEq

structure Config.Placement where
  strict : Bool := true
deriving DecidableEq

structure Config where
  name : String := "DynHierSystem"
  diagnostics : Config.Diagnostics := {}
  placement : Config.Placement := {}
deriving DecidableEq

namespace Config

open Json

structure Surplus where
  items : Bool := false
  passes : Json → Bool := fun _ => true

def settings (surplus : Surplus) (names : List String) : Json → Option (List (Option Json))
  | .obj members =>
    if members.all fun (name, j) => names.contains name || surplus.passes j then some (names.map (member members))
    else none
  | .arr items =>
    if surplus.items || items.length ≤ names.length then some ((List.range names.length).map (items[·]?)) else none
  | _ => none

def setting {α : Type} (f : Json → Option α) (default : α) : Option Json → Option α
  | none => some default
  | some j => f j

def Diagnostics.decode (surplus : Surplus) (j : Json) : Option Diagnostics :=
  match settings surplus ["warn_live_handles", "warn_partial_generation"] j with
  | some [liveHandles, partialGeneration] => do
    return ⟨← setting bool? true liveHandles, ← setting bool? true partialGeneration⟩
  | _ => none

def Placement.decode (surplus : Surplus) (j : Json) : Option Placement :=
  match settings surplus ["strict"] j with
  | some [strict] => do return ⟨← setting bool? true strict⟩
  | _ => none

def decode (surplus : Surplus) (j : Json) : Option Config :=
  match settings surplus ["name", "diagnostics", "placement"] j with
  | some [name, diagnostics, placement] => do
    return ⟨← setting str? "DynHierSystem" name, ← setting (Diagnostics.decode surplus) {} diagnostics,
      ← setting (Placement.decode surplus) {} placement⟩
  | _ => none

def encode (c : Config) : Json :=
  .obj [("name", .str c.name),
    ("diagnostics", .obj [("warn_live_handles", .bool c.diagnostics.warnLiveHandles),
      ("warn_partial_generation", .bool c.diagnostics.warnPartialGeneration)]),
    ("placement", .obj [("strict", .bool c.placement.strict)])]

end Config

end HardwareDesign
