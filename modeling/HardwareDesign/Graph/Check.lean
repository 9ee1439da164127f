import HardwareDesign.Graph
import HardwareDesign.Graph.Defect

namespace HardwareDesign

namespace Graph

def repeated (seen : List String) : List String → List String
  | [] => []
  | n :: ns => if n ∈ seen then n :: repeated seen ns else repeated (n :: seen) ns

abbrev ModuleNames := Table String (Option (List String))

def namesIn (g : Graph) (r : Record) : Option (List String) :=
  if r.payload.hasBody then some (r.body.filterMap g.nameOf) else none

/-- The first record with a symbol counts. The body of a later one is not looked at. -/
def scanTop (g : Graph) : List RecordId → ModuleNames → List Defect × ModuleNames
  | [], modules => ([], modules)
  | id :: ids, modules =>
    match g.records.find? id with
    | none => g.scanTop ids modules
    | some r =>
      match r.payload.symbolName with
      | none => g.scanTop ids modules
      | some symbol =>
        if modules.contains symbol then
          let (defects, modules) := g.scanTop ids modules
          (.duplicateSymbol symbol :: defects, modules)
        else
          let names := g.namesIn r
          let (defects, modules) := g.scanTop ids (modules.insert symbol names)
          ((repeated [] (names.getD [])).map (.duplicateSiteName symbol) ++ defects, modules)

def unknownTarget (g : Graph) (modules : ModuleNames) (parent : String) (id : RecordId) : Option Defect :=
  match g.records.find? id with
  | some { payload := .instantiation name target, .. } =>
    if modules.contains target then none else some (.unknownModule parent name target)
  | _ => none

def unknownTargets (g : Graph) (modules : ModuleNames) (id : RecordId) : List Defect :=
  match g.records.find? id with
  | some { payload := .module symbol, body, .. } => body.filterMap (g.unknownTarget modules symbol)
  | some { payload := .hierarchy top, .. } => if modules.contains top then [] else [.unknownHierarchyTop top]
  | _ => []

def isSite (modules : ModuleNames) (site : SiteRef) : Bool :=
  match modules.find? site.module with
  | some (some names) => names.contains site.name
  | _ => false

def dangling (modules : ModuleNames) (r : Record) : Option Defect :=
  match r.payload with
  | .dynamicInstance site => if isSite modules site then none else some (.danglingDynamicInstance site)
  | _ => none

def defects (g : Graph) : List Defect :=
  let (found, modules) := g.scanTop g.top {}
  found ++ g.top.flatMap (g.unknownTargets modules) ++ g.records.values.filterMap (dangling modules)

def validate (g : Graph) : IssueSet GraphIssue := ⟨g.defects.map fun d => ⟨d, .error⟩⟩

end Graph

end HardwareDesign
