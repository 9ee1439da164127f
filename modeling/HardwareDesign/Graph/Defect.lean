import HardwareDesign.Issue
import HardwareDesign.Payload

namespace HardwareDesign

inductive Defect where
  | duplicateSymbol (symbol : String)
  | duplicateSiteName (module name : String)
  | unknownModule (parent instantiation target : String)
  | unknownHierarchyTop (top : String)
  | danglingDynamicInstance (site : SiteRef)
deriving DecidableEq

def Defect.message : Defect → String
  | duplicateSymbol symbol => "duplicate symbol: found two or more top-level records named `" ++ symbol ++ "`"
  | duplicateSiteName module name =>
    "duplicate site names: found two or more records named `" ++ name ++ "` in module `" ++ module ++ "`"
  | unknownModule parent instantiation target =>
    "unknown module: instance `" ++ instantiation ++ "` in module `" ++ parent ++ "` instantiates `" ++ target ++
      "`, which does not exist"
  | unknownHierarchyTop top =>
    "unknown module: instance hierarchy is rooted at `" ++ top ++ "`, which does not exist"
  | danglingDynamicInstance site =>
    "dangling dynamic instance: `" ++ site.text ++ "` does not name an existing site"

structure GraphIssue where
  cause : Defect
  severity : Severity
deriving DecidableEq

instance : Diagnostic GraphIssue where
  message i := i.cause.message
  severity i := i.severity

end HardwareDesign
