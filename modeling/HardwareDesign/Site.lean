import HardwareDesign.Graph

namespace HardwareDesign

inductive SiteKind where
  | module (target : String)
  | register (type : ValueType)
  | operation
deriving DecidableEq

def SiteKind.ofPayload : Payload → SiteKind
  | .instantiation _ target => module target
  | .register _ type => register type
  | _ => operation

structure Site where
  name : String
  record : Handle
  kind : SiteKind
deriving DecidableEq

abbrev Sites := Table String Site

namespace Graph

def sitesAmong (g : Graph) : List (String × Handle) → Except GraphError (List (String × Site))
  | [] => .ok []
  | (name, h) :: children => do
    let kind := SiteKind.ofPayload (← g.payload h)
    return (name, ⟨name, h, kind⟩) :: (← g.sitesAmong children)

/-- The sites of a module in body order. The first record with a name wins, and other records have no sites. -/
def sitesIn (g : Graph) (module : Handle) : Except GraphError Sites := do
  match ← g.payload module with
  | .module _ => return Table.ofListFirst (← g.sitesAmong (← g.namedChildren module))
  | _ => return {}

end Graph

end HardwareDesign
