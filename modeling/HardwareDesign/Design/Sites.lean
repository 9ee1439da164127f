import HardwareDesign.Design.Building

namespace HardwareDesign.Design

def sitesOf (d : DefId) : Action Sites := do
  match ← moduleRecord d with
  | none => return {}
  | some module =>
    match (← get).sites.find? module.record with
    | some sites => return sites
    | none =>
      let sites ← Action.readGraph (·.sitesIn module)
      modify fun s => { s with sites := s.sites.insert module.record sites }
      return sites

end HardwareDesign.Design
