import HardwareDesign.Error
import HardwareDesign.Placement.Device
import HardwareDesign.Placement.SubPath

namespace HardwareDesign

structure Claim where
  record : RecordId
  subPath : SubPath
deriving DecidableEq

structure PlacementIndex where
  device : Option Device := none
  claims : Table Location Claim := {}

namespace Payload

def placements : Payload → List (Location × SubPath)
  | location l subPath => [(l, subPath)]
  | registerLocations v => v.placed.map (·, none)
  | _ => []

end Payload

namespace Graph

def claimsAmong (g : Graph) : List Handle → Except GraphError (List (Location × Claim))
  | [] => .ok []
  | h :: hs => do
    let payload ← g.payload h
    return payload.placements.map (fun p => (p.1, ⟨h.record, p.2⟩)) ++ (← g.claimsAmong hs)

def claimsBelow (g : Graph) : List Handle → Except GraphError (List (Location × Claim))
  | [] => .ok []
  | h :: hs => do
    let claims ← match ← g.payload h with
      | .hierarchy _ => g.claimsAmong (← g.descendants h)
      | _ => pure []
    return claims ++ (← g.claimsBelow hs)

def claims (g : Graph) : Except GraphError (List (Location × Claim)) := g.claimsBelow g.topLevel

end Graph

namespace PlacementIndex

def insert (x : PlacementIndex) (l : Location) (c : Claim) : PlacementIndex :=
  { x with claims := x.claims.insert l c }

def insertAll (x : PlacementIndex) (claims : List (Location × Claim)) : PlacementIndex :=
  claims.foldl (fun x c => x.insert c.1 c.2) x

def ofGraph (device : Option Device) (g : Graph) : Except GraphError PlacementIndex := do
  return insertAll { device } (← g.claims)

/-- A claim whose record has been erased occupies nothing. -/
def occupant (x : PlacementIndex) (g : Graph) (l : Location) : Option RecordId :=
  match x.claims.find? l with
  | some c => if g.contains c.record then some c.record else none
  | none => none

def check (x : PlacementIndex) (g : Graph) (strict : Bool) (l : Location) : Except PlacementError Unit :=
  if x.device.any (fun d => !d.isValid l) then .error (.invalidLocation l)
  else
    match strict, x.occupant g l with
    | true, some occupant => .error (.occupied l occupant)
    | _, _ => .ok ()

end PlacementIndex

end HardwareDesign
