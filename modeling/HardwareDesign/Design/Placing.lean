import HardwareDesign.Design.Backing

namespace HardwareDesign.Design

def createPlacementDatabase (device : Option Device) : Action Unit := do
  if (← get).placements.isNone then
    let index ← Action.readGraph (PlacementIndex.ofGraph device)
    modify fun s => { s with placements := some index }

def checkLocation (s : Design) (l : Location) : Except Error Unit :=
  match s.placements with
  | none => .error .noPlacementDatabase
  | some index =>
    match index.check s.graph s.config.placement.strict l with
    | .ok () => .ok ()
    | .error e => .error (.placement e)

def checkLocations (s : Design) : List Location → Except Error Unit
  | [] => .ok ()
  | l :: ls => do
    s.checkLocation l
    s.checkLocations ls

def expectKind (s : Design) (i : InstanceId) (allowed : List InstanceKind) (action : String) : Except Error Unit := do
  let kind := (← s.node i).kind.kind
  if allowed.contains kind then return () else throw (.wrongKind kind action)

def recordClaims (s : Design) (claims : List (Location × Claim)) : Design :=
  { s with placements := s.placements.map (·.insertAll claims) }

def addLocations (i : InstanceId) (payload : Payload) : Action Unit := do
  let owner ← getOrCreateRecord i
  let h ← Action.editGraph (·.createIn owner payload)
  modify fun s => s.recordClaims (payload.placements.map fun p => (p.1, ⟨h.record, p.2⟩))

def place (i : InstanceId) (l : Location) (subPath : SubPath) : Action Unit := do
  Action.read (·.expectKind i [.root, .module] "place")
  Action.read (·.checkLocation l)
  addLocations i (.location l subPath)

/-- The widths of the types have to agree. The number of entries is not looked at. -/
def checkWidth (s : Design) (i : InstanceId) (v : LocationVector) : Except Error Unit := do
  match (← s.node i).kind.type with
  | some type =>
    if type.width = v.type.width then return ()
    else throw (.width ⟨type, type.width.toNat, v.type.width.toNat⟩)
  | none => return ()

def placeRegister (i : InstanceId) (v : LocationVector) : Action Unit := do
  Action.read (·.expectKind i [.register] "place_register")
  Action.read (·.checkWidth i v)
  Action.read (·.checkLocations v.placed)
  addLocations i (.registerLocations v)

def payloadsOf (i : InstanceId) : Action (List Payload) := do
  let h ← getOrCreateRecord i
  Action.readGraph fun g => do (← g.body h).mapM g.payload

def locations (i : InstanceId) : Action (List (Location × SubPath)) := do
  return (← payloadsOf i).flatMap Payload.placements

def ownerAt (s : Design) (l : Location) : Except Error (Option (Handle × SubPath)) :=
  match s.placements with
  | none => .error .noPlacementDatabase
  | some index =>
    match index.claims.find? l with
    | none => .ok none
    | some claim =>
      match s.graph.recordOf claim.record with
      | .error _ => .ok none
      | .ok r => .ok (r.parent.map fun p => (s.graph.handle p, claim.subPath))

def instanceAt (l : Location) : GuardedAction (Option (InstanceId × SubPath)) := do
  match ← Action.read (·.ownerAt l) with
  | none => return none
  | some (owner, subPath) => return some (← resolveNode owner, subPath)

def addAttribute (i : InstanceId) (name value : String) (subPath : SubPath) : Action Unit := do
  let owner ← getOrCreateRecord i
  let _ ← Action.editGraph (·.createIn owner (.verbatim name value subPath))

def attribute? : Payload → Option (String × String × SubPath)
  | .verbatim name value subPath => some (name, value, subPath)
  | _ => none

def attributes (i : InstanceId) : Action (List (String × String × SubPath)) := do
  return (← payloadsOf i).filterMap attribute?

end HardwareDesign.Design
