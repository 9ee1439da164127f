import HardwareDesign.Design

namespace HardwareDesign.Design

def define (s : Design) (name : String) (body : DefinitionBody) : DefId × Design :=
  (⟨s.definitions.length⟩, { s with definitions := s.definitions ++ [⟨name, body⟩] })

def defineModule (s : Design) (name : String) (g : Generator) : DefId × Design := s.define name (.generated g)

def defineExternal (s : Design) (name : String) : DefId × Design := s.define name .external

def isExternal (s : Design) (d : DefId) : Except Error Bool := do return (← s.definition d).body.isExternal

def scanSymbols (s : Design) : Design := { s with symbols := s.symbols.scan s.graph }

def takenSymbols (s : Design) : List String :=
  (s.symbols.scanned s.graph).keys ++ s.symbols.pending ++ s.registry.definitions.keys

def reserve (s : Design) (base : String) : String × Design :=
  let symbol := freshName s.takenSymbols base
  let s := s.scanSymbols
  (symbol, { s with symbols := { s.symbols with pending := symbol :: s.symbols.pending } })

def allocateSymbol (d : DefId) : Action (Option Installer) := fun s =>
  match s.resolveSymbol d with
  | some _ => .ok none s
  | none =>
    match s.definition d with
    | .error e => .error e s
    | .ok definition =>
      let (symbol, s) := s.reserve definition.name
      .ok (some ⟨d, symbol⟩) s

def install (s : Design) (i : Installer) (h : Handle) : Design :=
  { s with symbols := s.symbols.settle i.symbol h, registry := s.registry.add i.definition i.symbol }

def lookupSymbol (symbol : String) : Action (Option Handle) := fun s =>
  .ok ((s.symbols.scanned s.graph).find? symbol) s.scanSymbols

def modulePayload (external : Bool) (symbol : String) : Payload :=
  if external then .external symbol else .module symbol

def enqueue (s : Design) (external : Bool) (d : DefId) : Design :=
  if external then s else { s with queue := d :: s.queue }

def buildDefinition (d : DefId) : Action String := do
  match ← allocateSymbol d with
  | none => Action.read (·.builtSymbol d)
  | some installer =>
    let external ← Action.read (·.isExternal d)
    let h ← Action.editGraph fun g => .ok (g.createTop (modulePayload external installer.symbol))
    modify fun s => (s.install installer h).enqueue external d
    return installer.symbol

def addTop (d : DefId) : Action String := do
  let symbol ← buildDefinition d
  modify fun s => if s.tops.contains d then s else { s with tops := s.tops ++ [d] }
  return symbol

def moduleRecord (d : DefId) : Action (Option Handle) := do
  lookupSymbol (← Action.read (·.builtSymbol d))

end HardwareDesign.Design
