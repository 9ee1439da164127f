import HardwareDesign.Advisory
import HardwareDesign.Config
import HardwareDesign.Generator
import HardwareDesign.InstanceTree
import HardwareDesign.Placement.Index
import HardwareDesign.Site
import HardwareDesign.Registry

/-!
A design under construction: the design graph with the definitions it is made from, and the views of it that are
filled on demand and dropped by an invalidation.
-/

namespace HardwareDesign

/-- The records of hierarchies by top symbol (unset until the graph is scanned), of nodes, and of sites below the
record of an instance. A definition that has been rooted stays so. -/
structure RecordCache where
  hierarchies : Option (Table String Handle) := none
  instances : Table InstanceId Handle := {}
  nested : Table RecordId (Table SiteRef Handle) := {}
  rooted : List DefId := []

def RecordCache.invalidate (c : RecordCache) : RecordCache := { rooted := c.rooted }

/-- `queue` holds the built definitions whose generators are waiting, the most recent one first. -/
structure Design where
  config : Config := {}
  graph : Graph := {}
  definitions : List Definition := []
  queue : List DefId := []
  tops : List DefId := []
  symbols : SymbolTable := {}
  registry : Registry := {}
  sites : Table RecordId Sites := {}
  tree : InstanceTree := {}
  records : RecordCache := {}
  placements : Option PlacementIndex := none
  passed : Bool := false
  issues : IssueSet Advisory := {}

/-- An operation that fails keeps what it has done so far. -/
abbrev Action := EStateM Error Design

abbrev GuardedAction := EStateM Failure Design

namespace Action

variable {α : Type}

def fail (e : Error) : Action α := throw e

def read (f : Design → Except Error α) : Action α := fun s =>
  match f s with
  | .ok a => .ok a s
  | .error e => .error e s

def readGraph (f : Graph → Except GraphError α) : Action α := fun s =>
  match f s.graph with
  | .ok a => .ok a s
  | .error e => .error (.graph e) s

def editGraph (f : Graph → Except GraphError (α × Graph)) : Action α := fun s =>
  match f s.graph with
  | .ok (a, g) => .ok a { s with graph := g }
  | .error e => .error (.graph e) s

def guarded (a : Action α) : GuardedAction α := fun s =>
  match a s with
  | .ok a s => .ok a s
  | .error e s => .error (.error e) s

instance : MonadLift Action GuardedAction := ⟨guarded⟩

end Action

namespace Design

def new (config : Config) (source : Nat) : Design := { config, graph := Graph.empty source }

def definition (s : Design) (d : DefId) : Except Error Definition :=
  match s.definitions[d.index]? with
  | some definition => .ok definition
  | none => .error (.notFound (.definition d))

def resolveDefinition (s : Design) (symbol : String) : Except Error DefId :=
  match s.registry.definitionOf symbol with
  | some d => .ok d
  | none => .error (.notFound (.symbol symbol))

def resolveSymbol (s : Design) (d : DefId) : Option String := s.registry.symbolOf d

def builtSymbol (s : Design) (d : DefId) : Except Error String :=
  match s.resolveSymbol d with
  | some symbol => .ok symbol
  | none => .error (.notFound (.unbuilt d))

def pending (s : Design) : Nat := s.queue.length

def node (s : Design) (i : InstanceId) : Except Error Node := s.tree.node i

end Design

end HardwareDesign
