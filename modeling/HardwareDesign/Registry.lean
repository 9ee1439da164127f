import HardwareDesign.Graph
import HardwareDesign.Name
import HardwareDesign.Reference

namespace HardwareDesign

namespace Graph

/-- The named records of the top level. The first record with a name wins. -/
def namedTop (g : Graph) : Table String Handle :=
  Table.ofListFirst (g.top.filterMap fun id => (g.nameOf id).map (·, g.handle id))

end Graph

/-- `known` is unset until the graph is scanned. A symbol is pending from its allocation to its installation. -/
structure SymbolTable where
  known : Option (Table String Handle) := none
  pending : List String := []

namespace SymbolTable

def scanned (t : SymbolTable) (g : Graph) : Table String Handle := t.known.getD g.namedTop

def scan (t : SymbolTable) (g : Graph) : SymbolTable := { t with known := some (t.scanned g) }

def settle (t : SymbolTable) (symbol : String) (h : Handle) : SymbolTable :=
  { known := t.known.map (·.insert symbol h), pending := t.pending.filter (· ≠ symbol) }

end SymbolTable

structure Registry where
  symbols : Table DefId String := {}
  definitions : Table String DefId := {}

namespace Registry

def symbolOf (r : Registry) (d : DefId) : Option String := r.symbols.find? d

def definitionOf (r : Registry) (symbol : String) : Option DefId := r.definitions.find? symbol

def add (r : Registry) (d : DefId) (symbol : String) : Registry :=
  ⟨r.symbols.insert d symbol, r.definitions.insert symbol d⟩

end Registry

structure Installer where
  definition : DefId
  symbol : String

end HardwareDesign
