import HardwareDesign.Design

namespace HardwareDesign.Design

def advise (s : Design) (enabled : Bool) (a : Advisory) : Design :=
  if enabled then { s with issues := s.issues.add a } else s

def dropViews (s : Design) : Design :=
  { s with
    symbols := { s.symbols with known := none }
    sites := {}
    records := s.records.invalidate
    tree := s.tree.invalidate
    graph := s.graph.nextEpoch }

/-- Instance ids and handles from before are rejected from now on. Counts the live ones among the handles that are
held outside of the design. -/
def invalidate (s : Design) (held : List Handle) : Nat × Design :=
  let live := s.graph.liveAmong held
  (live, s.dropViews.advise (0 < live && s.config.diagnostics.warnLiveHandles) (.liveHandles live))

def cachedHandles (s : Design) : List Handle :=
  (s.symbols.known.getD {}).values ++ s.sites.values.flatMap (fun sites => sites.values.map (·.record)) ++
    (s.records.hierarchies.getD {}).values ++ s.records.instances.values ++ s.records.nested.values.flatMap (·.values)

end HardwareDesign.Design
