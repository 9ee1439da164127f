import HardwareDesign.Design.Invalidation
import HardwareDesign.Design.Placing
import HardwareDesign.Proofs.Coherence

namespace HardwareDesign.Design

def core (s : Design) : Design :=
  { s with
    symbols := { s.symbols with known := none }
    sites := {}
    records := { s.records with hierarchies := none, nested := {} } }

structure Scanned (s t : Design) : Prop where
  core : t.core = s.core
  views : t.Views

def built (s : Design) (d : DefId) (x : String) (external : Bool) : Design :=
  (install { s with
      graph := s.graph.created (modulePayload external x) none
      symbols := { s.symbols.scan s.graph with pending := x :: s.symbols.pending } }
    ⟨d, x⟩ (s.graph.handle s.graph.nextId)).enqueue external d

def filled (s : Design) (m : Handle) (payload : Payload) : Design :=
  { s with graph := s.graph.created payload (some m.record), sites := s.sites.erase m.record }

def sited (s : Design) (d : DefId) (m : Handle) (name : String) (payload : Payload) (kind : NodeKind) : Design :=
  { s.filled m payload with tree := s.tree.attach d name kind }

def withHierarchy (s : Design) (d : DefId) (x : String) : Design :=
  { s.markRooted d with
    graph := s.graph.created (.hierarchy x) none
    records := { s.records with
      hierarchies := some (s.graph.hierarchies.insert x (s.graph.handle s.graph.nextId))
      rooted := d :: s.records.rooted } }

def kindsFor (s : Design) (n : Node) : Except Error (List (String × NodeKind)) :=
  match n.kind.target with
  | none => .ok []
  | some d => s.nodeKinds (s.siteTable d).entries

def expanded (s : Design) (i : InstanceId) (n : Node) (kinds : List (String × NodeKind)) : Design :=
  { s with tree := s.tree.extend i n (n.kind.target.getD n.insideOf) kinds }

def nested (s : Design) (owner : Handle) (site : SiteRef) : Design :=
  setNested { s with graph := s.graph.created (.dynamicInstance site) (some owner.record) } owner.record
    ((s.graph.nestedTable owner.record).insert site (s.graph.handle s.graph.nextId))

def noted (s : Design) (owner : Handle) (payload : Payload) : Design :=
  recordClaims { s with graph := s.graph.created payload (some owner.record) }
    (payload.placements.map fun p => (p.1, ⟨s.graph.nextId, p.2⟩))

structure Filling (s : Design) (d : DefId) (m : Handle) : Prop where
  record : s.moduleOf d = some m
  module : ∃ r x, s.graph.Holds m.record r ∧ r.payload = .module x

structure Nesting (s : Design) (i : InstanceId) (n : Node) (owner : Handle) (site : SiteRef) : Prop where
  node : s.tree.node i = .ok n
  name : n.name = some site.name
  symbol : s.resolveSymbol n.insideOf = some site.module
  sited : (s.siteTable n.insideOf).contains site.name = true
  epoch : owner.epoch = s.graph.epoch
  owner : ∃ p, n.parent = some p ∧ s.StandsFor owner.record p

/-- What an operation can do at once. Records are met on the way down from a hierarchy where records are resolved to
instances, and nowhere else. -/
inductive Change (resolving : Prop) (s : Design) : Design → Prop
  | scan {t} : s.Scanned t → Change resolving s t
  | define (name body) : Change resolving s (s.define name body).2
  | dequeue {d queue} : s.queue = d :: queue → Change resolving s { s with queue }
  | promote {d x} : s.resolveSymbol d = some x → d ∉ s.tops → Change resolving s { s with tops := s.tops ++ [d] }
  | build {d x definition} : s.definition d = .ok definition → s.resolveSymbol d = none → x ∉ s.takenSymbols →
      Change resolving s (s.built d x definition.body.isExternal)
  | site {d m name payload kind} : s.Filling d m → (s.siteTable d).contains name = false →
      payload.symbolName = some name → payload.hasBody = false → s.nodeKind (.ofPayload payload) = .ok kind →
      Change resolving s (s.sited d m name payload kind)
  | unnamed {d m payload} : s.Filling d m → payload.symbolName = none → payload.hasBody = false →
      Change resolving s (s.filled m payload)
  | root {d x} : s.resolveSymbol d = some x → s.tree.roots.find? d = none →
      Change resolving s { s with tree := s.tree.addRoot d }
  | refuse (d) : Change resolving s (s.markRooted d)
  | hierarchy {d x} : s.resolveSymbol d = some x → d ∉ s.records.rooted → s.graph.hierarchies.contains x = false →
      Change resolving s (s.withHierarchy d x)
  | expand {i n kinds} : s.tree.node i = .ok n → n.children = none → s.kindsFor n = .ok kinds →
      Change resolving s (s.expanded i n kinds)
  | nest {i n owner site} : s.Nesting i n owner site → (s.graph.nestedTable owner.record).contains site = false →
      Change resolving s (s.nested owner site)
  | back {i n owner site h} : s.Nesting i n owner site → (s.graph.nestedTable owner.record).find? site = some h →
      s.records.instances.find? i = none → Change resolving s (s.setRecord i h)
  | meet {i h} : resolving → s.StandsFor h.record i → h.epoch = s.graph.epoch → s.records.instances.find? i = none →
      Change resolving s (s.setRecord i h)
  | note {i owner payload} : s.StandsFor owner.record i → owner.epoch = s.graph.epoch → payload.symbolName = none →
      payload.hasBody = false → Change resolving s (s.noted owner payload)
  | database (index) : s.placements = none → Change resolving s { s with placements := some index }

variable {s t : Design}

namespace Scanned

lemma refl (hv : s.Views) : s.Scanned s := ⟨rfl, hv⟩

lemma trans {s t u : Design} (h : s.Scanned t) (h' : t.Scanned u) : s.Scanned u := ⟨h'.core.trans h.core, h'.views⟩

variable (h : s.Scanned t)
include h

lemma graph : t.graph = s.graph := congrArg (fun u => u.graph) h.core

lemma registry : t.registry = s.registry := congrArg (fun u => u.registry) h.core

lemma tree : t.tree = s.tree := congrArg (fun u => u.tree) h.core

lemma instances : t.records.instances = s.records.instances := congrArg (fun u => u.records.instances) h.core

end Scanned

end HardwareDesign.Design
