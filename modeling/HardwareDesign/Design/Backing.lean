import HardwareDesign.Design.Navigation

/-!
The records behind the nodes of the instance tree: an instance hierarchy for a root, and for every other node a
dynamic instance in the record of its parent. The way back leads from a record to the node it stands for.
-/

namespace HardwareDesign

namespace Graph

def hierarchyTop (g : Graph) (id : RecordId) : Option String :=
  match g.records.find? id with
  | some { payload := .hierarchy top, .. } => some top
  | _ => none

def hierarchies (g : Graph) : Table String Handle :=
  Table.ofListFirst (g.top.filterMap fun id => (g.hierarchyTop id).map (·, g.handle id))

def dynamicAmong (g : Graph) : List Handle → Except GraphError (List (SiteRef × Handle))
  | [] => .ok []
  | h :: hs => do
    match ← g.payload h with
    | .dynamicInstance site => return (site, h) :: (← g.dynamicAmong hs)
    | _ => g.dynamicAmong hs

def nestedIn (g : Graph) (owner : Handle) : Except GraphError (Table SiteRef Handle) := do
  return Table.ofListFirst (← g.dynamicAmong (← g.body owner))

def lineage (g : Graph) : Nat → Handle → Except Failure (String × List (String × Handle))
  | 0, h => .error (.error (.graph (.erased h.record)))
  | fuel + 1, h =>
    match g.payload h with
    | .error e => .error (.error (.graph e))
    | .ok (.hierarchy top) => .ok (top, [])
    | .ok (.dynamicInstance site) =>
      match g.parent h with
      | .error e => .error (.error (.graph e))
      | .ok none => .error (.violation (.parentlessInstance h.record))
      | .ok (some parent) => do
        let (top, steps) ← g.lineage fuel parent
        return (top, steps ++ [(site.name, h)])
    | .ok payload => .error (.violation (.notAnInstance payload.kind))

end Graph

namespace Design

def scannedHierarchies (s : Design) : Table String Handle := s.records.hierarchies.getD s.graph.hierarchies

def setHierarchies (s : Design) (index : Table String Handle) : Design :=
  { s with records := { s.records with hierarchies := some index } }

def hierarchyRecord (d : DefId) : Action (Option Handle) := do
  let symbol ← Action.read (·.builtSymbol d)
  let index := (← get).scannedHierarchies
  modify (·.setHierarchies index)
  return index.find? symbol

def addHierarchy (symbol : String) (index : Table String Handle) : Action Unit := do
  let h ← Action.editGraph fun g => .ok (g.createTop (.hierarchy symbol))
  modify (·.setHierarchies (index.insert symbol h))

def createHierarchy (d : DefId) : GuardedAction Unit := do
  let symbol ← Action.read (·.builtSymbol d)
  let index := (← get).scannedHierarchies
  modify (·.setHierarchies index)
  if index.contains symbol then throw (.violation (.secondHierarchy symbol)) else addHierarchy symbol index

def markRooted (s : Design) (d : DefId) : Design :=
  { s with records := { s.records with rooted := d :: s.records.rooted } }

/-- Over all generations of the tree, a definition gets its hierarchy record once. -/
def rootOnce (d : DefId) : GuardedAction Unit := do
  if (← get).records.rooted.contains d then return ()
  else
    modify (·.markRooted d)
    createHierarchy d

def addRoot (d : DefId) : Action InstanceId := fun s => .ok s.tree.nextId { s with tree := s.tree.addRoot d }

def getInstance (d : DefId) : GuardedAction InstanceId := do
  match (← get).tree.roots.find? d with
  | some root => return root
  | none =>
    let _ ← Action.read (·.builtSymbol d)
    let root ← addRoot d
    rootOnce d
    return root

def doesNotExist {α : Type} (i : InstanceId) : Action α := do
  Action.fail (.doesNotExist (← Action.read (·.tree.describe i)))

def setNested (s : Design) (owner : RecordId) (index : Table SiteRef Handle) : Design :=
  { s with records := { s.records with nested := s.records.nested.insert owner index } }

def setRecord (s : Design) (i : InstanceId) (h : Handle) : Design :=
  { s with records := { s.records with instances := s.records.instances.insert i h } }

def setRecordIfNew (s : Design) (i : InstanceId) (h : Handle) : Design :=
  { s with records := { s.records with instances := s.records.instances.insertNew i h } }

def nestedIndex (owner : Handle) : Action (Table SiteRef Handle) := do
  match (← get).records.nested.find? owner.record with
  | some index => return index
  | none =>
    let index ← Action.readGraph (·.nestedIn owner)
    modify (·.setNested owner.record index)
    return index

def nestedRecord (owner : Handle) (site : SiteRef) : Action Handle := do
  let index ← nestedIndex owner
  match index.find? site with
  | some h => return h
  | none =>
    let h ← Action.editGraph (·.createIn owner (.dynamicInstance site))
    modify (·.setNested owner.record (index.insert site h))
    return h

def recordUpTo : Nat → InstanceId → Action Handle
  | 0, i => Action.fail (.staleInstance i)
  | fuel + 1, i => do
    let n ← Action.read (·.node i)
    match n.parent, n.name with
    | some parent, some name =>
      if (← sitesOf n.insideOf).contains name then
        match (← get).records.instances.find? i with
        | some h => return h
        | none =>
          let owner ← recordUpTo fuel parent
          let symbol ← Action.read (·.builtSymbol n.insideOf)
          let h ← nestedRecord owner ⟨symbol, name⟩
          modify (·.setRecord i h)
          return h
      else doesNotExist i
    | _, _ =>
      match ← hierarchyRecord n.insideOf with
      | some h => return h
      | none => doesNotExist i

/-- The record behind an instance. It is made, with the missing records above it, if there is none.
A parent has a smaller index than its children. -/
def getOrCreateRecord (i : InstanceId) : Action Handle := recordUpTo (i.index + 1) i

def stepDown (parent : InstanceId) (step : String × Handle) : GuardedAction InstanceId := do
  let i ← child parent step.1
  modify (·.setRecordIfNew i step.2)
  return i

/-- The instance that a record stands for. The record must be an instance hierarchy, or a dynamic instance with
nothing but dynamic instances between it and one. A record has a greater id than its parent. -/
def resolveNode (h : Handle) : GuardedAction InstanceId := do
  match (← get).graph.lineage (h.record.index + 1) h with
  | .error e => throw e
  | .ok (top, steps) =>
    let d ← Action.read (·.resolveDefinition top)
    let root ← getInstance d
    steps.foldlM stepDown root

end Design

end HardwareDesign
