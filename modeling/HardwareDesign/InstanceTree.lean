import HardwareDesign.Error

/-!
The instance tree. Its nodes are numbered in the order in which they are made, and an id is good for one
generation of the tree.
-/

namespace HardwareDesign

inductive NodeKind where
  | root (target : DefId)
  | module (target : DefId)
  | register (type : ValueType)
  | leaf
deriving DecidableEq

namespace NodeKind

def kind : NodeKind → InstanceKind
  | root _ => .root
  | module _ => .module
  | register _ => .register
  | leaf => .leaf

def target : NodeKind → Option DefId
  | root d => some d
  | module d => some d
  | _ => none

def type : NodeKind → Option ValueType
  | register t => some t
  | _ => none

end NodeKind

abbrev Children := Table String InstanceId

/-- A root has neither a name nor a parent, and is inside of its own target. `children` is unset until they are
asked for. -/
structure Node where
  name : Option String
  parent : Option InstanceId
  insideOf : DefId
  root : InstanceId
  kind : NodeKind
  children : Option Children := none

structure InstanceTree where
  generation : Nat := 0
  nodes : List Node := []
  roots : Table DefId InstanceId := {}

namespace InstanceTree

def node (t : InstanceTree) (i : InstanceId) : Except Error Node :=
  if i.generation = t.generation then
    match t.nodes[i.index]? with
    | some n => .ok n
    | none => .error (.staleInstance i)
  else .error (.staleInstance i)

def nextId (t : InstanceTree) : InstanceId := ⟨t.nodes.length, t.generation⟩

def push (t : InstanceTree) (n : Node) : InstanceTree := { t with nodes := t.nodes ++ [n] }

def addRoot (t : InstanceTree) (d : DefId) : InstanceTree :=
  { t.push ⟨none, none, d, t.nextId, .root d, none⟩ with roots := t.roots.insert d t.nextId }

def setChildren (t : InstanceTree) (i : InstanceId) (c : Children) : InstanceTree :=
  { t with nodes := t.nodes.modify i.index fun n => { n with children := some c } }

def addChildren (parent root : InstanceId) (insideOf : DefId) :
    List (String × NodeKind) → Children → InstanceTree → Children × InstanceTree
  | [], c, t => (c, t)
  | (name, kind) :: rest, c, t =>
    addChildren parent root insideOf rest (c.insert name t.nextId) (t.push ⟨name, parent, insideOf, root, kind, none⟩)

def materialized (t : InstanceTree) (d : DefId) : List InstanceId :=
  (t.nodes.zipIdx.filter fun n => n.1.children.isSome && n.1.kind.target = some d).map
    fun n => ⟨n.2, t.generation⟩

def attachTo (d : DefId) (name : String) (kind : NodeKind) (t : InstanceTree) (parent : InstanceId) : InstanceTree :=
  match t.node parent with
  | .ok { children := some c, root, .. } =>
    if c.contains name then t
    else (t.push ⟨name, parent, d, root, kind, none⟩).setChildren parent (c.insert name t.nextId)
  | _ => t

/-- A new site of a module becomes the last child of each of its instances whose children have been asked for. -/
def attach (t : InstanceTree) (d : DefId) (name : String) (kind : NodeKind) : InstanceTree :=
  (t.materialized d).foldl (attachTo d name kind) t

def pathUpTo (t : InstanceTree) : Nat → InstanceId → Except Error (List InstanceId)
  | 0, i => .error (.staleInstance i)
  | fuel + 1, i => do
    match (← t.node i).parent with
    | none => return []
    | some parent => return (← t.pathUpTo fuel parent) ++ [i]

def path (t : InstanceTree) (i : InstanceId) : Except Error (List InstanceId) := t.pathUpTo (i.index + 1) i

def pathNames (t : InstanceTree) (i : InstanceId) : Except Error (List String) := do
  (← t.path i).mapM fun i => do return (← t.node i).name.getD ""

def describe (t : InstanceTree) (i : InstanceId) : Except Error String := do
  return "<instance: [" ++ ", ".intercalate (← t.pathNames i) ++ "]>"

def invalidate (t : InstanceTree) : InstanceTree := { generation := t.generation + 1 }

end InstanceTree

end HardwareDesign
