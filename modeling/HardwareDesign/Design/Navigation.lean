import HardwareDesign.Design.Sites

namespace HardwareDesign.Design

def nodeKind (s : Design) : SiteKind → Except Error NodeKind
  | .module target => do return .module (← s.resolveDefinition target)
  | .register type => .ok (.register type)
  | .operation => .ok .leaf

def nodeKinds (s : Design) : List (String × Site) → Except Error (List (String × NodeKind))
  | [] => .ok []
  | (name, site) :: sites => do
    let kind ← s.nodeKind site.kind
    return (name, kind) :: (← s.nodeKinds sites)

def materialize (i root : InstanceId) (target : DefId) (kinds : List (String × NodeKind)) : Action Children := fun s =>
  let (c, tree) := InstanceTree.addChildren i root target kinds {} s.tree
  .ok c { s with tree }

def newChildren (i : InstanceId) (n : Node) : Action Children := do
  match n.kind.target with
  | none => return {}
  | some target =>
    let sites ← sitesOf target
    let kinds ← Action.read (·.nodeKinds sites.entries)
    materialize i n.root target kinds

def children (i : InstanceId) : Action Children := do
  let n ← Action.read (·.node i)
  match n.children with
  | some c => return c
  | none =>
    let c ← newChildren i n
    modify fun s => { s with tree := s.tree.setChildren i c }
    return c

def child (i : InstanceId) (name : String) : Action InstanceId := do
  match (← children i).find? name with
  | some c => return c
  | none =>
    let parent ← Action.read (·.tree.describe i)
    Action.fail (.notFound (.child parent name))

end HardwareDesign.Design
