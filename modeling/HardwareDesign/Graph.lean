import HardwareDesign.Payload
import HardwareDesign.Table

/-!
The design graph: a forest of records. Records are reached through handles, and a handle is good for one epoch of
the graph.
-/

namespace HardwareDesign

structure RecordId where
  index : Nat
deriving DecidableEq

namespace RecordId

def text (id : RecordId) : String := "rec" ++ toString id.index

instance : Ord RecordId := ⟨fun a b => compare a.index b.index⟩

end RecordId

/-- A record id with the epoch, and the graph, in which the handle was issued. -/
structure Handle where
  record : RecordId
  epoch : Nat
  source : Nat
deriving DecidableEq

namespace Handle

def text (h : Handle) : String := "OpRef(" ++ h.record.text ++ "@" ++ toString h.epoch ++ ")"

/-- The graph that issued a handle does not count. -/
def same (a b : Handle) : Bool := a.record = b.record && a.epoch = b.epoch

end Handle

inductive GraphError where
  | staleHandle (id : RecordId)
  | erased (id : RecordId)
  | noBody (id : RecordId) (kind : PayloadKind)
deriving DecidableEq

def GraphError.message : GraphError → String
  | staleHandle id => "handle to " ++ id.text ++ " is from a cleared epoch"
  | erased id => id.text ++ " has been erased"
  | noBody id kind => id.text ++ " (" ++ kind.text ++ ") has no body"

structure Record where
  payload : Payload
  parent : Option RecordId
  body : List RecordId := []

/-- Ids are given out in ascending order and never again. The lists are in the order of creation. -/
structure Graph where
  source : Nat := 0
  lastId : Nat := 0
  records : Table RecordId Record := {}
  top : List RecordId := []
  epoch : Nat := 0

namespace Graph

def empty (source : Nat) : Graph := { source }

def handle (g : Graph) (id : RecordId) : Handle := ⟨id, g.epoch, g.source⟩

def contains (g : Graph) (id : RecordId) : Bool := g.records.contains id

def size (g : Graph) : Nat := g.records.size

def isEmpty (g : Graph) : Bool := g.records.entries.isEmpty

def lookup (g : Graph) (id : RecordId) : Option Handle := if g.contains id then some (g.handle id) else none

def recordOf (g : Graph) (id : RecordId) : Except GraphError Record :=
  match g.records.find? id with
  | some r => .ok r
  | none => .error (.erased id)

def record (g : Graph) (h : Handle) : Except GraphError Record :=
  if h.epoch = g.epoch then g.recordOf h.record else .error (.staleHandle h.record)

def payload (g : Graph) (h : Handle) : Except GraphError Payload := do return (← g.record h).payload

def kind (g : Graph) (h : Handle) : Except GraphError PayloadKind := do return (← g.payload h).kind

def parent (g : Graph) (h : Handle) : Except GraphError (Option Handle) := do
  return (← g.record h).parent.map g.handle

def bodyIds (g : Graph) (h : Handle) : Except GraphError (List RecordId) := do
  let r ← g.record h
  if r.payload.hasBody then return r.body else throw (.noBody h.record r.payload.kind)

def body (g : Graph) (h : Handle) : Except GraphError (List Handle) := do return (← g.bodyIds h).map g.handle

def nameOf (g : Graph) (id : RecordId) : Option String := (g.records.find? id).bind (·.payload.symbolName)

def namedAmong (g : Graph) : List RecordId → Except GraphError (List (String × Handle))
  | [] => .ok []
  | id :: ids => do
    let r ← g.recordOf id
    let rest ← g.namedAmong ids
    match r.payload.symbolName with
    | some name => return (name, g.handle id) :: rest
    | none => return rest

def namedChildren (g : Graph) (h : Handle) : Except GraphError (List (String × Handle)) := do
  g.namedAmong (← g.bodyIds h)

def topLevel (g : Graph) : List Handle := g.top.map g.handle

/-- Records in pre-order, from the next ones to visit. Each step visits one record, so their number bounds the
steps. -/
def preorder (g : Graph) : Nat → List RecordId → Except GraphError (List RecordId)
  | _, [] => .ok []
  | 0, id :: _ => .error (.erased id)
  | fuel + 1, id :: next => do
    let r ← g.recordOf id
    return id :: (← g.preorder fuel (r.body ++ next))

def descendants (g : Graph) (h : Handle) : Except GraphError (List Handle) := do
  let r ← g.record h
  return (← g.preorder g.size r.body).map g.handle

def listing (g : Graph) : Except GraphError (List (RecordId × Record)) := do
  (← g.preorder g.size g.top).mapM fun id => do return (id, ← g.recordOf id)

def nextId (g : Graph) : RecordId := ⟨g.lastId + 1⟩

def added (g : Graph) (parent : Option RecordId) (payload : Payload) : Graph :=
  { g with lastId := g.lastId + 1, records := g.records.insert g.nextId { payload, parent } }

def createTop (g : Graph) (payload : Payload) : Handle × Graph :=
  (g.handle g.nextId, { g.added none payload with top := g.top ++ [g.nextId] })

def appendTo (g : Graph) (parent : RecordId) (id : RecordId) : Graph :=
  { g with records := g.records.modify parent fun r => { r with body := r.body ++ [id] } }

def createIn (g : Graph) (parent : Handle) (payload : Payload) : Except GraphError (Handle × Graph) := do
  let _ ← g.bodyIds parent
  return (g.handle g.nextId, (g.added (some parent.record) payload).appendTo parent.record g.nextId)

def create (g : Graph) (parent : Option Handle) (payload : Payload) : Except GraphError (Handle × Graph) :=
  match parent with
  | none => .ok (g.createTop payload)
  | some parent => g.createIn parent payload

def detach (g : Graph) (id : RecordId) : Option RecordId → Except GraphError Graph
  | none => .ok { g with top := g.top.filter (· ≠ id) }
  | some parent => do
    let r ← g.recordOf parent
    if r.payload.hasBody then
      return { g with records := g.records.modify parent fun r => { r with body := r.body.filter (· ≠ id) } }
    else throw (.erased parent)

def bodyCount (records : Table RecordId Record) : Nat := (records.values.flatMap (·.body)).length

def removeAll : Nat → List RecordId → Table RecordId Record → Table RecordId Record
  | _, [], records => records
  | 0, _, records => records
  | fuel + 1, id :: waiting, records =>
    match records.find? id with
    | some r => removeAll fuel (r.body ++ waiting) (records.erase id)
    | none => removeAll fuel waiting records

/-- Erases a record and everything nested inside of it. A body is put to wait once at most, because its record is
removed then, so the bodies together bound the steps. -/
def erase (g : Graph) (h : Handle) : Except GraphError Graph := do
  let r ← g.record h
  let g' ← g.detach h.record r.parent
  return { g' with records := removeAll (bodyCount g'.records + 1) [h.record] g'.records }

def liveAmong (g : Graph) (held : List Handle) : Nat :=
  held.countP fun h => h.source = g.source && h.epoch = g.epoch

def nextEpoch (g : Graph) : Graph := { g with epoch := g.epoch + 1 }

end Graph

end HardwareDesign
