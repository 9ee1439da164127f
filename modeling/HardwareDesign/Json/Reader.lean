import HardwareDesign.Json.Token
import HardwareDesign.Table

namespace HardwareDesign.Json

namespace Reader

inductive Frame where
  | list (items : List Json)
  | object (members : Table String Json) (key : String)

inductive Expectation where
  | value
  | valueOrEnd
  | key (members : Table String Json)
  | keyOrEnd
  | colon (members : Table String Json) (key : String)
  | separator
  | nothing (result : Json)

structure State where
  frames : List Frame
  expects : Expectation

def complete (j : Json) : List Frame → State
  | [] => ⟨[], .nothing j⟩
  | .list items :: frames => ⟨.list (j :: items) :: frames, .separator⟩
  | .object members key :: frames => ⟨.object (members.insert key j) key :: frames, .separator⟩

def startValue (frames : List Frame) : Token → Option State
  | .openList => some ⟨.list [] :: frames, .valueOrEnd⟩
  | .openObject => some ⟨frames, .keyOrEnd⟩
  | .text t => some (complete (.str t) frames)
  | .scalar j => some (complete j frames)
  | _ => none

def startKey (frames : List Frame) (members : Table String Json) : Token → Option State
  | .text key => some ⟨frames, .colon members key⟩
  | _ => none

def step (s : State) (t : Token) : Option State :=
  match s.expects, s.frames, t with
  | .value, frames, t => startValue frames t
  | .valueOrEnd, .list _ :: frames, .closeList => some (complete (.arr []) frames)
  | .valueOrEnd, frames, t => startValue frames t
  | .key members, frames, t => startKey frames members t
  | .keyOrEnd, frames, .closeObject => some (complete (.obj []) frames)
  | .keyOrEnd, frames, t => startKey frames Table.empty t
  | .colon members key, frames, .colon => some ⟨.object members key :: frames, .value⟩
  | .separator, .list items :: frames, .comma => some ⟨.list items :: frames, .value⟩
  | .separator, .list items :: frames, .closeList => some (complete (.arr items.reverse) frames)
  | .separator, .object members _ :: frames, .comma => some ⟨frames, .key members⟩
  | .separator, .object members _ :: frames, .closeObject => some (complete (.obj members.entries) frames)
  | _, _, _ => none

def result : State → Option Json
  | ⟨[], .nothing j⟩ => some j
  | _ => none

end Reader

def parse? (s : String) : Option Json := do
  let tokens ← Token.all s
  let final ← tokens.foldlM Reader.step ⟨[], .value⟩
  Reader.result final

end HardwareDesign.Json
