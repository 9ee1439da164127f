import HardwareDesign.Design.Navigation

namespace HardwareDesign

inductive WalkFailure where
  | error (e : Error)
  | tooDeep

namespace Design

variable {σ : Type}

abbrev Walk (σ : Type) := EStateM WalkFailure (Design × σ)

def onWalk {α : Type} (a : Action α) : Walk σ α := fun s =>
  match a s.1 with
  | .ok x t => .ok x (t, s.2)
  | .error e t => .error (.error e) (t, s.2)

/-- The visitor sees the design and a state of its own. Instances deeper than the fuel are not reached. -/
def walk (visit : InstanceId → Walk σ Unit) : Nat → InstanceId → Walk σ Unit
  | 0, _ => throw .tooDeep
  | depth + 1, i => do
    visit i
    let c ← onWalk (children i)
    c.values.forM (walk visit depth)

end Design

end HardwareDesign
