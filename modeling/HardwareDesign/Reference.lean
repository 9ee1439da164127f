
namespace HardwareDesign

structure DefId where
  index : Nat
deriving DecidableEq

namespace DefId

def text (d : DefId) : String := "def" ++ toString d.index

instance : Ord DefId := ⟨fun a b => compare a.index b.index⟩

end DefId

structure InstanceId where
  index : Nat
  generation : Nat
deriving DecidableEq

def InstanceId.text (i : InstanceId) : String := "inst" ++ toString i.index ++ "@" ++ toString i.generation

inductive InstanceKind where
  | root
  | module
  | register
  | leaf
deriving DecidableEq

def InstanceKind.text : InstanceKind → String
  | root => "hierarchy root"
  | module => "module instance"
  | register => "register instance"
  | leaf => "leaf instance"

end HardwareDesign
