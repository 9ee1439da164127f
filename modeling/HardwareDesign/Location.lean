import HardwareDesign.ValueType

namespace HardwareDesign

inductive Primitive where
  | blockRam
  | dsp
  | flipFlop
deriving DecidableEq

namespace Primitive

def text : Primitive → String
  | blockRam => "M20K"
  | dsp => "DSP"
  | flipFlop => "FF"

def rank : Primitive → Nat
  | blockRam => 0
  | dsp => 1
  | flipFlop => 2

instance : Ord Primitive := ⟨fun a b => compare a.rank b.rank⟩

end Primitive

structure Location where
  primitive : Primitive
  x : UInt64
  y : UInt64
  num : UInt64
deriving DecidableEq

namespace Location

def text (l : Location) : String :=
  "PhysLocation<" ++ l.primitive.text ++ ", x:" ++ toString l.x ++ ", y:" ++ toString l.y ++ ", num:" ++
    toString l.num ++ ">"

instance : Ord Location :=
  ⟨fun a b => (compare a.primitive b.primitive).then
    ((compare a.x b.x).then ((compare a.y b.y).then (compare a.num b.num)))⟩

end Location

structure WidthMismatch where
  type : ValueType
  expected : Nat
  actual : Nat
deriving DecidableEq

def WidthMismatch.message (m : WidthMismatch) : String :=
  "type `" ++ m.type.text ++ "` is " ++ toString m.expected ++ " bits wide, but " ++ toString m.actual ++
    " locations were given"

structure LocationVector where
  type : ValueType
  entries : List (Option Location)
deriving DecidableEq

namespace LocationVector

def flipFlopAt (c : UInt64 × UInt64 × UInt64) : Location := ⟨.flipFlop, c.1, c.2.1, c.2.2⟩

def ofCoordinates (type : ValueType) (coordinates : List (Option (UInt64 × UInt64 × UInt64))) :
    Except WidthMismatch LocationVector :=
  if coordinates.length = type.width.toNat then .ok ⟨type, coordinates.map (·.map flipFlopAt)⟩
  else .error ⟨type, type.width.toNat, coordinates.length⟩

theorem ofCoordinates_ok {type : ValueType} {coordinates : List (Option (UInt64 × UInt64 × UInt64))}
    {v : LocationVector} : ofCoordinates type coordinates = .ok v ↔
      coordinates.length = type.width.toNat ∧ v = ⟨type, coordinates.map (·.map flipFlopAt)⟩ := by
  rw [ofCoordinates]
  split
  case isTrue h => simp [h, eq_comm]
  case isFalse h => simp [h]

def placed (v : LocationVector) : List Location := v.entries.filterMap id

end LocationVector

end HardwareDesign
