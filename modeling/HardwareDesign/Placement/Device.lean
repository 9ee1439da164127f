import HardwareDesign.Location

namespace HardwareDesign

structure Device where
  coordinates : List (Primitive × UInt64 × UInt64) := []
  locations : List Location := []

def Device.isValid (d : Device) (l : Location) : Bool :=
  d.locations.contains l || d.coordinates.contains (l.primitive, l.x, l.y)

end HardwareDesign
