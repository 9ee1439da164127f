
namespace HardwareDesign

inductive ValueType where
  | int (width : UInt64)
  | array (element : ValueType) (length : UInt64)
  | named (name : String) (inner : ValueType)
deriving DecidableEq

namespace ValueType

def strip : ValueType → ValueType
  | named _ inner => inner.strip
  | int width => int width
  | array element length => array element length

def bitwidth : ValueType → Nat
  | int width => width.toNat
  | array element length => element.bitwidth * length.toNat
  | named _ inner => inner.bitwidth

/-- The number of bits as it is computed in words. A product that does not fit loses the bits above the 64th. -/
def width : ValueType → UInt64
  | int width => width
  | array element length => element.width * length
  | named _ inner => inner.width

def text : ValueType → String
  | int width => "i" ++ toString width
  | array element length => "array<" ++ toString length ++ "x" ++ element.text ++ ">"
  | named name _ => name

end ValueType

end HardwareDesign
