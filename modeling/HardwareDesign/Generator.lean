import HardwareDesign.Error
import HardwareDesign.Json

namespace HardwareDesign

inductive Request where
  | instantiate (name : String) (target : DefId)
  | register (name : String) (type : ValueType)
  | operation (name mnemonic : String)
  | unnamed (mnemonic : String)

abbrev Answer := Except Error (Option String)

inductive Program where
  | done
  | fail (e : Error)
  | remark (data : Json) (next : Program)
  | request (r : Request) (next : Answer → Program)

abbrev Generator := DefId → String → Program

inductive Event where
  | started (d : DefId) (symbol : String)
  | remark (data : Json)
  | answered (a : Answer)

inductive DefinitionBody where
  | external
  | generated (g : Generator)

def DefinitionBody.isExternal : DefinitionBody → Bool
  | external => true
  | generated _ => false

structure Definition where
  name : String
  body : DefinitionBody

end HardwareDesign
