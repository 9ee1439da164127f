import HardwareDesign.Issue

namespace HardwareDesign

inductive Advisory where
  | liveHandles (count : Nat)
  | partialGeneration (pending : Nat)
deriving DecidableEq

namespace Advisory

def message : Advisory → String
  | liveHandles count => "something is holding references to " ++ toString count ++ " design graph records"
  | partialGeneration pending =>
    "running lowering passes on a partially generated design (" ++ toString pending ++ " modules pending)"

def help : Advisory → String
  | liveHandles _ => "drop record handles before invalidating; look them up again afterwards"
  | partialGeneration _ => "call `System::generate` first"

instance : Diagnostic Advisory where
  message := message
  severity _ := .warning
  help a := some a.help

end Advisory

end HardwareDesign
