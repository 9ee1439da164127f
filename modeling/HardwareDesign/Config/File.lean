import HardwareDesign.Config
import HardwareDesign.Error
import HardwareDesign.Toml.Document

namespace HardwareDesign.Config

def ofToml (text : String) : Except Error Config :=
  match (Toml.parse? text).bind (decode ⟨true, Toml.isReadable⟩) with
  | some c => .ok c
  | none => .error .invalidConfiguration

def ofFile (content : Option ByteArray) : Except Error Config :=
  match content.bind String.fromUTF8? with
  | some text => ofToml text
  | none => .error .unreadableFile

end HardwareDesign.Config
