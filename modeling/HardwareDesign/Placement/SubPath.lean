
namespace HardwareDesign

abbrev SubPath := Option String

namespace SubPath

def joined (parts : List String) : String := String.join (parts.map ("|" ++ ·))

def ofParts (parts : List String) : SubPath := if (joined parts).isEmpty then none else some (joined parts)

def ofText (text : String) : SubPath := if text.isEmpty then none else ofParts [text]

def ofText? (text : Option String) : SubPath := text.bind ofText

end SubPath

end HardwareDesign
