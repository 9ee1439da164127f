import HardwareDesign.Graph
import HardwareDesign.Reference

namespace HardwareDesign

inductive NotFound where
  | symbol (symbol : String)
  | definition (d : DefId)
  | unbuilt (d : DefId)
  | child (parent name : String)
deriving DecidableEq

def NotFound.message : NotFound → String
  | symbol text => "no definition is registered under symbol `" ++ text ++ "`"
  | definition d => "unknown definition " ++ d.text
  | unbuilt d => "definition " ++ d.text ++ " has not been built"
  | child parent name => parent ++ " has no child named `" ++ name ++ "`"

inductive PlacementError where
  | invalidLocation (location : Location)
  | occupied (location : Location) (occupant : RecordId)
deriving DecidableEq

def PlacementError.message : PlacementError → String
  | invalidLocation location => location.text ++ " is not a valid location on this device"
  | occupied location occupant => location.text ++ " is already occupied by " ++ occupant.text

inductive Error where
  | notFound (e : NotFound)
  | doesNotExist (path : String)
  | staleInstance (i : InstanceId)
  | wrongKind (kind : InstanceKind) (action : String)
  | noPlacementDatabase
  | placement (e : PlacementError)
  | width (e : WidthMismatch)
  | graph (e : GraphError)
  | invalidConfiguration
  | unreadableFile
  | custom (message : String)
deriving DecidableEq

namespace Error

def message : Error → String
  | notFound e => e.message
  | doesNotExist path => "instance " ++ path ++ " does not exist (anymore)"
  | staleInstance i => "instance handle " ++ i.text ++ " is from an invalidated cache generation"
  | wrongKind kind action => "cannot " ++ action ++ " a " ++ kind.text
  | noPlacementDatabase => "the placement database must be created first"
  | placement e => e.message
  | width e => e.message
  | graph e => "design graph error: " ++ e.message
  | invalidConfiguration => "invalid configuration"
  | unreadableFile => "I/O error"
  | custom message => message

def isSoft : Error → Bool
  | notFound _ => true
  | doesNotExist _ => true
  | _ => false

end Error

/-- A rule that the caller has to keep and did not. Nothing can be said about the design afterwards. -/
inductive Violation where
  | secondHierarchy (symbol : String)
  | parentlessInstance (id : RecordId)
  | notAnInstance (kind : PayloadKind)
deriving DecidableEq

def Violation.message : Violation → String
  | secondHierarchy symbol => "cannot create two instance hierarchies for module `" ++ symbol ++ "`"
  | parentlessInstance id => "dynamic instance record " ++ id.text ++ " has no parent"
  | notAnInstance kind => "cannot resolve a " ++ kind.text ++ " record to an instance"

inductive Failure where
  | error (e : Error)
  | violation (v : Violation)
deriving DecidableEq

end HardwareDesign
