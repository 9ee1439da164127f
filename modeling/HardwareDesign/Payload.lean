import HardwareDesign.Location

namespace HardwareDesign

structure SiteRef where
  module : String
  name : String
deriving DecidableEq

namespace SiteRef

def text (r : SiteRef) : String := "@" ++ r.module ++ "::@" ++ r.name

instance : Ord SiteRef := ⟨fun a b => (compare a.module b.module).then (compare a.name b.name)⟩

end SiteRef

inductive Payload where
  | module (symbol : String)
  | external (symbol : String)
  | instantiation (name target : String)
  | register (name : String) (type : ValueType)
  | operation (name : Option String) (mnemonic : String)
  | hierarchy (top : String)
  | dynamicInstance (site : SiteRef)
  | verbatim (name value : String) (subPath : Option String)
  | location (location : Location) (subPath : Option String)
  | registerLocations (locations : LocationVector)
deriving DecidableEq

inductive PayloadKind where
  | module
  | external
  | instantiation
  | register
  | operation
  | hierarchy
  | dynamicInstance
  | verbatim
  | location
  | registerLocations
deriving DecidableEq

def PayloadKind.text : PayloadKind → String
  | module => "module"
  | external => "module.extern"
  | instantiation => "instance"
  | register => "register"
  | operation => "other"
  | hierarchy => "instance_hierarchy"
  | dynamicInstance => "dynamic_instance"
  | verbatim => "verbatim_attr"
  | location => "phys_location"
  | registerLocations => "reg_phys_location"

namespace Payload

def kind : Payload → PayloadKind
  | module _ => .module
  | external _ => .external
  | instantiation _ _ => .instantiation
  | register _ _ => .register
  | operation _ _ => .operation
  | hierarchy _ => .hierarchy
  | dynamicInstance _ => .dynamicInstance
  | verbatim _ _ _ => .verbatim
  | location _ _ => .location
  | registerLocations _ => .registerLocations

def symbolName : Payload → Option String
  | module symbol => some symbol
  | external symbol => some symbol
  | instantiation name _ => some name
  | register name _ => some name
  | operation name _ => name
  | _ => none

def hasBody : Payload → Bool
  | module _ => true
  | hierarchy _ => true
  | dynamicInstance _ => true
  | _ => false

end Payload

end HardwareDesign
