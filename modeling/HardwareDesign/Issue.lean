
namespace HardwareDesign

inductive Severity where
  | info
  | warning
  | error
deriving DecidableEq

namespace Severity

def text : Severity → String
  | info => "info"
  | warning => "warning"
  | error => "error"

def rank : Severity → Nat
  | info => 0
  | warning => 1
  | error => 2

instance : Ord Severity := ⟨fun a b => compare a.rank b.rank⟩

end Severity

class Diagnostic (ι : Type) where
  message : ι → String
  severity : ι → Severity := fun _ => .warning
  help : ι → Option String := fun _ => none

structure IssueSet (ι : Type) where
  issues : List ι := []

namespace IssueSet

variable {ι : Type}

def empty : IssueSet ι := ⟨[]⟩

def add (s : IssueSet ι) (issue : ι) : IssueSet ι := ⟨s.issues ++ [issue]⟩

def extend (s : IssueSet ι) (issues : List ι) : IssueSet ι := issues.foldl add s

def size (s : IssueSet ι) : Nat := s.issues.length

def isEmpty (s : IssueSet ι) : Bool := s.issues.isEmpty

variable [Diagnostic ι]

def count (s : IssueSet ι) (severity : Severity) : Nat :=
  s.issues.countP (fun i => Diagnostic.severity i = severity)

def errors (s : IssueSet ι) : Nat := s.count .error

def warnings (s : IssueSet ι) : Nat := s.count .warning

def hasError (s : IssueSet ι) : Bool := 0 < s.errors

def hasWarning (s : IssueSet ι) : Bool := 0 < s.warnings

def text (s : IssueSet ι) : String := String.join (s.issues.map (fun i => Diagnostic.message i ++ "\n"))

end IssueSet

end HardwareDesign
