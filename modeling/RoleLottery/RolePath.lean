import RoleLottery.Text.Fields

/-!
# Role paths

A role path is a list of names written with `/` between them. The name `.` is reserved: it marks the
leaf of a client whose own path has other clients below it.
-/

namespace RoleLottery.RolePath

def ownLeaf : String := "."

inductive Fault
  | noSegments
  | emptySegment
  | reservedSegment
  deriving DecidableEq, Repr

def Fault.message : Fault → String
  | .noSegments => "path is empty"
  | .emptySegment => "empty segment"
  | .reservedSegment => "'.' is a reserved segment"

/-- The pieces between the slashes, whatever they are. -/
def segments (path : String) : List String :=
  (Text.fields '/' path.toList).map String.ofList

/-- The first segment that no client path may contain decides. -/
def firstFault? : List String → Option Fault
  | [] => none
  | s :: rest =>
    if s = "" then some .emptySegment
    else if s = ownLeaf then some .reservedSegment
    else firstFault? rest

def split (path : String) : Except Fault (List String) :=
  if path = "" then .error .noSegments
  else match firstFault? (segments path) with
    | some fault => .error fault
    | none => .ok (segments path)

/-- The path of the child `name`; the path of the root is empty. -/
def join (parent name : String) : String :=
  if parent = "" then name else parent ++ "/" ++ name

end RoleLottery.RolePath
