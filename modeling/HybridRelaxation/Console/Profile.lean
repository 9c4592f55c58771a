import HybridRelaxation.Failure

/-!
# Profile files

A profiled run leaves a file named for the time at which it ended and for what was run, in a
directory that is made if it is missing. Files are listed by their path from the place of the run;
what lies outside of that place or below a hidden directory is not listed.
-/

namespace HybridRelaxation

structure Profile where
  directory : String
  identifier : String

namespace Profile

def defaultDirectory : String := "profiling"

def start? (enabled : Bool) (directory identifier : String) : Option Profile :=
  if enabled then some ⟨directory, identifier⟩ else none

/-! ## Paths -/

/-- The way down to where a path leads, innermost directory first, unless it leads outside. -/
def descend (way : Option (List String)) (part : String) : Option (List String) :=
  if part = "" || part = "." then way
  else if part = ".." then
    match way with
    | some (_ :: outer) => some outer
    | _ => none
  else way.map (part :: ·)

def directories? (path : String) : Option (List String) :=
  if path.startsWith "/" then none
  else ((path.splitOn "/").foldl descend (some [])).map List.reverse

def isHidden (part : String) : Bool := part.startsWith "."

def path? (p : Profile) (timestamp : String) : Option String :=
  match directories? p.directory with
  | some parts =>
      if parts.any isHidden then none
      else some ("/".intercalate (parts ++ [timestamp ++ "_" ++ p.identifier ++ ".prof"]))
  | none => none

/-! ## Files -/

def longestName : Nat := 255

def surroundingLength : Nat := 21

/-- Checks that no name ends before its last character and that none is too long. -/
def checkName (length : Nat) (name : String) : Except Failure Unit :=
  if name.contains '\x00' then .error .badValue
  else if longestName < length then .error .nameTooLong
  else .ok ()

def checkPath (p : Profile) : Except Failure Unit := do
  if p.directory = "" then .error .noSuchPlace
  (p.directory.splitOn "/").forM (fun part => checkName part.utf8ByteSize part)
  match p.identifier.splitOn "/" with
  | [name] => checkName (name.utf8ByteSize + surroundingLength) name
  | parts => do
      parts.forM (checkName 0)
      .error .noSuchPlace

def files (p : Option Profile) (timestamp : String) (count : Int) :
    Except Failure (List String) :=
  match p with
  | some p =>
      if count ≤ 0 then .ok []
      else do
        p.checkPath
        .ok (p.path? timestamp).toList
  | none => .ok []

end Profile

end HybridRelaxation
