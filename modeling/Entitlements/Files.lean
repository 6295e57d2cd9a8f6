import Entitlements.Settings.Load

/-!
A directory held in memory: its place below the root, its files, and what a path leads to that starts
in the directory or at the root. Directories exist on the way to the directory and to its files;
nothing else exists.
-/

namespace Entitlements

/-- A directory with its files, each by the names on the way from the root. -/
structure Files where
  /-- The names on the way to the directory. -/
  place : List String
  files : List (List String × String)

namespace Files

/-- The names that a path consists of. -/
def namesOf (path : String) : List String :=
  (Text.pieces '/' path).filter fun p => p ≠ "" && p ≠ "."

/-- The directory at a place with the files of a list of paths and texts. -/
def ofList (place : String) (l : List (String × String)) : Files :=
  ⟨namesOf place, l.map fun f => (namesOf place ++ namesOf f.1, f.2)⟩

/-- What lies at the end of some names from the root. -/
def at? (t : Files) (names : List String) : Found :=
  match t.files.find? fun f => f.1 == names with
  | some f => .file f.2
  | none =>
    if names.isPrefixOf t.place || t.files.any fun f => names.isPrefixOf f.1 then .directory
    else .absent

/-- Follows a path part by part from a directory. Two points lead one directory up, as far as the
root. -/
def follow (t : Files) : List String → List String → Found
  | here, [] => t.at? here
  | here, p :: ps =>
    if t.at? here ≠ .directory then .absent
    else if p = "" || p = "." then follow t here ps
    else if p = ".." then follow t here.dropLast ps
    else follow t (here ++ [p]) ps

def longestPath : Nat := 4095

/-- What a path leads to. One that is empty or too long leads nowhere. -/
def look (t : Files) (path : String) : Found :=
  if path = "" || longestPath < path.utf8ByteSize then .absent
  else match Text.pieces '/' path with
    | "" :: ps => t.follow [] ps
    | ps => t.follow t.place ps

end Files

end Entitlements
