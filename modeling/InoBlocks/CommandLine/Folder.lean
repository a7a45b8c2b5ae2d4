import InoBlocks.CommandLine.Path

/-!
# Folders

What stands at a path, and a folder given by the files in it.
-/

namespace InoBlocks

namespace CommandLine

/-- What stands at a path. -/
inductive Entry where
  | file (bytes : List UInt8)
  | folder
  /-- Nothing, in a folder that is there. -/
  | absent
  /-- Nothing, and no folder that could hold it. -/
  | homeless
  /-- Nothing, for a name on the way is that of a file. -/
  | beneathFile
  /-- Nothing, for a name on the way is too long to be one. -/
  | unnameable
  deriving DecidableEq, Repr

def Entry.refusal? : Entry → Option String
  | homeless => some "[Errno 2] No such file or directory"
  | beneathFile => some "[Errno 20] Not a directory"
  | folder => some "[Errno 21] Is a directory"
  | unnameable => some "[Errno 36] File name too long"
  | file _ | absent => none

/-- A folder: the files in it and below it, by the names that lead to them. -/
abbrev Folder := List (List String × List UInt8)

/-- Where a walk has led. -/
inductive Spot where
  /-- Into a folder, by names. -/
  | inside (names : List String)
  /-- Out of it, so many levels up. -/
  | above (levels : Nat)
  /-- To a place that is named from the root on. -/
  | rooted (names : List String)
  deriving DecidableEq, Repr

namespace Spot

def go : Spot → String → Spot
  | inside [], ".." => above 1
  | inside names, ".." => inside names.dropLast
  | above levels, ".." => above (levels + 1)
  | rooted names, ".." => rooted names.dropLast
  | inside names, step => inside (names ++ [step])
  | above _, step => rooted ["..", step]
  | rooted names, step => rooted (names ++ [step])

end Spot

/-- The folders under the root that are there on every system. -/
def systemFolders : List String :=
  ["bin", "dev", "etc", "home", "lib", "opt", "proc", "root", "sbin", "sys", "tmp", "usr", "var"]

/-- What stands where names from the root on lead.  What is in the system folders is not known,
the file that is always empty apart. -/
def systemEntry : List String → Entry
  | [] => .folder
  | ["dev", "null"] => .file []
  | [name] => if systemFolders.contains name then .folder else .absent
  | _ => .absent

def maxNameSize : Nat := 255

def maxPathSize : Nat := 4095

namespace Folder

def entryAt (f : Folder) (names : List String) : Entry :=
  match f.find? fun file => file.1 == names with
  | some file => .file file.2
  | none => if names == [] || f.any (fun file => names.isPrefixOf file.1) then .folder else .absent

def entry (f : Folder) : Spot → Entry
  | .inside names => f.entryAt names
  | .above _ => .folder
  | .rooted names => systemEntry names

/-- Where a walk along steps leads from a spot, and what stands there. -/
def walk (f : Folder) (spot : Spot) : List String → Spot × Entry
  | [] => (spot, f.entry spot)
  | step :: steps =>
      match f.entry spot with
      | .folder =>
          if Path.isIdle step then f.walk spot steps
          else if maxNameSize < step.utf8ByteSize then (spot, .unnameable)
          else f.walk (spot.go step) steps
      | .file _ => (spot, .beneathFile)
      | .absent => (spot, .homeless)
      | other => (spot, other)

/-- Where a path as it is written leads, and what stands there. -/
def find (f : Folder) (written : String) : Spot × Entry :=
  let start : Spot := if (Path.ofText written).root == "" then .inside [] else .rooted []
  if maxPathSize < written.utf8ByteSize then (start, .unnameable)
  else if written == "" then (start, .homeless)
  else f.walk start (Path.steps written)

def look (f : Folder) (written : String) : Entry :=
  (f.find written).2

def newName? (f : Folder) (written : String) : Option String :=
  match f.find written with
  | (.inside names, .absent) => some ("/".intercalate names)
  | _ => none

end Folder

end CommandLine

end InoBlocks
