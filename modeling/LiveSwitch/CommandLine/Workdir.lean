import LiveSwitch.CommandLine.Run

/-!
# A working directory

A command reads and writes files of a directory.  A path leads through its parts from the
working directory, or from the root if it starts with a slash.  Every part but the last has
to be a directory, and the last one too if a slash follows it.  A directory is there if a
file lies below it.  Of the rest of the file system there are the directories above, a few
below the root, and the null device, which is empty and stays so.

## Main definitions

* `Place`, `Workdir.follow` — what a path leads to.
* `Workdir` — the files of a directory, with `read` and `write?`.
* `runIn` — a command in a directory.
-/

namespace LiveSwitch.CommandLine

/-- What a path leads to. -/
inductive Place where
  | directory
  /-- A file, by the parts of its path. -/
  | file (parts : List String)
  /-- A name that is not taken, in a directory that is there. -/
  | vacant (parts : List String)
  /-- A way through a directory that is not there. -/
  | missing
  /-- A way on after a file, or a name that is too long. -/
  | blocked
  deriving DecidableEq, Repr, Inhabited

/-- The files of a directory, by the parts of their paths. -/
structure Workdir where
  files : List (List String × ByteArray) := []

namespace Workdir

/-- The name of the root among the parts of a path. -/
def root : String := "/"

/-- The null device. -/
def nullDevice : List String := [root, "dev", "null"]

/-- The most bytes that a name can have. -/
def maxName : Nat := 255

/-- The most bytes that a path can have. -/
def maxPath : Nat := 4095

/-- The text cut at slashes. -/
def cut : List Char → List (List Char)
  | [] => [[]]
  | c :: cs =>
    if c = '/' then [] :: cut cs
    else match cut cs with
      | p :: ps => (c :: p) :: ps
      | [] => [[c]]

/-- The content of a file. -/
def content? (d : Workdir) (parts : List String) : Option ByteArray :=
  if parts = nullDevice then some .empty else d.files.lookup parts

/-- The directories outside of the working directory that are sure to be there. -/
def systemDirectories : List (List String) :=
  [[root], [root, "dev"], [root, "etc"], [root, "tmp"]]

/-- Whether a path is a directory: the working directory, one above it, one that is always
there, or one that a file lies below. -/
def isDirectory (d : Workdir) (parts : List String) : Bool :=
  parts.all (· == "..") || systemDirectories.contains parts ||
    d.files.any fun f => parts.isPrefixOf f.1 && parts != f.1

/-- The directory above a directory. -/
def above (parts : List String) : List String :=
  if parts = [root] then parts
  else if parts.all (· == "..") then parts ++ [".."]
  else parts.dropLast

/-- Where the parts of a path lead to from a directory. -/
def walk (d : Workdir) (start : List String) : List String → Place
  | [] => .directory
  | name :: rest =>
    if name = "" ∨ name = "." then d.walk start rest
    else if name = ".." then d.walk (above start) rest
    else
      let here := start ++ [name]
      if maxName < name.utf8ByteSize then .blocked
      else if d.isDirectory here then d.walk here rest
      else if (d.content? here).isSome then if rest.isEmpty then .file here else .blocked
      else if rest.isEmpty then .vacant here else .missing

/-- Where a path leads to. -/
def follow (d : Workdir) (path : String) : Place :=
  let parts := (cut path.toList).map String.ofList
  if maxPath < path.utf8ByteSize then .blocked
  else if path.isEmpty then .missing
  else d.walk (if path.toList.head? = some '/' then [root] else []) parts

/-- What is found under a path. -/
def read (d : Workdir) (path : String) : FileContent :=
  match d.follow path with
  | .directory => .unreadable
  | .file parts => (d.content? parts).elim .missing .bytes
  | .vacant _ | .missing => .missing
  | .blocked => .blocked

/-- Writes a file into a directory that is there. -/
def write? (d : Workdir) (path : String) (content : ByteArray) : Option Workdir :=
  match d.follow path with
  | .file parts | .vacant parts =>
    some { files := (parts, content) :: d.files.filter fun f => f.1 != parts }
  | .directory | .missing | .blocked => none

/-- The directory of files with the given paths. -/
def ofList (files : List (String × ByteArray)) : Workdir :=
  let parts (path : String) := ((cut path.toList).map String.ofList).filter fun p =>
    p != "" && p != "."
  { files := files.map fun f => (parts f.1, f.2) }

end Workdir

/-- Carries out a command in a directory: its exit code, what it prints, and the directory
after it.  A file that cannot be written is a failure. -/
def runIn (d : Workdir) (args : List String) : Nat × String × Workdir :=
  let report := run args d.read
  match report.dump? with
  | none => (report.exit, report.output, d)
  | some (path, text) =>
    match d.write? path text.toUTF8 with
    | some d => (report.exit, report.output, d)
    | none => (failureExit, report.output, d)

end LiveSwitch.CommandLine
