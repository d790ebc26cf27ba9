import PixelUnit.Command.Host
import PixelUnit.Table

/-!
# Machines

A host without anything behind it: a disk of files and two texts that have been written so far.
A directory is there as long as there are files in it; beside the directory that commands run in,
the ones above it are there as well. `Disk.file?_put` says that a file that is put on a disk is
there and that all others stay as they are.
-/

namespace PixelUnit.Command

/-- The names on the way to a file or directory, from the directory that commands run in. -/
abbrev Path := List String

namespace Path

/-- The topmost directory. -/
def top : Path := ["/"]

/-- The directory that a written path starts from. -/
def start (written : String) : Path :=
  if written.toList.head? == some '/' then top else []

/-- The text up to the first slash, and the texts behind each slash. -/
def pieces : List Char → List Char × List (List Char)
  | [] => ([], [])
  | c :: r =>
    let (first, others) := pieces r
    if c == '/' then ([], first :: others) else (c :: first, others)

/-- The names in a written path. -/
def names (written : String) : List String :=
  let (first, others) := pieces written.toList
  (first :: others).map String.ofList

/-- Whether a path leads to the directory that commands run in or to one above it. -/
def isBase (p : Path) : Bool :=
  p == top || p.all (· == "..")

/-- The directory above the one that a path leads to. -/
def above (p : Path) : Path :=
  if p == top then top
  else if isBase p then p ++ [".."]
  else p.dropLast

/-- Whether a written path asks for a directory. -/
def asksForDirectory (written : String) : Bool :=
  written.toList.getLast? == some '/'

/-- A written path without the slashes at its end. -/
def withoutSlash (written : String) : String :=
  String.ofList (written.toList.reverse.dropWhile (· == '/')).reverse

end Path

/-- Files at paths, each path once. -/
structure Disk where
  files : List (Path × ByteArray) := []

namespace Disk

/-- The file at a path. -/
def file? (d : Disk) (p : Path) : Option ByteArray :=
  d.files.lookup p

/-- Whether a path leads to a directory. -/
def isDirectory (d : Disk) (p : Path) : Bool :=
  p.isBase || d.files.any fun e => p.isPrefixOf e.1 && p != e.1

/-- The disk with a file at a path. -/
def put (d : Disk) (p : Path) (bytes : ByteArray) : Disk :=
  ⟨Table.put p bytes d.files⟩

/-- A file that is put on a disk is there, and all others stay as they are. -/
theorem file?_put (d : Disk) (p q : Path) (bytes : ByteArray) :
    (d.put p bytes).file? q = if q == p then some bytes else d.file? q :=
  Table.lookup_put p q bytes d.files

/-- Where names lead to from a directory, all names but the last being those of directories. -/
def follow (d : Disk) (p : Path) : List String → Except Obstacle Path
  | [] => .ok p
  | name :: rest =>
    if d.isDirectory p then
      match name with
      | "" | "." => d.follow p rest
      | ".." => d.follow p.above rest
      | name => d.follow (p ++ [name]) rest
    else .error (if (d.file? p).isSome then .blocked else .missing)

/-- Where a written path leads to. -/
def resolve (d : Disk) (written : String) : Except Obstacle Path :=
  if written.isEmpty then .error .missing
  else d.follow (Path.start written) (Path.names written)

/-- What is at a written path. -/
def entry (d : Disk) (written : String) : Entry :=
  match d.resolve written with
  | .error _ => .absent
  | .ok p =>
    match d.file? p with
    | some bytes => .file bytes
    | none => if d.isDirectory p then .directory else .absent

/-- The disk with a file saved at a written path. -/
def save (d : Disk) (written : String) (bytes : ByteArray) : Except Obstacle Disk :=
  match d.resolve (Path.withoutSlash written) with
  | .error o => .error o
  | .ok p =>
    if Path.asksForDirectory written || d.isDirectory p then .error .directory
    else .ok (d.put p bytes)

end Disk

/-- A disk and what has been written. -/
structure Machine where
  disk : Disk
  /-- The results. -/
  out : String := ""
  /-- The reports. -/
  err : String := ""

/-- What a machine does. -/
abbrev Run := StateM Machine

instance : Host Run where
  look path m := (m.disk.entry path, m)
  save path bytes m :=
    match m.disk.save path bytes with
    | .ok disk => (.ok (), { m with disk })
    | .error o => (.error o, m)
  print s m := ((), { m with out := m.out ++ s })
  tell s m := ((), { m with err := m.err ++ s })

end PixelUnit.Command
