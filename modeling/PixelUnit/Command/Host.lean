/-!
# Hosts

What a command needs of the system that it runs on: to look at paths, to save files and to write
to two streams, one for results and one for reports.
-/

namespace PixelUnit.Command

/-- What is at a path. -/
inductive Entry where
  | file (bytes : ByteArray)
  | directory
  | absent

/-- What kind of thing is at a path. -/
inductive Kind where
  | file
  | directory
  | absent
deriving DecidableEq

/-- The kind of what is at a path. -/
def Entry.kind : Entry → Kind
  | .file _ => .file
  | .directory => .directory
  | .absent => .absent

/-- Why a file cannot be saved at a path. -/
inductive Obstacle where
  /-- There is no directory that it could be in. -/
  | missing
  /-- There is a directory, or the path asks for one. -/
  | directory
  /-- The path leads through a file. -/
  | blocked
deriving DecidableEq

/-- Systems that commands run on. -/
class Host (m : Type → Type) where
  /-- Looks at a path. -/
  look : String → m Entry
  /-- Saves a file. -/
  save : String → ByteArray → m (Except Obstacle Unit)
  /-- Writes to the stream of results. -/
  print : String → m Unit
  /-- Writes to the stream of reports. -/
  tell : String → m Unit

end PixelUnit.Command
