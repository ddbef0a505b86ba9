import StraightLine.Text.Split

/-!
# Directories

The files that a command can reach, as a value: files by the parts of their paths. A folder is
there when a file lies in it.

All parts of a path but the last must lead to folders. A slash behind the last part asks for a
folder: no file can be read or written under such a path, whether it is there or not. Parts have at
most `maxPart` bytes and paths at most `maxPath`.
-/

namespace StraightLine.Command

/-- Why a file cannot be read or written. -/
inductive Fault where
  | notFound
  | notDirectory
  | isDirectory
  | nameTooLong
  deriving DecidableEq, Repr

/-- A fault in the words of the system. -/
def Fault.text : Fault → String
  | notFound => "No such file or directory (os error 2)"
  | notDirectory => "Not a directory (os error 20)"
  | isDirectory => "Is a directory (os error 21)"
  | nameTooLong => "File name too long (os error 36)"

/-- The parts of a path. Paths from the top of all folders begin with the part `/`. -/
abbrev Parts := List String

/-- Files by their paths. -/
structure Directory where
  files : List (Parts × String) := []
  deriving DecidableEq, Repr

/-- What a path leads to. -/
inductive Spot where
  | folder (path : Parts)
  | file (path : Parts) (text : String)
  /-- Nothing, though the folder around it is there. -/
  | vacant (path : Parts)
  deriving DecidableEq, Repr

namespace Directory

/-- The top of all folders. -/
def top : Parts := ["/"]

/-- Whether a folder is there: the directory itself, those around it and those that hold files. -/
def hasFolder (d : Directory) (path : Parts) : Bool :=
  path == top || path.all (· == "..") || d.files.any fun f => path.isPrefixOf f.1 && path != f.1

/-- The folder around a folder. -/
def parent (path : Parts) : Parts :=
  if path = top then top
  else if path.all (· == "..") then path ++ [".."]
  else path.dropLast

/-- What is at a place. -/
def look (d : Directory) (path : Parts) : Spot :=
  match d.files.lookup path with
  | some text => .file path text
  | none => if d.hasFolder path then .folder path else .vacant path

/-! ### Paths -/

/-- How many bytes a part of a path can have. -/
def maxPart : Nat := 255

/-- How many bytes a path can have. -/
def maxPath : Nat := 4095

/-- The parts that a path is written as, without the empty ones between slashes. -/
def parts (path : String) : Parts := (Text.splitAt '/' path).filter fun part => !part.isEmpty

/-- What a part of a path leads to from a folder. -/
def follow (d : Directory) (folder : Parts) (part : String) : Except Fault Spot :=
  if part = "." then .ok (.folder folder)
  else if part = ".." then .ok (.folder (parent folder))
  else if maxPart < part.utf8ByteSize then .error .nameTooLong
  else .ok (d.look (folder ++ [part]))

/-- Goes into the folder that a part of a path leads to. -/
def enter (d : Directory) (folder : Parts) (part : String) : Except Fault Parts := do
  match ← d.follow folder part with
  | .folder path => pure path
  | .file _ _ => throw .notDirectory
  | .vacant _ => throw .notFound

/-- The folder that the last part of a path is looked up in, and that part if there is one. -/
def locate (d : Directory) (path : String) : Except Fault (Parts × Option String) := do
  if path.isEmpty then throw .notFound
  if maxPath < path.utf8ByteSize then throw .nameTooLong
  let start := if path.startsWith "/" then top else []
  let folder ← (parts path).dropLast.foldlM d.enter start
  pure (folder, (parts path).getLast?)

/-! ### Files -/

/-- The text of a file. -/
def read (d : Directory) (path : String) : Except Fault String := do
  match ← d.locate path with
  | (_, none) => throw .isDirectory
  | (folder, some name) =>
    match ← d.follow folder name with
    | .file _ text => if path.endsWith "/" then throw .notDirectory else pure text
    | .folder _ => throw .isDirectory
    | .vacant _ => throw .notFound

/-- Puts a file in the place of the one at its path, or behind the others. -/
def insert (path : Parts) (text : String) : List (Parts × String) → List (Parts × String)
  | [] => [(path, text)]
  | f :: fs => if f.1 = path then (path, text) :: fs else f :: insert path text fs

/-- Writes a file, new or not. A slash behind its name is found out before the name is looked
up. -/
def write (d : Directory) (path text : String) : Except Fault Directory := do
  match ← d.locate path with
  | (_, none) => throw .isDirectory
  | (folder, some name) =>
    if path.endsWith "/" then throw .isDirectory
    match ← d.follow folder name with
    | .file place _ | .vacant place => pure { files := insert place text d.files }
    | .folder _ => throw .isDirectory

/-- The directory of some files, each with its path. -/
def ofFiles (files : List (String × String)) : Directory where
  files := files.map fun (path, text) => ((parts path).filter fun part => part ≠ ".", text)

end Directory

end StraightLine.Command
