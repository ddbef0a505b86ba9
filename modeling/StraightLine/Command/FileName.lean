/-!
# File names

The extension of a file is what follows the last dot of its name, unless the dot is the first
character. Paths are lists of characters here, divided by slashes.
-/

namespace StraightLine.Command.FileName

/-- The part of a list up to its last `c`, which is kept, and the part after it. -/
def splitLast (c : Char) (cs : List Char) : List Char × List Char :=
  ((cs.reverse.dropWhile (· ≠ c)).reverse, (cs.reverse.takeWhile (· ≠ c)).reverse)

/-- A name without its extension. -/
def stem (name : List Char) : List Char :=
  match (splitLast '.' name).1.dropLast with
  | [] => name
  | cs => cs

/-- Gives a file another extension. A name that would be left with a single dot before its
extension becomes the two dots of the folder above. -/
def withExtension (extension : List Char) (path : List Char) : List Char :=
  let (folder, name) := splitLast '/' path
  if stem name = ['.'] then folder ++ ['.', '.']
  else folder ++ stem name ++ '.' :: extension

end StraightLine.Command.FileName
