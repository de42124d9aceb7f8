/-!
# Slash-separated paths

The file name of a path is its last proper component: empty components and single dots are
skipped, and a path that ends in `..` has none.  The extension of a file name follows its last
dot, unless that dot is the first character.
-/

namespace BinarySchema.Text

def components (path : List Char) : List (List Char) :=
  path.splitOn '/'

/-- A path made only of dots and slashes names no file. -/
def fileName? (path : List Char) : Option (List Char) :=
  match (components path).reverse.find? fun part => part ≠ [] ∧ part ≠ ['.'] with
  | some part => if part = ['.', '.'] then none else some part
  | none => none

def afterLastDot (name : List Char) : List Char :=
  (name.reverse.takeWhile (· ≠ '.')).reverse

def extension? (path : List Char) : Option (List Char) :=
  match fileName? path with
  | some name =>
      if name.tail.contains '.' then some (afterLastDot name) else none
  | none => none

/-- A relative path without the components that stay in the same directory.  Others are kept whole,
and so are those that end in such a component, since they name a directory. -/
def withoutDots (path : List Char) : List Char :=
  let parts := components path
  let stays : List Char → Bool := fun part => part = [] ∨ part = ['.']
  if parts.head? = some [] ∨ parts.getLast?.any stays then path
  else ['/'].intercalate (parts.filter fun part => !stays part)

end BinarySchema.Text
