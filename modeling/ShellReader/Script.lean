import ShellReader.Text.Line

/-!
# ShellReader — script files

A source of commands may be named by a path. A path is its components, in a form
that drops empty and `.` ones and keeps `..`, whose meaning depends on the
folders there are. `Folder` is a set of files and folders held in memory, enough
to say which file a path names.
-/

namespace ShellReader.Script

/-- A path: the slashes it starts with and its components. -/
structure Path where
  root  : Text
  names : List Text
deriving DecidableEq

namespace Path

/-- The path that a text names. Two slashes in front are kept as they are, any other
number as one. -/
def ofText (t : Text) : Path :=
  let slashes := t.takeWhile (· == '/')
  let root := if slashes.length ≤ 2 then slashes else ['/']
  ⟨root, (t.pieces '/').filter fun name => name ≠ [] ∧ name ≠ ['.']⟩

/-- The path as text; the empty path is a dot. -/
def toText (p : Path) : Text :=
  if p.root.isEmpty ∧ p.names.isEmpty then ['.']
  else p.root ++ List.intercalate ['/'] p.names

end Path

/-- Files with their contents and folders, all named from one place. -/
structure Folder where
  files   : List (List Text × Text) := []
  folders : List (List Text) := []

namespace Folder

/-- Whether the names lead to a folder: the place itself, a folder that is listed,
or one on the way to something that is. -/
def isFolder (f : Folder) (names : List Text) : Bool :=
  names.isEmpty || f.folders.any names.isPrefixOf ||
    f.files.any fun (file, _) => names.isPrefixOf file && names != file

/-- Where components lead from the folder `here`, step by step. Each step must start
in a folder, and `..` must not lead outside. -/
def locate? (f : Folder) (here : List Text) : List Text → Option (List Text)
  | [] => some here
  | name :: rest =>
    if !f.isFolder here then none
    else if name = ['.', '.'] then
      if here.isEmpty then none else f.locate? here.dropLast rest
    else f.locate? (here ++ [name]) rest

/-- The contents of the file that a path names. -/
def read? (f : Folder) (p : Path) : Option Text := do
  if p.root ≠ [] then none
  else
    let place ← f.locate? [] p.names
    f.files.lookup place

end Folder

end ShellReader.Script
