import Pagewright.Edit

/-!
A directory as data: its files and folders by their path. Paths in text are resolved name by
name, and every name but the last has to lead through a folder.
-/

namespace Pagewright

/-- A place in a directory: the names that lead there. -/
abbrev Place := List String

/-- A directory. Folders that hold something need not be listed. -/
structure Directory where
  files : List (Place × String)
  folders : List Place
deriving Repr, Inhabited

/-- The names of a path, which are separated by slashes. -/
def pathNames : List Char → List (List Char)
  | [] => [[]]
  | c :: rest =>
    if c = '/' then [] :: pathNames rest
    else match pathNames rest with
      | [] => [[c]]
      | first :: more => (c :: first) :: more

def longestName : Nat := 255

def longestPath : Nat := 4095

namespace Directory

def empty : Directory := ⟨[], []⟩

def file? (d : Directory) (place : Place) : Option String := d.files.lookup place

/-- Whether a place is a folder: the directory itself, a listed folder, or one that holds
something. -/
def isFolder (d : Directory) (place : Place) : Bool :=
  place.isEmpty || d.folders.any place.isPrefixOf ||
    d.files.any fun f => place.isPrefixOf f.1 && place.length < f.1.length

/-- Whether a name stands for a folder that is known already: none, this one, or the one
above. -/
def isRelative (name : String) : Bool := name = "" || name = "." || name = ".."

/-- Where a relative name leads from a folder. Nothing lies above the directory. -/
def goRelative? (place : Place) (name : String) : Option Place :=
  if name = ".." then (if place = [] then none else some place.dropLast) else some place

def enter? (d : Directory) (place : Place) (name : String) : Option Place :=
  if isRelative name then goRelative? place name
  else if d.isFolder (place ++ [name]) then some (place ++ [name]) else none

/-- Enters a folder by name, and creates it if there is nothing. A folder that is created inside
a listed one takes its place in the list. -/
def enterOrCreate? (d : Directory) (place : Place) (name : String) : Option (Directory × Place) :=
  let target := place ++ [name]
  if isRelative name then (goRelative? place name).map (d, ·)
  else if d.isFolder target then some (d, target)
  else if (d.file? target).isSome || longestName < name.utf8ByteSize then none
  else some ({ d with folders := target :: d.folders.erase place }, target)

/-- A path as the names that lead to its folder, and the last name. There is none when the path
is too long, starts outside the directory or cannot name a file. -/
def split? (path : String) : Option (List String × String) :=
  if longestPath < path.utf8ByteSize || path.toList.head? = some '/' then none
  else match ((pathNames path.toList).map String.ofList).reverse with
    | last :: above => if isRelative last then none else some (above.reverse, last)
    | [] => none

/-- The place of a path whose folder exists. -/
def locate? (d : Directory) (path : String) : Option Place := do
  let (above, last) ← split? path
  let folder ← above.foldlM d.enter? []
  return folder ++ [last]

def read? (d : Directory) (path : String) : Option String := (d.locate? path).bind d.file?

def put (d : Directory) (place : Place) (content : String) : Directory :=
  if (d.file? place).isSome then
    { d with files := d.files.map fun f => if f.1 = place then (place, content) else f }
  else { d with files := d.files ++ [(place, content)] }

/-- Writes a file in a folder that exists. -/
def write? (d : Directory) (path content : String) : Option Directory := do
  let place ← d.locate? path
  if d.isFolder place || longestName < (place.getLastD "").utf8ByteSize then none
  else return d.put place content

/-- Creates folders one inside the other, as far as that goes, and tells whether it went to the
end. -/
def createAlong (d : Directory) (place : Place) : List String → Directory × Bool
  | [] => (d, true)
  | name :: rest =>
    match d.enterOrCreate? place name with
    | some (d, place) => d.createAlong place rest
    | none => (d, false)

def createAbove (d : Directory) (path : String) : Directory × Bool :=
  match split? path with
  | some (above, _) => d.createAlong [] above
  | none => (d, false)

/-- A directory that holds the files of a list, with the folders they need. -/
def ofFiles (files : List (String × String)) : Directory :=
  files.foldl (fun d f =>
    let d := (d.createAbove f.1).1
    (d.write? f.1 f.2).getD d) empty

def pathText : Place → String
  | [] => ""
  | [name] => name
  | name :: rest => name ++ "/" ++ pathText rest

/-- The files that are new or have another content than before, sorted by path. -/
def changes (before after : Directory) : List (String × String) :=
  let changed := after.files.filter fun f => before.file? f.1 ≠ some f.2
  (changed.map fun f => (pathText f.1, f.2)).mergeSort fun a b => decide (a.1 ≤ b.1)

end Directory

end Pagewright
