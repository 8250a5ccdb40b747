/-!
# Storage

What a command needs of the files around it, and a folder in memory that provides it.

## Main definitions

* `Storage` — reading and writing files by their paths
* `Folder` — files and folders in memory; `StateM Folder` is a storage
-/

namespace CobolFlow.CommandLine

/-- Reading and writing files by their paths. -/
class Storage (m : Type → Type) where
  /-- The text of a file, if it can be read. -/
  readFile : String → m (Option String)
  isThere : String → m Bool
  /-- Makes a folder and those around it that are missing, and says whether it is there now. -/
  makeFolder : String → m Bool
  /-- Gives a file its text, and says whether that was possible. -/
  writeFile : String → String → m Bool

/-- The path of a name in a folder. An absolute name is a path of its own. -/
def joinPath (folder name : String) : String :=
  if name.startsWith "/" then name
  else if folder.endsWith "/" then folder ++ name
  else folder ++ "/" ++ name

/-- Files and folders in memory, each under the names that lead to it. -/
structure Folder where
  files : List (List String × String) := []
  /-- Folders that are there whether or not they hold a file. -/
  folders : List (List String) := []

namespace Folder

def isFile (f : Folder) (path : List String) : Bool := (f.files.lookup path).isSome

/-- Whether a folder is there: one that was made, or one that holds a file. -/
def isFolder (f : Folder) (path : List String) : Bool :=
  path.isEmpty || f.folders.any (path.isPrefixOf ·) ||
    f.files.any fun (names, _) => path.isPrefixOf names && path ≠ names

/-- A name that a file can have. -/
def isName (name : String) : Bool := name.utf8ByteSize ≤ 255 && !name.contains '\x00'

/-- The names in a path. -/
def names (path : String) : List String := (path.toList.splitOn '/').map String.ofList

/-- Follows names from a place in the folder. The last name need not be there. -/
def follow (f : Folder) (place : List String) : List String → Option (List String)
  | [] => some place
  | name :: rest =>
    if !f.isFolder place then none
    else if name.isEmpty || name = "." then follow f place rest
    else if name = ".." then if place.isEmpty then none else follow f place.dropLast rest
    else if isName name then follow f (place ++ [name]) rest
    else none

/-- The place to which a path leads. No path leads out of the folder. -/
def resolve (f : Folder) (path : String) : Option (List String) :=
  if path.startsWith "/" then none else f.follow [] (names path)

def read (f : Folder) (path : String) : Option String := do f.files.lookup (← f.resolve path)

def isThere (f : Folder) (path : String) : Bool :=
  match f.resolve path with
  | some place => f.isFile place || f.isFolder place
  | none => false

/-- Gives a file its text, where there is a folder for it. -/
def write (f : Folder) (path text : String) : Option Folder := do
  let place ← f.resolve path
  if f.isFolder place then none
  else some { f with files := (place, text) :: f.files.filter (·.1 ≠ place) }

/-- Makes all folders on the way along some names. -/
def make (f : Folder) (place : List String) : List String → Option Folder
  | [] => some f
  | name :: rest =>
    if name.isEmpty || name = "." then make f place rest
    else if name = ".." then if place.isEmpty then none else make f place.dropLast rest
    else if !isName name || f.isFile (place ++ [name]) then none
    else make { f with folders := (place ++ [name]) :: f.folders } (place ++ [name]) rest

def makeFolder (f : Folder) (path : String) : Option Folder :=
  if path.startsWith "/" then none else f.make [] (names path)

/-- Files under their paths. -/
def ofFiles (files : List (String × String)) : Folder :=
  { files := files.map fun (path, text) => ((names path).filter (!·.isEmpty), text) }

/-- Keeps the folder that a change makes, and says whether there is one. -/
def keep (change : Folder → Option Folder) : StateM Folder Bool := fun f =>
  match change f with
  | some f => (true, f)
  | none => (false, f)

instance : Storage (StateM Folder) where
  readFile path := return (← get).read path
  isThere path := return (← get).isThere path
  makeFolder path := keep (·.makeFolder path)
  writeFile path text := keep (·.write path text)

end Folder

end CobolFlow.CommandLine
