/-
Trees of files as values: which place a path leads to from the working
directory, and what reading and writing there does. A run of the command line
over a tree is then an ordinary function of the arguments and the tree.
-/
import IntelAsm.CommandLine

namespace IntelAsm.CommandLine

namespace FileError

def notFound : FileError := .system 2
def notDirectory : FileError := .system 20
def isDirectory : FileError := .system 21
def noSpace : FileError := .system 28
def nameTooLong : FileError := .system 36

end FileError

/-- A place in a tree: the names that lead to it from the root. -/
abbrev Place := List String

/-- What stands at a place. A device has nothing to read; it drops what is written,
or refuses it if that is any byte at all. -/
inductive Node where
  | directory
  | file (content : ByteArray)
  | device (refusal : Option FileError)

/-- Files and directories, and the directory from which paths start. -/
structure FileTree where
  nodes : List (Place × Node)
  working : Place

namespace FileTree

/-- What stands at a place. The root is always a directory. -/
def node? (t : FileTree) (place : Place) : Option Node :=
  if place = [] then some .directory else t.nodes.lookup place

/-- The tree with a node at a place. -/
def put (t : FileTree) (place : Place) (node : Node) : FileTree :=
  { t with nodes := (place, node) :: t.nodes }

/-! ## Paths -/

/-- A name has at most this many bytes. -/
def maxNameBytes : Nat := 255

/-- A path has fewer bytes than this. -/
def pathBytesBound : Nat := 4096

/-- A step from a directory by one name of a path. -/
def step (place : Place) (name : String) : Except FileError Place :=
  if name = "" ∨ name = "." then .ok place
  else if name = ".." then .ok place.dropLast
  else if maxNameBytes < name.utf8ByteSize then .error .nameTooLong
  else .ok (place ++ [name])

/-- Only a directory can be entered. -/
def enter (t : FileTree) (place : Place) : Except FileError Unit :=
  match t.node? place with
  | some .directory => .ok ()
  | some _ => .error .notDirectory
  | none => .error .notFound

/-- The place that names lead to. Each name is looked up in a directory, so a
slash at the end of a path asks for a directory in front of it. -/
def walk (t : FileTree) (place : Place) : List String → Except FileError Place
  | [] => .ok place
  | name :: rest => do
    t.enter place
    t.walk (← step place name) rest

/-- Where a path starts. -/
def start (t : FileTree) (path : String) : Place :=
  if path.startsWith "/" then [] else t.working

/-- Paths that are not looked up at all. -/
def checkPath (path : String) : Except FileError Unit :=
  if path.isEmpty then .error .notFound
  else if pathBytesBound ≤ path.utf8ByteSize then .error .nameTooLong
  else .ok ()

/-- The place of what a path names. -/
def locate (t : FileTree) (path : String) : Except FileError Place := do
  checkPath path
  t.walk (t.start path) (path.splitOn "/")

/-- The place of a file to be written, which need not exist yet. A path that can only name a
directory is refused once the directory it stands in has been reached. -/
def locateNew (t : FileTree) (path : String) : Except FileError Place := do
  checkPath path
  let parts := path.splitOn "/"
  let names := parts.filter (· ≠ "")
  match names.getLast? with
  | none => .error .isDirectory
  | some last =>
    let parent ← t.walk (t.start path) names.dropLast
    t.enter parent
    if parts.getLast? = some "" ∨ last = "." ∨ last = ".." then .error .isDirectory
    else step parent last

/-! ## Files -/

/-- The content of a file. -/
def read (t : FileTree) (path : String) : Except FileError ByteArray := do
  match t.node? (← t.locate path) with
  | some (.file content) => .ok content
  | some (.device _) => .ok .empty
  | some .directory => .error .isDirectory
  | none => .error .notFound

/-- The tree after a file has been written. -/
def write (t : FileTree) (path : String) (content : ByteArray) : Except FileError FileTree := do
  let place ← t.locateNew path
  match t.node? place with
  | some .directory => .error .isDirectory
  | some (.device (some e)) => if content.isEmpty then .ok t else .error e
  | some (.device none) => .ok t
  | some (.file _) | none => .ok (t.put place (.file content))

/-- The files of a tree, for a run that may change it. -/
def files : Files (StateM FileTree) where
  read path := return (← get).read path
  write path content := do
    match (← get).write path content with
    | .ok t => set t; return .ok ()
    | .error e => return .error e

/-- The directories below the root that a system usually has. -/
def usualDirectories : List String :=
  ["bin", "boot", "dev", "etc", "home", "lib", "media", "mnt", "opt", "proc", "root", "run", "sbin",
    "srv", "sys", "tmp", "usr", "var"]

/-- The usual directories, the device that takes everything and the one that takes nothing, and
an empty working directory. -/
def usual : FileTree where
  nodes := usualDirectories.map (fun name => ([name], .directory)) ++
    [(["dev", "null"], .device none), (["dev", "full"], .device (some .noSpace)),
      (["tmp", "work"], .directory)]
  working := ["tmp", "work"]

/-- The tree with a file in its working directory. -/
def putFile (t : FileTree) (name : String) (content : ByteArray) : FileTree :=
  t.put (t.working ++ [name]) (.file content)

/-- The content of a file in the working directory. -/
def file? (t : FileTree) (name : String) : Option ByteArray :=
  match t.node? (t.working ++ [name]) with
  | some (.file content) => some content
  | _ => none

end FileTree
end IntelAsm.CommandLine
