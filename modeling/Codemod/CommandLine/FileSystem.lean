import Codemod.Path.Normal
import Codemod.Setup.Writing

/-!
File systems: what is seen in them, and a disk as the simplest of them.

A disk has files and directories below one root and no links. A path is followed from the root or
from the working directory, part by part, and every part but the last has to lead to a directory.
So the place of a file is the normal form of its path in the working directory, if there is a way
to it at all. Directories are made where a write needs them.
-/
namespace Codemod

/-- What a path leads to. -/
inductive Entry where
  | missing
  | directory
  /-- A file with its text; none where the file cannot be read as text. -/
  | file (text : Option String)
  deriving DecidableEq

abbrev FileSystem := Path → Entry

def FileSystem.view (files : FileSystem) (root : Path) : View where
  read path :=
    match files (root.join path) with
    | .file (some text) => .ok (some text)
    | .file none => .error ("read " ++ (root.join path).spelling)
    | _ => .ok none
  holds path :=
    match files (root.join path) with
    | .file _ => true
    | _ => false

/-- Files and directories by their paths from the root. Whatever a file or a directory is below is
a directory too. -/
structure Disk where
  files : PathMap (Option String)
  folders : List Path
  /-- The directory that relative paths start from. -/
  working : Path
  working_absolute : working.isAbsolute = true

namespace Disk

open Codemod.Path (Component pushNormal)

/-- The components at which the way of a path begins, the last one first. -/
def start (disk : Disk) (path : Path) : List Component :=
  if path.isAbsolute then [.root] else (Path.collapse disk.working.components).reverse

/-- Goes on by one part of a path. The root is above itself. -/
def step (here : List Component) (part : String) : List Component :=
  if Path.isIdle part then here else pushNormal here (.ofPart part)

def pathTo (here : List Component) : Path := .ofComponents here.reverse

def isDirectory (disk : Disk) (here : List Component) : Bool :=
  let isAbove (path : Path) : Bool := here.reverse.isPrefixOf path.components
  isAbove disk.working.normalize || disk.folders.any isAbove ||
    disk.files.keys.any fun key => isAbove key && key.components != here.reverse

def file? (disk : Disk) (here : List Component) : Option (Option String) :=
  disk.files.find? (pathTo here)

def entryAt (disk : Disk) (here : List Component) : Entry :=
  match disk.file? here with
  | some text => .file text
  | none => if disk.isDirectory here then .directory else .missing

def follow (disk : Disk) : List Component → List String → Option (List Component)
  | here, [] => some here
  | here, part :: rest => if disk.isDirectory here then disk.follow (step here part) rest else none

def locate? (disk : Disk) (path : Path) : Option (List Component) :=
  disk.follow (disk.start path) (Text.splitText '/' path.spelling)

def fileSystem (disk : Disk) : FileSystem := fun path =>
  if path.spelling = "" then .missing else ((disk.locate? path).map disk.entryAt).getD .missing

/-- Makes the directories that are missing along the parts of a path, up to a file in the way. -/
def makeAlong (disk : Disk) : List Component → List String → Bool × Disk
  | _, [] => (true, disk)
  | here, part :: rest =>
    let next := step here part
    if disk.isDirectory next then disk.makeAlong next rest
    else if (disk.file? next).isSome then (false, disk)
    else makeAlong { disk with folders := pathTo next :: disk.folders } next rest

def makeAll (disk : Disk) (path : Path) : Bool × Disk :=
  disk.makeAlong (disk.start path) (Text.splitText '/' path.spelling)

/-- A path names a file with its last part. -/
def endsInName (path : Path) : Bool :=
  (Text.splitText '/' path.spelling).getLast?.any fun part => !Path.isIdle part && part != ".."

/-- Where the text of a path goes to: a file, or a name in a directory that is still free. -/
def target? (disk : Disk) (path : Path) : Option (List Component) :=
  if endsInName path then (disk.locate? path).filter fun here => !disk.isDirectory here else none

def put (disk : Disk) (here : List Component) (text : String) : Disk :=
  { disk with files := disk.files.insert (pathTo here) (some text) }

/-- Writes to a disk. What was made on the way stays when a write fails. -/
def writer : Writer Disk where
  writeFile path text disk :=
    match disk.makeAll path.directory with
    | (false, disk) => (.error ("create parent dir for " ++ path.spelling), disk)
    | (true, disk) =>
      match disk.target? path with
      | some here => (.ok (), disk.put here text)
      | none => (.error ("write " ++ path.spelling), disk)
  makeDirectory path disk :=
    match disk.makeAll path with
    | (false, disk) => (.error ("create_dir_all " ++ path.spelling), disk)
    | (true, disk) => (.ok (), disk)

end Disk

end Codemod
