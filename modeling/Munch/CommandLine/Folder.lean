import Munch.Program.Files

/-!
A working folder that holds plain files, as the place to call the program in.

A path leads from folder to folder along its parts, which stand between slashes.  Every part but the
last has to lead to a folder; an empty part and a single dot stay where they are, and two dots lead
to the folder around.  Of the world around the working folder only what every system has is known:
some folders, the links among them, and the devices that have nothing to read.  The program itself
takes files as they come (`Munch.Program.Files`); this is a part of the outer layer.
-/

set_option autoImplicit false

namespace Munch.CommandLine

open Program (FileError Files)

def pathParts : List Char → List (List Char)
  | [] => [[]]
  | '/' :: rest => [] :: pathParts rest
  | c :: rest =>
      match pathParts rest with
      | [] => [[c]]
      | part :: parts => (c :: part) :: parts

/-- The names that lead to a folder from the root, in which all folders are. -/
abbrev Location := List String

/-- A folder by the place where it stands and the contents of the files in it. -/
structure Folder where
  location : Location
  content? : String → Option ByteArray

inductive Place where
  | folder (location : Location)
  | file (bytes : ByteArray)

namespace Folder

def maxPart : Nat :=
  255

def maxPath : Nat :=
  4095

def devices : Location :=
  ["dev"]

def emptyDevices : List String :=
  ["null", "stdin"]

/-- The folders that every system has. -/
def systemFolders : List Location :=
  [[], devices, ["dev", "pts"], ["dev", "shm"], ["boot"], ["etc"], ["home"], ["media"], ["mnt"],
   ["opt"], ["proc"], ["proc", "self"], ["root"], ["run"], ["srv"], ["sys"], ["tmp"], ["usr"],
   ["usr", "bin"], ["usr", "include"], ["usr", "lib"], ["usr", "local"], ["usr", "local", "bin"],
   ["usr", "local", "lib"], ["usr", "sbin"], ["usr", "share"], ["usr", "src"], ["var"],
   ["var", "cache"], ["var", "lib"], ["var", "log"], ["var", "tmp"]]

/-- The names that stand for folders elsewhere. -/
def links (f : Folder) : List (Location × Location) :=
  [(["bin"], ["usr", "bin"]), (["lib"], ["usr", "lib"]), (["sbin"], ["usr", "sbin"]),
   (["var", "run"], ["run"]), (["proc", "self", "cwd"], f.location), (["proc", "self", "root"], [])]

def hasFolder (f : Folder) (location : Location) : Bool :=
  systemFolders.contains location || location.isPrefixOf f.location

def child? (f : Folder) (location : Location) (name : String) : Option Place :=
  if location = f.location then (f.content? name).map .file
  else if location = devices ∧ name ∈ emptyDevices then some (.file .empty)
  else
    let location := location ++ [name]
    match f.links.lookup location with
    | some target => some (.folder target)
    | none => if f.hasFolder location then some (.folder location) else none

def follow (f : Folder) (location : Location) (part : String) : Except FileError Place :=
  if part = "" ∨ part = "." then .ok (.folder location)
  else if part = ".." then .ok (.folder location.dropLast)
  else if maxPart < part.utf8ByteSize then .error .nameTooLong
  else
    match f.child? location part with
    | none => .error .missing
    | some place => .ok place

def followAll (f : Folder) : Place → List String → Except FileError Place
  | place, [] => .ok place
  | .file _, _ :: _ => .error .notFolder
  | .folder location, part :: rest =>
      match f.follow location part with
      | .error e => .error e
      | .ok place => f.followAll place rest

def start (f : Folder) (path : List Char) : Location :=
  if path.head? = some '/' then [] else f.location

/-- What reading gives for a path in the working folder. -/
def read (f : Folder) : Files := fun path =>
  if maxPath < path.utf8ByteSize then .error .nameTooLong
  else
    let parts := (pathParts path.toList).map String.ofList
    match f.followAll (.folder (f.start path.toList)) parts with
    | .error e => .error e
    | .ok (.file bytes) => .ok bytes
    | .ok (.folder _) => .error .folder

end Folder

end Munch.CommandLine
