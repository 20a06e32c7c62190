import ImpToC.Table
import ImpToC.Text.Lines
import ImpToC.Text.Quoted
import ImpToC.Text.Utf8

/-!
# Files

A disk is a folder with files in it, some of them in folders of their own, and
little more than the root of all folders around it. A path leads through folders
to an entry; where it fails says why nothing can be read or written there.
-/

namespace ImpToC

namespace Path

/-- The parts of a path between its slashes. -/
def segments (path : String) : List String := path.splitOn "/"

/-- The parts of a path that lead somewhere. -/
def steps (path : String) : List String :=
  (segments path).filter fun s => s ≠ "" && s ≠ "."

/-- The slashes that lead a path to the root of all folders. Two of them are
kept; any other number is as good as one. -/
def root (path : String) : String :=
  match path.toList with
  | '/' :: '/' :: '/' :: _ => "/"
  | '/' :: '/' :: _ => "//"
  | '/' :: _ => "/"
  | _ => ""

/-- The plain form of a path: no empty parts, and no parts that stay in place. -/
def plain (path : String) : String :=
  let joined := root path ++ "/".intercalate (steps path)
  if joined = "" then "." else joined

/-- A path with more bytes than can be asked for. -/
def isOverlong (path : String) : Bool := 4095 < path.utf8ByteSize

/-- A part of a path with more bytes than the name of a file can have. -/
def isOverlongPart (part : String) : Bool := 255 < part.utf8ByteSize

end Path

/-- What a path leads to. -/
inductive Entry
  | file (content : List UInt8)
  | folder
  /-- Nothing, but the folder of the path is there. -/
  | vacant
  /-- Nothing, and a folder of the path is missing. -/
  | unreachable
  /-- Nothing, and a file stands where the path needs a folder. -/
  | blocked
  /-- Nothing, and nothing can be there: the path has a name that is too long. -/
  | overlong
  deriving DecidableEq, Repr, Inhabited

/-- The content of a file. -/
def Entry.content? : Entry → Option (List UInt8)
  | file content => some content
  | _ => none

/-- Why nothing can be written to a place. -/
inductive Refusal
  | noFolder
  | isFolder
  | underFile
  | overlong
  deriving DecidableEq, Repr

/-- What keeps a place from being written to. A file that is there is replaced. -/
def Entry.refusal? : Entry → Option Refusal
  | file _ | vacant => none
  | folder => some .isFolder
  | unreachable => some .noFolder
  | blocked => some .underFile
  | overlong => some .overlong

/-- The text of a file's content, with uniform line endings. -/
def readText (content : List UInt8) : Except Text.Utf8.Fault (List Char) := do
  let text ← Text.Utf8.decode content
  return Text.uniformEndings text

/-- Files by the steps that lead to them. The steps start in the folder of the
disk, or with a slash at the root of all folders. -/
structure Disk where
  files : Table (List String) (List UInt8)
  deriving Inhabited

namespace Disk

/-- The root of all folders. No part of a path has this name. -/
def rootPlace : List String := ["/"]

/-- The file that is always empty. -/
def nullDevice : List String := rootPlace ++ ["dev", "null"]

/-- The names of the folders at the root that every system has. -/
def systemFolders : List String :=
  ["bin", "dev", "etc", "home", "lib", "opt", "proc", "root", "run", "sbin", "sys", "tmp", "usr",
    "var"]

/-- A disk with the given files. -/
def ofFiles (files : List (String × List UInt8)) : Disk :=
  ⟨.ofList ((nullDevice, []) :: files.map fun f => (Path.steps f.1, f.2))⟩

/-- A place is the folder of the disk or one above it. -/
def isAbove (place : List String) : Bool := place.all (· = "..")

/-- A place is a folder, even if no file of the disk is in it. -/
def isGiven (place : List String) : Bool :=
  isAbove place || place = rootPlace || systemFolders.any fun name => place = rootPlace ++ [name]

/-- A place lies in the folder of the disk. -/
def isInside (place : List String) : Bool := place.head? ≠ some ".." && place.head? ≠ some "/"

/-- What stands in a place whose folder is there. -/
def entry (d : Disk) (place : List String) : Entry :=
  match d.files.get? place with
  | some content => .file content
  | none =>
    if isGiven place || d.files.keys.any (place.isPrefixOf ·) then .folder else .vacant

/-- One part of a path, taken from a folder. Nothing is above the root. -/
def step (place : List String) (part : String) : List String :=
  if part = "" ∨ part = "." then place
  else if part ≠ ".." ∨ isAbove place then place ++ [part]
  else if place = rootPlace then place
  else place.dropLast

/-- Follow a path from a place: the entry and the place where it ends. -/
def walk (d : Disk) (place : List String) : List String → Entry × List String
  | [] => (d.entry place, place)
  | s :: rest =>
    match d.entry place with
    | .folder =>
      if Path.isOverlongPart s then (.overlong, place) else d.walk (step place s) rest
    | .file _ => (.blocked, place)
    | _ => (.unreachable, place)

/-- Follow a path from the folder of the disk, or from the root. -/
def find (d : Disk) (path : String) : Entry × List String :=
  if Path.isOverlong path then (.overlong, [])
  else d.walk (if Path.root path = "" then [] else rootPlace) (Path.segments path)

/-- What a path leads to. -/
def look (d : Disk) (path : String) : Entry := (d.find path).1

/-- Write a file where a path leads. -/
def write (d : Disk) (path : String) (content : List UInt8) : Disk :=
  ⟨d.files.insert (d.find path).2 content⟩

/-- The files in the folder of the disk that are new or different, in comparison
with an earlier state. -/
def changes (before after : Disk) : List (List String × List UInt8) :=
  after.files.entries.filter fun f => isInside f.1 && before.files.get? f.1 ≠ some f.2

/-- Why the text of a file cannot be had. -/
inductive Failure
  | missing (path : String)
  | folder (path : String)
  | overlong (path : String)
  | undecodable (fault : Text.Utf8.Fault)
  deriving DecidableEq, Repr

/-- The wording of a failure. -/
def Failure.message : Failure → String
  | .missing path => "Source file not found: " ++ path
  | .folder path => "[Errno 21] Is a directory: " ++ Text.Quoted.quote (Path.plain path)
  | .overlong path => "[Errno 36] File name too long: " ++ Text.Quoted.quote (Path.plain path)
  | .undecodable fault => fault.message

/-- The text of the file to which the plain form of a path leads. -/
def readSource (d : Disk) (path : String) : Except Failure (List Char) :=
  match d.look (Path.plain path) with
  | .file content => (readText content).mapError .undecodable
  | .folder => .error (.folder path)
  | .overlong => .error (.overlong path)
  | _ => .error (.missing path)

end Disk

end ImpToC
