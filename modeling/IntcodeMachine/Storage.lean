import IntcodeMachine.Machine.Event
import IntcodeMachine.Program
import IntcodeMachine.Text.Utf8

/-!
Files and the programs in them. A path is kept in its shortest spelling: empty
components and single dots are dropped, double dots are kept, and only a root
of exactly two slashes differs from the root of one. In a tree of files every
component of a path but the last has to be a directory, and double dots go up,
at the root nowhere. Names and paths are limited in their length, and a null
character has no place in them.

To load a program the bytes of its file are decoded, its line ends are made
line feeds, and the text is read.
-/

namespace IntcodeMachine

open Text

/-- The components of a path as it is spelled. -/
def pathComponents (path : String) : List String :=
  (path.toList.splitOn '/').map String.ofList

structure Path where
  root : String
  parts : List String
deriving DecidableEq

namespace Path

def rootOf (path : String) : String :=
  match (path.toList.takeWhile (· = '/')).length with
  | 0 => ""
  | 2 => "//"
  | _ => "/"

def ofString (path : String) : Path where
  root := rootOf path
  parts := (pathComponents path).filter fun part => part ≠ "" ∧ part ≠ "."

/-- The spelling of a path. The empty path is the current directory. -/
def text (path : Path) : String :=
  if path.root = "" ∧ path.parts = [] then "."
  else path.root ++ "/".intercalate path.parts

/-- The last component. -/
def name (path : Path) : String :=
  path.parts.getLast?.getD ""

end Path

/-- What is found at a path. -/
inductive Lookup where
  | file (content : List UInt8)
  | directory
  | missing
  | notDirectory
  | tooLong
  | nullInPath
deriving DecidableEq

/-- The longest name of a file, in bytes. -/
def longestName : Nat := 255

/-- The longest path, in bytes. -/
def longestPath : Nat := 4095

inductive Node where
  | file (content : List UInt8)
  | directory
deriving DecidableEq

/-- Files and directories by the components of their paths from the root, and
the directory from which other paths start. The directories on the way to all
of them belong to the tree as well. -/
structure Tree where
  entries : List (List String × Node)
  current : List String := []
deriving DecidableEq

namespace Tree

/-- The node that stands at the end of the given components. -/
def node? (tree : Tree) (parts : List String) : Option Node :=
  match tree.entries.find? (·.1 = parts) with
  | some (_, node) => some node
  | none =>
      if (tree.current :: tree.entries.map (·.1)).any parts.isPrefixOf then
        some .directory
      else none

/-- Follows components from a place in the tree. -/
def walk (tree : Tree) : List String → List String → Lookup
  | place, [] =>
      match tree.node? place with
      | some (.file content) => .file content
      | some .directory => .directory
      | none => .missing
  | place, part :: rest =>
      match tree.node? place with
      | none => .missing
      | some (.file _) => .notDirectory
      | some .directory =>
          if part = "" ∨ part = "." then tree.walk place rest
          else if part = ".." then tree.walk place.dropLast rest
          else if longestName < part.utf8ByteSize then .tooLong
          else tree.walk (place ++ [part]) rest

/-- The place from which a path with the given root goes on. Without a root
that is the current directory. -/
def start (tree : Tree) (root : String) : List String :=
  if root = "" then tree.current else []

/-- What is found at a path as it is spelled. A slash at the end asks for a
directory, and the empty path names nothing. -/
def lookup (tree : Tree) (path : String) : Lookup :=
  if path.contains '\x00' then .nullInPath
  else if longestPath < path.utf8ByteSize then .tooLong
  else if path = "" then .missing
  else tree.walk (tree.start (Path.rootOf path)) (pathComponents path)

end Tree

/-- Why a file gives no program. -/
inductive LoadError where
  | missing (path : Path)
  | directory (path : Path)
  | notDirectory (path : Path)
  | tooLong (path : Path)
  | nullInPath
  | undecodable (cause : DecodeError)
  | unreadable (cause : Program.ReadError)
deriving DecidableEq

def nullInPathMessage : String :=
  "embedded null byte"

def LoadError.message : LoadError → String
  | .missing path => "[Errno 2] No such file or directory: " ++ quoted path.text
  | .directory path => "[Errno 21] Is a directory: " ++ quoted path.text
  | .notDirectory path => "[Errno 20] Not a directory: " ++ quoted path.text
  | .tooLong path => "[Errno 36] File name too long: " ++ quoted path.text
  | .nullInPath => nullInPathMessage
  | .undecodable cause => cause.message
  | .unreadable cause => cause.message

/-- The program in a file of the given content. -/
def Program.ofBytes (content : List UInt8) : Except LoadError (List Int) := do
  let text ← (decodeUtf8 content).mapError .undecodable
  (Program.read (unifyLineEnds text)).mapError .unreadable

/-- The program at a path, given what is found there. -/
def Program.ofLookup (path : Path) : Lookup → Except LoadError (List Int)
  | .file content => Program.ofBytes content
  | .directory => .error (.directory path)
  | .missing => .error (.missing path)
  | .notDirectory => .error (.notDirectory path)
  | .tooLong => .error (.tooLong path)
  | .nullInPath => .error .nullInPath

/-- A load as it is logged: the path before, the number of words after. -/
def Program.loadRecords (path : Path) (result : Except LoadError (List Int)) :
    List Record :=
  ⟨.debug, "Loading program " ++ path.text⟩ ::
    match result with
    | .ok program =>
        [⟨.info, "Loaded " ++ toString program.length ++ " words from " ++
          path.name⟩]
    | .error _ => []

/-- Loads the program at a path, given what is found at paths, and logs it. -/
def Program.load (find : String → Lookup) (path : Path) :
    List Record × Except LoadError (List Int) :=
  let result := Program.ofLookup path (find path.text)
  (Program.loadRecords path result, result)

end IntcodeMachine
