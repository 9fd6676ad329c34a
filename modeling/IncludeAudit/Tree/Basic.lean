import IncludeAudit.Path
import IncludeAudit.Text.Bytes

/-!
# IncludeAudit.Tree.Basic

A tree of directories, files and symbolic links, and the place in it from which relative paths
start.

* `FileProblem`: why an operation is refused; `FileProblem.text` its wording.
* `Node.at?`: what stands at the end of a row of names.
* `Tree.locate`: the row of names that a path leads to, once links are followed.
* `Tree.read`, `readText`: what a file holds.
-/

namespace IncludeAudit

inductive FileProblem where
  | notFound
  | alreadyExists
  | notDirectory
  | isDirectory
  | nameTooLong
  | tooManyLinks
  | zeroByte
  | notText
deriving DecidableEq, Repr

def FileProblem.text : FileProblem → String
  | notFound => "No such file or directory (os error 2)"
  | alreadyExists => "File exists (os error 17)"
  | notDirectory => "Not a directory (os error 20)"
  | isDirectory => "Is a directory (os error 21)"
  | nameTooLong => "File name too long (os error 36)"
  | tooManyLinks => "Too many levels of symbolic links (os error 40)"
  | zeroByte => "file name contained an unexpected NUL byte"
  | notText => "stream did not contain valid UTF-8"

inductive Node where
  | file (content : ByteArray)
  | link (target : String)
  | directory (entries : List (String × Node))

instance : Inhabited Node := ⟨.directory []⟩

namespace Node

def child? (name : String) : List (String × Node) → Option Node
  | [] => none
  | (key, n) :: rest => if key = name then some n else child? name rest

def at? (n : Node) : List String → Option Node
  | [] => some n
  | name :: rest =>
    match n with
    | directory entries =>
      match child? name entries with
      | none => none
      | some n => n.at? rest
    | _ => none

end Node

/-- The working directory `here` is named from the root down. -/
structure Tree where
  root : Node := .directory []
  here : List String := []

instance : Inhabited Tree := ⟨{}⟩

namespace Tree

/-- How far the segments of a path lead. -/
inductive Progress where
  /-- To something that is there. -/
  | reached (place : List String)
  /-- To a directory without an entry of this name, and so many segments before the end. -/
  | missing (directory : List String) (name : String) (rest : List String)
  /-- To a link. -/
  | linked (directory : List String) (target : String) (rest : List String)
  | refused (problem : FileProblem)
deriving DecidableEq

def longestName : Nat := 255

/-- From a place on, up to the first link. A link at the very end counts only if it is to be
followed. -/
def advance (root : Node) (follow : Bool) (place : List String) : List String → Progress
  | [] => .reached place
  | name :: rest =>
    match root.at? place with
    | some (.directory entries) =>
      if Path.isSilent name then advance root follow place rest
      else if name = ".." then advance root follow place.dropLast rest
      else if longestName < name.utf8ByteSize then .refused .nameTooLong
      else
        match Node.child? name entries with
        | none => .missing place name rest
        | some (.link target) =>
          if rest.isEmpty && !follow then .reached (place ++ [name])
          else .linked place target rest
        | some _ => advance root follow (place ++ [name]) rest
    | _ => .refused .notDirectory

/-- Where a path starts. -/
def start (directory : List String) (path : String) : List String :=
  if Path.isAbsolute path then [] else directory

/-- Follows at most so many links. -/
def follow (t : Tree) (last : Bool) : (links : Nat) → List String → List String → Progress
  | 0, _, _ => .refused .tooManyLinks
  | links + 1, place, segments =>
    match advance t.root last place segments with
    | .linked directory target rest =>
      if target.isEmpty then .refused .notFound
      else follow t last links (start directory target) (Path.segments target ++ rest)
    | p => p

def linkLimit : Nat := 40

/-- Where a path leads; `last` tells whether a link at its end is followed. -/
def locate (t : Tree) (last : Bool) (path : String) : Progress :=
  if path.isEmpty then .refused .notFound
  else if Char.ofNat 0 ∈ path.toList then .refused .zeroByte
  else t.follow last (linkLimit + 1) (start t.here path) (Path.segments path)

def stat (t : Tree) (path : String) : Except FileProblem Node :=
  match t.locate true path with
  | .reached place =>
    match t.root.at? place with
    | some n => .ok n
    | none => .error .notFound
  | .missing .. => .error .notFound
  | .linked .. => .error .tooManyLinks
  | .refused problem => .error problem

def exists? (t : Tree) (path : String) : Bool := (t.stat path).isOk

def isFile (t : Tree) (path : String) : Bool :=
  match t.stat path with
  | .ok (.file _) => true
  | _ => false

def isDirectory (t : Tree) (path : String) : Bool :=
  match t.stat path with
  | .ok (.directory _) => true
  | _ => false

def read (t : Tree) (path : String) : Except FileProblem ByteArray :=
  match t.stat path with
  | .error problem => .error problem
  | .ok (.file content) => .ok content
  | .ok _ => .error .isDirectory

def readText (t : Tree) (path : String) : Except FileProblem String :=
  match t.read path with
  | .error problem => .error problem
  | .ok content =>
    match Text.ofUtf8? content with
    | none => .error .notText
    | some s => .ok s

/-- The directory that the settings and the cache of a root lie in: that of a single stream, or
the root itself. -/
def homeOf (t : Tree) (root : String) : String :=
  if t.isFile root then (Path.parent? root).getD "." else root

/-- The names in a directory, in order. -/
def list (t : Tree) (path : String) : Except FileProblem (List String) :=
  match t.stat path with
  | .error problem => .error problem
  | .ok (.directory entries) => .ok ((entries.map Prod.fst).mergeSort fun a b => decide (a ≤ b))
  | .ok _ => .error .notDirectory

end Tree
end IncludeAudit
