import IncludeAudit.Tree.Basic

/-!
# IncludeAudit.Tree.Change

Changes to a tree.

* `Tree.write`: a file with new content, made where it is missing.
* `Tree.createDirectories`: a directory with all that are missing above it.
* `Tree.rename`: a file under another name, in place of what had that name.
* `Tree.removeFile`: a file or a link taken away.
-/

namespace IncludeAudit

namespace Node

/-- The entries with the one of this name replaced, made or, for `none`, taken away. -/
def setEntry (name : String) (n? : Option Node) : List (String × Node) → List (String × Node)
  | [] => n?.toList.map fun n => (name, n)
  | (key, n) :: rest =>
    if key = name then
      match n? with
      | none => setEntry name none rest
      | some n => (name, n) :: rest
    else (key, n) :: setEntry name n? rest

/-- The tree below `n` with what stands at the end of the names changed. -/
def set (n : Node) (n? : Option Node) : List String → Node
  | [] => n?.getD n
  | [name] =>
    match n with
    | directory entries => directory (setEntry name n? entries)
    | n => n
  | name :: next :: rest =>
    match n with
    | directory entries =>
      match child? name entries with
      | none => directory entries
      | some below => directory (setEntry name (some (below.set n? (next :: rest))) entries)
    | n => n

end Node

namespace Tree

def put (t : Tree) (place : List String) (n? : Option Node) : Tree :=
  { t with root := t.root.set n? place }

def write (t : Tree) (path : String) (content : ByteArray) : Except FileProblem Tree :=
  match t.locate true path with
  | .reached place =>
    match t.root.at? place with
    | some (.file _) => .ok (t.put place (some (.file content)))
    | _ => .error .isDirectory
  | .missing directory name [] => .ok (t.put (directory ++ [name]) (some (.file content)))
  | .missing _ _ rest =>
    .error (if rest.all (· = "") then .isDirectory else .notFound)
  | .linked .. => .error .tooManyLinks
  | .refused problem => .error problem

/-- A directory that was not there, in one that is. -/
def createDirectory (t : Tree) (path : String) : Except FileProblem Tree :=
  match t.locate false path with
  | .reached _ => .error .alreadyExists
  | .missing directory name rest =>
    if rest.all Path.isSilent then .ok (t.put (directory ++ [name]) (some (.directory [])))
    else .error .notFound
  | .linked .. => .error .alreadyExists
  | .refused problem => .error problem

def createUnlessThere (t : Tree) (path : String) : Except FileProblem Tree :=
  match t.createDirectory path with
  | .ok t => .ok t
  | .error problem => if t.isDirectory path then .ok t else .error problem

/-- A path has at most so many parents. -/
def createFrom (t : Tree) : (fuel : Nat) → (path : String) → Except FileProblem Tree
  | 0, _ => .error .notFound
  | fuel + 1, path =>
    if path.isEmpty then .ok t
    else
      match t.createDirectory path with
      | .ok t => .ok t
      | .error .notFound =>
        match Path.parent? path with
        | none => .error .notFound
        | some above => do
          let t ← createFrom t fuel above
          t.createUnlessThere path
      | .error problem => if t.isDirectory path then .ok t else .error problem

def createDirectories (t : Tree) (path : String) : Except FileProblem Tree :=
  t.createFrom (path.length + 1) path

def removeFile (t : Tree) (path : String) : Except FileProblem Tree :=
  match t.locate false path with
  | .reached place =>
    match t.root.at? place with
    | some (.directory _) => .error .isDirectory
    | _ => .ok (t.put place none)
  | .missing .. => .error .notFound
  | .linked .. => .error .tooManyLinks
  | .refused problem => .error problem

/-- What the first path names is a file; it takes the place of a file or a link only. -/
def rename (t : Tree) (source target : String) : Except FileProblem Tree :=
  match t.locate false source, t.locate false target with
  | .reached a, .reached b =>
    match t.root.at? a, t.root.at? b with
    | _, some (.directory _) => .error .isDirectory
    | some n, _ => .ok ((t.put a none).put b (some n))
    | none, _ => .error .notFound
  | .reached a, .missing directory name [] =>
    match t.root.at? a with
    | some n => .ok ((t.put a none).put (directory ++ [name]) (some n))
    | none => .error .notFound
  | .refused problem, _ | _, .refused problem => .error problem
  | _, _ => .error .notFound

/-- Takes away a directory with all that is in it, or anything else. -/
def remove (t : Tree) (path : String) : Tree :=
  match t.locate false path with
  | .reached place => if place.isEmpty then t else t.put place none
  | _ => t

def symlink (t : Tree) (path target : String) : Except FileProblem Tree :=
  match t.locate false path with
  | .missing directory name [] => .ok (t.put (directory ++ [name]) (some (.link target)))
  | .missing .. => .error .notFound
  | .reached _ | .linked .. => .error .alreadyExists
  | .refused problem => .error problem

end Tree
end IncludeAudit
