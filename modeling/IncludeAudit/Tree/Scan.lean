import IncludeAudit.Error
import IncludeAudit.Text.Affix
import IncludeAudit.Tree.Basic

/-!
# IncludeAudit.Tree.Scan

The event streams below a directory.

* `Node.streams`: the streams in a node. Directories of certain names are passed over, and links
  are not followed.
* `Tree.scan`: the streams below a path, ordered by the parts of their paths. A file is the only
  stream below itself, whatever its name.
-/

namespace IncludeAudit

/-- The end of the name of an event stream. -/
def streamSuffix : String := ".events.jsonl"

def passedOver : List String := ["target", ".git", ".deadinc", "node_modules"]

namespace Node

mutual

/-- Rows of names that lead from the node to its streams. -/
def streams (excluded : List String) : Node → List (List String)
  | directory entries => entryStreams excluded entries
  | _ => []

def entryStreams (excluded : List String) : List (String × Node) → List (List String)
  | [] => []
  | (name, n) :: rest =>
    let own : List (List String) :=
      match n with
      | file _ => if Text.endsWith name streamSuffix then [[name]] else []
      | link _ => []
      | directory _ => if name ∈ excluded then [] else (streams excluded n).map (name :: ·)
    own ++ entryStreams excluded rest

end

end Node

namespace Tree

/-- Why a directory cannot be searched. -/
def searchFailure (root : String) (problem : FileProblem) : Failure :=
  { layers :=
      ["Failed to gather event files from " ++ root,
        "IO error for operation on " ++ root ++ ": " ++ problem.text, problem.text] }

def scan (t : Tree) (root : String) (exclusions : List String) : Except Failure (List String) :=
  match t.stat root with
  | .error problem => .error (searchFailure root problem)
  | .ok (.file _) => .ok [root]
  | .ok n =>
    .ok (((n.streams (passedOver ++ exclusions)).map fun names =>
      names.foldl Path.join root).mergeSort Path.le)

end Tree
end IncludeAudit
