import Std.Data.ExtTreeSet
import Traceability.Graph.Basic
import Traceability.Json.Reader

/-! Version-control state that is computed elsewhere and handed in as lists of paths. -/

namespace Traceability

structure ChangeSummary where
  modified : Std.ExtTreeSet String := ∅
  untracked : Std.ExtTreeSet String := ∅
  branchChanged : Std.ExtTreeSet String := ∅

namespace ChangeSummary

/-- A path without one leading mention of the current directory. -/
def normalize (path : String) : String :=
  match path.toList with
  | '.' :: '/' :: rest => String.ofList rest
  | _ => path

/-- The flags of a file. -/
def flagsFor (summary : ChangeSummary) (path : String) : ChangeFlags :=
  let path := normalize path
  { modified := summary.modified.contains path
    untracked := summary.untracked.contains path
    branchChanged := summary.branchChanged.contains path }

def isEmpty (summary : ChangeSummary) : Bool :=
  summary.modified.isEmpty && summary.untracked.isEmpty && summary.branchChanged.isEmpty

/-- The text of a string that has one. -/
def text? : Json → Option String
  | .string text => text
  | _ => none

/-- A set of paths. -/
def paths? : Json → Option (Std.ExtTreeSet String)
  | .array items => (items.mapM text?).map (fun paths => Std.ExtTreeSet.ofList paths)
  | _ => none

/-- The set under a key, which may be absent but not repeated. -/
def member? (members : List (Option String × Json)) (key : String)
    : Option (Std.ExtTreeSet String) :=
  match members.filter (fun (name, _) => name == some key) with
  | [] => some ∅
  | [(_, value)] => paths? value
  | _ => none

/-- The set at a position, which may be past the end. -/
def item? (items : List Json) (position : Nat) : Option (Std.ExtTreeSet String) :=
  match items[position]? with
  | none => some ∅
  | some value => paths? value

/-- A summary as an object, or as an array of its sets by position. Other keys of an object are
passed over. -/
def ofJson? : Json → Option ChangeSummary
  | .object members => do
      if members.any (fun (name, _) => name.isNone) then none
      return {
        modified := ← member? members "modified"
        untracked := ← member? members "untracked"
        branchChanged := ← member? members "branch_changed" }
  | .array items => do
      if 3 < items.length then none
      return {
        modified := ← item? items 0
        untracked := ← item? items 1
        branchChanged := ← item? items 2 }
  | _ => none

def ofText? (text : String) : Option ChangeSummary :=
  (Json.ofText? text).bind ofJson?

end ChangeSummary

/-- Records the flags of every node whose file has some change. -/
def Graph.recordChanges (graph : Graph) (summary : ChangeSummary) : Graph :=
  graph.nodeList.foldl
    (fun graph node =>
      let flags := summary.flagsFor node.source.path
      if flags.any then
        graph.updateMetrics node.id (fun metrics => { metrics with changes := flags })
      else graph)
    graph

end Traceability
