import Escape.Config
import Escape.Data

/-!
# Settings as data

Settings are a record. A setting that is left out has its balanced value; in a list of settings,
those at the end may be left out.
-/

namespace Escape

namespace Config

/-- The names of the settings. -/
def settingNames : List String :=
  ["max_graph_merges", "max_recursion_depth", "max_nodes", "model_container_semantics",
    "verify_graphs", "non_capturing_deinits"]

/-- The data as a record of settings. -/
def asSettings? : Data → Option Data
  | .record fields => some (.record fields)
  | .list items =>
    if items.length ≤ settingNames.length then some (.record (settingNames.zip items)) else none
  | _ => none

/-- The value of a setting, or `fallback` if it is left out. -/
def setting? {α : Type} [OfData α] (d : Data) (name : String) (fallback : α) : Option α :=
  match d.field? name with
  | some d => ofData? d
  | none => some fallback

/-- Changes the settings that a record gives. -/
def withSettings? (c : Config) (d : Data) : Option Config := do
  return {
    maxGraphMerges := ← setting? d "max_graph_merges" c.maxGraphMerges
    maxRecursionDepth := ← setting? d "max_recursion_depth" c.maxRecursionDepth
    maxNodes := ← setting? d "max_nodes" c.maxNodes
    modelContainers := ← setting? d "model_container_semantics" c.modelContainers
    verifyGraphs := ← setting? d "verify_graphs" c.verifyGraphs
    nonCapturingDeinits := ← setting? d "non_capturing_deinits" c.nonCapturingDeinits }

end Config

instance : ToData Config where
  toData c := .record [
    ("max_graph_merges", toData c.maxGraphMerges),
    ("max_recursion_depth", toData c.maxRecursionDepth),
    ("max_nodes", toData c.maxNodes),
    ("model_container_semantics", toData c.modelContainers),
    ("verify_graphs", toData c.verifyGraphs),
    ("non_capturing_deinits", toData c.nonCapturingDeinits)]

instance : OfData Config where
  ofData? d := do (default : Config).withSettings? (← Config.asSettings? d)

end Escape
