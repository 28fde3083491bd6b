import Escape.Config
import Escape.Yaml.Quote

/-!
# Configuration files

Settings are kept in YAML: the version of the format, the name of a preset, and single settings that
override the preset, such as

    version: 1
    preset: fast
    overrides:
      max_nodes: 4096
      non_capturing_deinits: [Array, Dictionary]

Main definitions:

* `Config.parse`: reads and checks settings;
* `Config.render`: writes all settings as overrides.
-/

namespace Escape.Config

/-- The version of the format. -/
def fileVersion : Nat := 1

/-- Single settings that override a preset. -/
structure Overrides where
  maxGraphMerges : Option Nat := none
  maxRecursionDepth : Option Nat := none
  maxNodes : Option Nat := none
  modelContainers : Option Bool := none
  verifyGraphs : Option Bool := none
  nonCapturingDeinits : Option (List String) := none
deriving DecidableEq, Inhabited

/-- Replaces the settings that are overridden. -/
def override (c : Config) (o : Overrides) : Config where
  maxGraphMerges := o.maxGraphMerges.getD c.maxGraphMerges
  maxRecursionDepth := o.maxRecursionDepth.getD c.maxRecursionDepth
  maxNodes := o.maxNodes.getD c.maxNodes
  modelContainers := o.modelContainers.getD c.modelContainers
  verifyGraphs := o.verifyGraphs.getD c.verifyGraphs
  nonCapturingDeinits := o.nonCapturingDeinits.getD c.nonCapturingDeinits

/-- What a configuration file says. -/
structure File where
  version : Nat
  preset : Option String := none
  overrides : Option Overrides := none
deriving DecidableEq

/-! ## Reading -/

/-- An optional field of a mapping. -/
def optionalField {α : Type} (fields : List (String × Yaml.Node))
    (read : Yaml.Node → Option α) (name : String) : Option (Option α) :=
  match fields.lookup name with
  | some n => n.optional? read
  | none => some none

/-- Reads overrides. Numbers have 64 bits. -/
def Overrides.ofNode? (n : Yaml.Node) : Option Overrides := do
  let fields ← n.fields? ["max_graph_merges", "max_recursion_depth", "max_nodes",
    "model_container_semantics", "verify_graphs", "non_capturing_deinits"]
  let number := optionalField fields (Yaml.Node.nat? UInt64.size)
  let switch := optionalField fields Yaml.Node.bool?
  let names := fun (n : Yaml.Node) => do (← n.items?).mapM Yaml.Node.text?
  return {
    maxGraphMerges := ← number "max_graph_merges"
    maxRecursionDepth := ← number "max_recursion_depth"
    maxNodes := ← number "max_nodes"
    modelContainers := ← switch "model_container_semantics"
    verifyGraphs := ← switch "verify_graphs"
    nonCapturingDeinits := ← optionalField fields names "non_capturing_deinits" }

/-- Reads a file. The version has 32 bits and is not optional. -/
def File.ofNode? (n : Yaml.Node) : Option File := do
  let fields ← n.fields? ["version", "preset", "overrides"]
  return {
    version := ← (← fields.lookup "version").nat? UInt32.size
    preset := ← optionalField fields Yaml.Node.text? "preset"
    overrides := ← optionalField fields Overrides.ofNode? "overrides" }

/-- The settings that a file describes. Its version is looked at first, then its preset, and the
settings are checked at the end. -/
def ofFile (f : File) : Except ConfigError Config := do
  if f.version ≠ fileVersion then throw (.unsupportedVersion f.version)
  let preset ← match f.preset with
    | none => pure Preset.balanced
    | some name =>
      match Preset.parse? name with
      | some p => pure p
      | none => throw (.unknownPreset name)
  let c := preset.config.override (f.overrides.getD {})
  c.validate
  return c

/-- Reads settings from the text of a file. -/
def parse (text : String) : Except ConfigError Config :=
  match Yaml.Node.parse? text >>= File.ofNode? with
  | some f => ofFile f
  | none => throw .yaml

/-! ## Writing -/

/-- The names of classes as a block list, or as an empty flow list. -/
def renderNames : List String → String
  | [] => " []\n"
  | names => "\n" ++ String.join (names.map fun name => "  - " ++ Yaml.writeText 2 4 name)

/-- Writes settings as a file. -/
def render (c : Config) : String :=
  let flag := fun b => if b then "true" else "false"
  "version: " ++ toString fileVersion ++ "\n"
    ++ "overrides:\n"
    ++ "  max_graph_merges: " ++ toString c.maxGraphMerges ++ "\n"
    ++ "  max_recursion_depth: " ++ toString c.maxRecursionDepth ++ "\n"
    ++ "  max_nodes: " ++ toString c.maxNodes ++ "\n"
    ++ "  model_container_semantics: " ++ flag c.modelContainers ++ "\n"
    ++ "  verify_graphs: " ++ flag c.verifyGraphs ++ "\n"
    ++ "  non_capturing_deinits:" ++ renderNames c.nonCapturingDeinits

end Escape.Config
