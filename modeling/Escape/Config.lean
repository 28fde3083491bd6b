/-!
# Configuration

The limits and switches of the analysis, three presets for them, and the ranges they have to stay
in.
-/

namespace Escape

/-- The settings of the analysis. -/
structure Config where
  /-- How often summaries are merged into callers before the callers are finished conservatively. -/
  maxGraphMerges : Nat
  /-- How deep calls are followed when graphs are built. -/
  maxRecursionDepth : Nat
  /-- How many nodes a graph may have before it is given up. -/
  maxNodes : Nat
  /-- Whether container operations are modelled by their known meaning. -/
  modelContainers : Bool
  /-- Whether finished graphs are checked. -/
  verifyGraphs : Bool
  /-- Classes whose destructors only release their fields. -/
  nonCapturingDeinits : List String
deriving DecidableEq

/-- A named set of settings. -/
inductive Preset where
  | fast
  | balanced
  | thorough
deriving DecidableEq

namespace Preset

/-- The name of a preset. -/
def name : Preset → String
  | fast => "fast"
  | balanced => "balanced"
  | thorough => "thorough"

/-- All presets. -/
def all : List Preset := [fast, balanced, thorough]

/-- The preset of the given name, in any case. The names are of ASCII letters, and no other
character has one of these as its lower case. -/
def parse? (name : String) : Option Preset := all.find? (·.name = name.toLower)

/-- The settings of a preset. -/
def config (p : Preset) : Config :=
  let (merges, depth, nodes) : Nat × Nat × Nat := match p with
    | fast => (2, 1, 2000)
    | balanced => (4, 3, 10000)
    | thorough => (16, 8, 100000)
  { maxGraphMerges := merges
    maxRecursionDepth := depth
    maxNodes := nodes
    modelContainers := true
    verifyGraphs := true
    nonCapturingDeinits := ["Array", "ContiguousArrayStorage"] }

end Preset

instance : Inhabited Config := ⟨Preset.balanced.config⟩

/-- Why a configuration is not accepted, or not read. -/
inductive ConfigError where
  /-- A number is out of its range. -/
  | range (field : String) (value min max : Nat) (hint : String)
  /-- The text is written for another version. -/
  | unsupportedVersion (found : Nat)
  | unknownPreset (name : String)
  /-- The text could not be read from its file. -/
  | io
  /-- The text is not a configuration in YAML. -/
  | yaml
  | validation (reason : String)
deriving DecidableEq

/-- The text that reports the error. Errors in reading a text are reported without detail. -/
def ConfigError.message? : ConfigError → Option String
  | range field value min max hint =>
    some ("Invalid range for field '" ++ field ++ "': " ++ toString value ++ " not in "
      ++ toString min ++ "..=" ++ toString max ++ ". " ++ hint)
  | unsupportedVersion found =>
    some ("Unsupported configuration version " ++ toString found ++ ". Supported versions: 1")
  | unknownPreset name =>
    some ("Unknown preset '" ++ name ++ "'. Valid presets: fast, balanced, thorough")
  | io | yaml => none
  | validation reason => some ("Validation error: " ++ reason)

namespace Config

/-- Stops unless `value` lies between `min` and `max`. -/
def checkRange (field : String) (value min max : Nat) (hint : String) : Except ConfigError Unit :=
  if min ≤ value ∧ value ≤ max then .ok () else .error (.range field value min max hint)

/-- Whether a character is blank: the characters with the Unicode property `White_Space`. -/
def isBlank (c : Char) : Bool :=
  let n := c.toNat
  (9 ≤ n && n ≤ 13) || n = 0x20 || n = 0x85 || n = 0xA0 || n = 0x1680 || (0x2000 ≤ n && n ≤ 0x200A)
    || n = 0x2028 || n = 0x2029 || n = 0x202F || n = 0x205F || n = 0x3000

/-- Stops at the first setting that is out of its range, and at class names that are blank. -/
def validate (c : Config) : Except ConfigError Unit := do
  checkRange "max_graph_merges" c.maxGraphMerges 1 64
    "At least one interprocedural iteration is required"
  checkRange "max_recursion_depth" c.maxRecursionDepth 0 32
    "Callee and destructor build depth must stay small"
  checkRange "max_nodes" c.maxNodes 16 1000000 "Graphs need room for a handful of nodes"
  if c.nonCapturingDeinits.any (·.toList.all isBlank) then
    throw (.validation "non_capturing_deinits must not contain empty class names")

end Config

end Escape
