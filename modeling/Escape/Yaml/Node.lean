import Escape.AssocMap
import Escape.Yaml.Token

/-!
# Documents of YAML

A document is a tree of scalars, lists and mappings. Names of anchors are resolved while the tree is
built, so an alias is the node it stands for. Main definitions:

* `Node`;
* `Node.parse?`: the only document of a text.
-/

namespace Escape.Yaml

/-- A node of a document. -/
inductive Node where
  /-- A scalar, with its tag if it has one. -/
  | scalar (tag : Option String) (style : Style) (text : String)
  | list (items : List Node)
  | mapping (entries : List (Node × Node))
deriving Inhabited

namespace Node

/-- What stands where nothing is written. -/
def empty : Node := scalar none .plain ""

/-- The state of building a tree. -/
structure Builder where
  /-- The tokens that are left. -/
  tokens : List Token
  /-- The nodes that have an anchor. -/
  anchors : AssocMap String Node := {}
  /-- What the handles of tags stand for. -/
  handles : AssocMap String String := {}

/-- A step of building a tree, which fails if the tokens are out of order. -/
abbrev Build := StateT Builder Option

namespace Build

/-- The next token. -/
def peek : Build (Option Token) := return (← get).tokens.head?

/-- Skips the next token. -/
def next : Build Unit := modify fun b => { b with tokens := b.tokens.tail }

/-- Whether the next token is one of the given ones. -/
def at? (ts : List Token) : Build Bool := return (← peek).any (· ∈ ts)

/-- Skips the next token if it is the given one, and tells whether it is. -/
def accept (t : Token) : Build Bool := do
  if ← at? [t] then next; return true else return false

/-- Skips the next token, which has to be the given one. -/
def expect (t : Token) : Build Unit := do if !(← accept t) then failure

/-- What a tag stands for. The handle has to be declared, or one of the two that always are. -/
def resolveTag (handle suffix : String) : Build String := do
  if handle.isEmpty then return suffix
  match (← get).handles.find? handle, handle with
  | some lead, _ => return lead ++ suffix
  | none, "!" => return "!" ++ suffix
  | none, "!!" => return "tag:yaml.org,2002:" ++ suffix
  | none, _ => failure

/-- The anchor and the tag before a node, in either order and each at most once. -/
def properties : Build (Option String × Option String) := do
  match ← peek with
  | some (.anchor name) =>
    next
    match ← peek with
    | some (.tag handle suffix) =>
      next
      return (some name, some (← resolveTag handle suffix))
    | _ => return (some name, none)
  | some (.tag handle suffix) =>
    next
    match ← peek with
    | some (.anchor name) =>
      next
      return (some name, some (← resolveTag handle suffix))
    | _ => return (none, some (← resolveTag handle suffix))
  | _ => return (none, none)

/-- Forgets an anchor that is about to be set anew. -/
def dropAnchor (name : Option String) : Build Unit :=
  modify fun b => { b with anchors := (name.map b.anchors.erase).getD b.anchors }

/-- Gives a node its anchor. -/
def setAnchor (name : Option String) (n : Node) : Build Node := do
  modify fun b => { b with anchors := (name.map (b.anchors.insert · n)).getD b.anchors }
  return n

mutual

/-- Reads a node. In a block, block collections may follow; as a key or value of a block mapping,
the items of a list need not be indented. -/
def node (block indentless : Bool) : (bound : Nat) → Build Node
  | 0 => failure
  | bound + 1 => do
    if let some (.alias name) := ← peek then
      next
      match (← get).anchors.find? name with
      | some n => return n
      | none => failure
    let (anchor, tag) ← properties
    dropAnchor anchor
    let n ← match ← peek, block, indentless with
      | some .item, _, true => list <$> looseItems bound
      | some (.scalar style text), _, _ => do
        next
        pure (scalar tag style text)
      | some .flowListStart, _, _ => do
        next
        list <$> flowItems true bound
      | some .flowMapStart, _, _ => do
        next
        mapping <$> flowEntries true bound
      | some .blockListStart, true, _ => do
        next
        list <$> blockItems bound
      | some .blockMapStart, true, _ => do
        next
        mapping <$> blockEntries bound
      | _, _, _ =>
        if anchor.isSome || tag.isSome then pure (scalar tag .plain "") else failure
    setAnchor anchor n

/-- Reads a node, or nothing where one of the given tokens follows. -/
def nodeBefore (ends : List Token) (block indentless : Bool) : (bound : Nat) → Build Node
  | 0 => failure
  | bound + 1 => do
    if ← at? ends then return empty else node block indentless bound

/-- Reads the items of a block list up to its end. -/
def blockItems : (bound : Nat) → Build (List Node)
  | 0 => failure
  | bound + 1 => do
    if ← accept .item then
      let n ← nodeBefore [.item, .blockEnd] true false bound
      return n :: (← blockItems bound)
    else
      expect .blockEnd
      return []

/-- Reads the items of a list that is not indented. -/
def looseItems : (bound : Nat) → Build (List Node)
  | 0 => failure
  | bound + 1 => do
    if ← accept .item then
      let n ← nodeBefore [.item, .key, .value, .blockEnd] true false bound
      return n :: (← looseItems bound)
    else return []

/-- Reads the entries of a block mapping up to its end. -/
def blockEntries : (bound : Nat) → Build (List (Node × Node))
  | 0 => failure
  | bound + 1 => do
    let ends := [Token.key, .value, .blockEnd]
    if ← accept .blockEnd then return []
    expect .key
    let k ← nodeBefore ends true true bound
    let v ← if ← accept .value then nodeBefore ends true true bound else pure empty
    return (k, v) :: (← blockEntries bound)

/-- Reads the items of a flow list up to its end. An item may be a single entry of a mapping. -/
def flowItems (first : Bool) : (bound : Nat) → Build (List Node)
  | 0 => failure
  | bound + 1 => do
    if ← accept .flowListEnd then return []
    if !first then
      expect .comma
      if ← accept .flowListEnd then return []
    let ends := [Token.value, .comma, .flowListEnd]
    let n ← if ← accept .key then do
        let k ← nodeBefore ends false false bound
        let v ← if ← accept .value then nodeBefore ends false false bound else pure empty
        pure (mapping [(k, v)])
      else node false false bound
    return n :: (← flowItems false bound)

/-- Reads the entries of a flow mapping up to its end. A value may be left out. -/
def flowEntries (first : Bool) : (bound : Nat) → Build (List (Node × Node))
  | 0 => failure
  | bound + 1 => do
    if ← accept .flowMapEnd then return []
    if !first then
      expect .comma
      if ← accept .flowMapEnd then return []
    let ends := [Token.value, .comma, .flowMapEnd]
    let (k, v) ← if ← accept .key then do
        let k ← nodeBefore ends false false bound
        let v ← if ← accept .value then nodeBefore [.comma, .flowMapEnd] false false bound
          else pure empty
        pure (k, v)
      else do
        pure (← node false false bound, empty)
    return (k, v) :: (← flowEntries false bound)

end

/-- Reads directives. The version has to be 1.1 or 1.2, and nothing is declared twice. Tells whether
there are any. -/
def directives : (bound : Nat) → (versioned : Bool) → Build Bool
  | 0, _ => failure
  | bound + 1, versioned => do
    match ← peek with
    | some (.version major minor) =>
      if versioned || major ≠ 1 || (minor ≠ 1 && minor ≠ 2) then failure
      next
      discard (directives bound true)
      return true
    | some (.tagHandle handle lead) =>
      if (← get).handles.contains handle then failure
      modify fun b => { b with handles := b.handles.insert handle lead }
      next
      discard (directives bound versioned)
      return true
    | _ => return false

/-- Whether a document ends before the next token. -/
def atDocumentEnd : Build Bool := do
  match ← peek with
  | none | some (.version ..) | some (.tagHandle ..) | some .documentStart | some .documentEnd =>
    return true
  | _ => return false

/-- Reads the only document. -/
def document (bound : Nat) : Build Node := do
  let declared ← directives bound false
  let n ← if ← accept .documentStart then
      if ← atDocumentEnd then pure empty else node true false bound
    else if declared then failure
    else node true false bound
  modify fun b => { b with tokens := b.tokens.dropWhile (· = .documentEnd) }
  if !(← get).tokens.isEmpty then failure
  return n

end Build

/-- The only document of a text. Each token is looked at by at most three steps of the builder. -/
def parse? (text : String) : Option Node := do
  let tokens ← Token.ofText? text
  let (n, _) ← (Build.document (3 * tokens.length + 3)).run { tokens }
  return n

end Node

end Escape.Yaml
