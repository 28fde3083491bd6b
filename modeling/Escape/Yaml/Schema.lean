import Escape.Yaml.Node

/-!
# Values of YAML nodes

What nodes stand for where a value of some type is expected. A plain scalar may be null, a boolean
or a number; a scalar that is written in another way is a text, and where a text is expected every
scalar is one. Main definitions:

* `Node.text?`, `Node.bool?`, `Node.nat?`: values of scalars;
* `Node.optional?`: nothing, or a value;
* `Node.items?`, `Node.fields?`: the parts of a collection.
-/

namespace Escape.Yaml

/-! ## Scalars -/

/-- Whether a text is null. -/
def isNull (s : String) : Bool := s = "null" || s = "Null" || s = "NULL" || s = "~"

/-- The boolean that a text is. -/
def boolOf? (s : String) : Option Bool :=
  if s = "true" || s = "True" || s = "TRUE" then some true
  else if s = "false" || s = "False" || s = "FALSE" then some false
  else none

/-- Reads digits of the given base. There has to be one at least. -/
def digits? (base : Nat) (cs : List Char) : Option Nat := do
  if cs.isEmpty then none
  let values ← cs.mapM hexValue?
  if values.all (· < base) then return values.foldl (fun n d => base * n + d) 0 else none

/-- The natural number that a text is: decimal, or with `0x`, `0o` or `0b` in another base, and
possibly with a plus sign. Several decimal digits do not start with a zero. -/
def natOf? (s : String) : Option Nat :=
  let cs := match s.toList with
    | '+' :: cs => cs
    | cs => cs
  match cs with
  | '0' :: 'x' :: ds => digits? 16 ds
  | '0' :: 'o' :: ds => digits? 8 ds
  | '0' :: 'b' :: ds => digits? 2 ds
  | '0' :: _ :: _ => none
  | ds => digits? 10 ds

/-- The tag of a standard type. -/
def standardTag (name : String) : String := "tag:yaml.org,2002:" ++ name

namespace Node

/-- The text of a scalar. -/
def text? : Node → Option String
  | scalar _ _ text => some text
  | _ => none

/-- The text of a scalar that may be a boolean or a number: it is plain, or a literal block with the
tag of the type. -/
def untyped? (tag : String) : Node → Option String
  | scalar _ .plain text => some text
  | scalar (some t) .literal text => if t = standardTag tag then some text else none
  | _ => none

/-- The boolean that a node is. -/
def bool? (n : Node) : Option Bool := n.untyped? "bool" >>= boolOf?

/-- The natural number below `bound` that a node is. -/
def nat? (bound : Nat) (n : Node) : Option Nat := do
  let k ← n.untyped? "int" >>= natOf?
  if k < bound then return k else none

/-- Nothing, if the node is null or not written, and otherwise a value. A plain scalar with the tag
of null has to be null, and with any other tag it is not. -/
def optional? {α : Type} (read : Node → Option α) (n : Node) : Option (Option α) :=
  match n with
  | scalar none .plain text =>
    if text.isEmpty || isNull text then some none else some <$> read n
  | scalar (some tag) .plain text =>
    if tag = standardTag "null" then if isNull text then some none else none
    else some <$> read n
  | _ => some <$> read n

/-- Whether nothing is written. -/
def isBlank : Node → Bool
  | scalar _ .plain text => text.isEmpty
  | _ => false

/-- The items of a list; none if nothing is written. -/
def items? : Node → Option (List Node)
  | list items => some items
  | n => if n.isBlank then some [] else none

/-- The entries of a mapping with the given keys, each of which stands at most once; none if nothing
is written. -/
def fields? (names : List String) (n : Node) : Option (List (String × Node)) := do
  match n with
  | mapping entries =>
    let fields ← entries.mapM fun (k, v) => return (← k.text?, v)
    let keys := fields.map (·.1)
    if keys.all (· ∈ names) && keys.eraseDups.length = keys.length then return fields else none
  | n => if n.isBlank then return [] else none

end Node

end Escape.Yaml
