import Escape.Yaml.Schema

/-!
# Writing texts in YAML

A text is written in the simplest way in which it reads back as the same text: plain, in single
quotes, as a literal block if it has several lines, and in double quotes with escapes if nothing
else will do. Main definitions:

* `Layout.of`: what a text holds that matters for the choice;
* `choose`: the choice;
* `writeText`: a text as an item of a block list.
-/

namespace Escape.Yaml

/-! ## What a text holds -/

/-- Whether a character is written as it is. -/
def isPrintable (c : Char) : Bool :=
  let n := c.toNat
  n = 0xA || (0x20 ≤ n && n ≤ 0x7E) || (0xA0 ≤ n && n ≤ 0xD7FF)
    || (0xE000 ≤ n && n ≤ 0xFFFD && n ≠ 0xFEFF) || 0x10000 ≤ n

/-- Whether a text could be taken for something else than a text: null, a boolean or a number, also
by older rules. -/
def isAmbiguous (s : String) : Bool :=
  let s := s.toLower
  isNull s || (boolOf? s).isSome || s ∈ ["", "y", "yes", "n", "no", "on", "off"]
    || s.toList.head?.any fun c => c.isDigit || c = '-' || c = '.' || c = '+'

/-- Whether an indicator forbids to write a text plainly in a block: one that starts the text, a
colon before a blank, or a number sign after one. -/
def hasIndicator (cs : List Char) : Bool :=
  let first := match cs with
    | c :: rest =>
      c ∈ "#,[]\x7b\x7d&*!|>\x27\x22%@\x60".toList
        || ((c = '?' || c = ':' || c = '-') && startsBlank rest)
    | [] => false
  let marked := match cs with
    | '-' :: '-' :: '-' :: _ | '.' :: '.' :: '.' :: _ => true
    | _ => false
  first || marked || inside cs
where
  /-- Whether an indicator stands further inside. -/
  inside : List Char → Bool
    | c :: d :: rest =>
      (d = ':' && startsBlank rest) || (d = '#' && (isBlank c || isBreak c)) || inside (d :: rest)
    | _ => false

/-- Whether the first character of a text is followed at once by the second, anywhere in it. -/
def hasPair (first second : Char → Bool) : List Char → Bool
  | c :: d :: rest => (first c && second d) || hasPair first second (d :: rest)
  | _ => false

/-- What a text holds that matters for the choice of a style. -/
structure Layout where
  /-- Whether there is a line break. -/
  multiline : Bool
  /-- Whether the text may be written plainly. -/
  plain : Bool
  /-- Whether the text may be written in single quotes. -/
  single : Bool
  /-- Whether the text may be written as a block. -/
  block : Bool

/-- Examines a text. -/
def Layout.of (cs : List Char) : Layout :=
  let isSpace := fun c => c = ' '
  let multiline := cs.any isBreak
  let special := !cs.all isPrintable
  let spaceBreak := hasPair isSpace isBreak cs
  let breakSpace := hasPair isBreak isSpace cs
  let edge := cs.head?.any isSpace || cs.getLast?.any isSpace
  { multiline
    plain := !(multiline || edge || special || hasIndicator cs)
    single := !(special || spaceBreak || breakSpace)
    block := !(cs.getLast?.any isSpace || special || spaceBreak) }

/-! ## Styles -/

/-- How a text is written. -/
inductive Quoting where
  | plain
  | single
  | double
  | block
deriving DecidableEq

/-- The style of a text. A text with line feeds becomes a block, if that is possible. -/
def choose (s : String) : Quoting :=
  let cs := s.toList
  let layout := Layout.of cs
  if '\n' ∈ cs then if layout.block then .block else .double
  else if !isAmbiguous s && layout.plain then .plain
  else if layout.single then .single
  else .double

/-! ## Written texts -/

/-- The last `count` hexadecimal digits of a number. -/
def hexDigits (count n : Nat) : List Char :=
  (List.range count).reverse.map fun i => (Nat.digitChar (n >>> (4 * i) % 16)).toUpper

/-- A character in double quotes. -/
def escapeChar (c : Char) : List Char :=
  if isPrintable c && !isBreak c && c ≠ '\x22' && c ≠ '\\' then [c]
  else '\\' :: match c with
    | '\x00' => ['0']
    | '\x07' => ['a']
    | '\x08' => ['b']
    | '\t' => ['t']
    | '\n' => ['n']
    | '\x0b' => ['v']
    | '\x0c' => ['f']
    | '\r' => ['r']
    | '\x1b' => ['e']
    | '\x22' => ['\x22']
    | '\\' => ['\\']
    | '\u0085' => ['N']
    | '\u2028' => ['L']
    | '\u2029' => ['P']
    | c =>
      if c.toNat ≤ 0xFF then 'x' :: hexDigits 2 c.toNat
      else if c.toNat ≤ 0xFFFF then 'u' :: hexDigits 4 c.toNat
      else 'U' :: hexDigits 8 c.toNat

/-- Indents what follows a line break. -/
def indentAfter (indent : Nat) (afterBreak : Bool) : List Char :=
  if afterBreak then List.replicate indent ' ' else []

/-- The inside of single quotes. A quote is written twice, and lines are indented. -/
def singleQuoted (indent : Nat) : (afterBreak : Bool) → List Char → List Char
  | afterBreak, [] => indentAfter indent afterBreak
  | afterBreak, c :: rest =>
    if isBreak c then c :: singleQuoted indent true rest
    else indentAfter indent afterBreak
      ++ (if c = '\x27' then ['\x27', '\x27'] else [c]) ++ singleQuoted indent false rest

/-- The lines of a block, each of them indented. -/
def blockLines (indent : Nat) : (afterBreak : Bool) → List Char → List Char
  | _, [] => []
  | afterBreak, c :: rest =>
    if isBreak c then c :: blockLines indent true rest
    else indentAfter indent afterBreak ++ c :: blockLines indent false rest

/-- The header of a block: its indentation if the text starts with white space, and how the line
breaks at its end are read. -/
def blockHints (step : Nat) (cs : List Char) : String :=
  let indent := if cs.head?.any fun c => c = ' ' || isBreak c then toString step else ""
  let chomping := match cs.reverse with
    | c :: rest =>
      if !isBreak c then "-"
      else match rest with
        | [] => "+"
        | d :: _ => if isBreak d then "+" else ""
    | [] => "-"
  indent ++ chomping

/-- A text as the item of a block list, with the line break after it. Further lines are indented by
`indent` columns, which is `step` more than the list. -/
def writeText (step indent : Nat) (s : String) : String :=
  let cs := s.toList
  match choose s with
  | .plain => s ++ "\n"
  | .single => "\x27" ++ String.ofList (singleQuoted indent false cs) ++ "\x27\n"
  | .double => "\x22" ++ String.ofList (cs.flatMap escapeChar) ++ "\x22\n"
  | .block =>
    let body := blockLines indent true cs
    "|" ++ blockHints step cs ++ "\n" ++ String.ofList body
      ++ (if body.getLast?.any isBreak then "" else "\n")

end Escape.Yaml
