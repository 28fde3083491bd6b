import Escape.Yaml.Cursor

/-!
# Scalars in a YAML text

How the four ways to write a scalar are read: plain, in single or double quotes, and as a block of
lines. Main definitions: `plain?`, `quoted?` and `block?`, each of which reads the scalar at a
cursor.
-/

namespace Escape.Yaml

/-- How a scalar is written. -/
inductive Style where
  | plain
  | quoted
  | literal
  | folded
deriving DecidableEq, Inhabited

open Cursor

/-! ## Plain scalars -/

/-- Reads the part of a plain scalar up to the next blank. In a flow collection it also ends at the
indicators of the collection. -/
def plainRun? (flow : Bool) : List Char → Option (List Char × List Char)
  | [] => some ([], [])
  | c :: rest =>
    let follows := rest.head?.any fun d => isFlowIndicator d || d = '?'
    if isBlank c || isBreak c then some ([], c :: rest)
    else if flow && c = ':' && follows then none
    else if (c = ':' && startsBlank rest) || (flow && isFlowIndicator c) then some ([], c :: rest)
    else do
      let (run, rest) ← plainRun? flow rest
      return (c :: run, rest)

/-- Reads the rest of a plain scalar, at most `bound` parts, after the text so far and a gap. Also
tells whether the gap that follows the scalar holds a line break. -/
def plainFrom? (flow : Bool) (indent : Nat) : (bound : Nat) → (text : List Char) → Gap → Cursor →
    Option (List Char × Bool × Cursor)
  | 0, _, _, _ => none
  | bound + 1, text, g, c => do
    let broken := !g.breaks.isEmpty
    if c.atDocumentMark || c.rest.head? = some '#' then return (text, broken, c)
    let (run, rest) ← plainRun? flow c.rest
    if run.isEmpty then return (text, broken, c)
    let text := text ++ g.fold ++ run
    let c := c.goto rest
    if rest.isEmpty || !startsBlank rest then return (text, false, c)
    let (g, c) := c.gap indent
    if g.tabbed then none
    else if !flow && c.column < indent then return (text, !g.breaks.isEmpty, c)
    else plainFrom? flow indent bound text g c

/-- Reads a plain scalar whose lines are indented by `indent` columns. -/
def plain? (flow : Bool) (indent : Nat) (c : Cursor) : Option (String × Bool × Cursor) := do
  let (text, broken, c) ← plainFrom? flow indent (c.rest.length + 1) [] {} c
  return (String.ofList text, broken, c)

/-! ## Quoted scalars -/

/-- The value of a hexadecimal digit. -/
def hexValue? (c : Char) : Option Nat :=
  if c.isDigit then some (c.toNat - 48)
  else if 'a' ≤ c ∧ c ≤ 'f' then some (c.toNat - 87)
  else if 'A' ≤ c ∧ c ≤ 'F' then some (c.toNat - 55)
  else none

/-- Reads the character with the given number of hexadecimal digits. -/
def hexChar? (digits : Nat) (cs : List Char) : Option (Char × List Char) := do
  if cs.length < digits then none
  let values ← (cs.take digits).mapM hexValue?
  let n := values.foldl (fun n d => 16 * n + d) 0
  if h : n.isValidChar then return (Char.ofNatAux n h, cs.drop digits) else none

/-- Reads an escaped character after the backslash. -/
def escape? : List Char → Option (Char × List Char)
  | '0' :: cs => some ('\x00', cs)
  | 'a' :: cs => some ('\x07', cs)
  | 'b' :: cs => some ('\x08', cs)
  | 't' :: cs | '\t' :: cs => some ('\t', cs)
  | 'n' :: cs => some ('\n', cs)
  | 'v' :: cs => some ('\x0b', cs)
  | 'f' :: cs => some ('\x0c', cs)
  | 'r' :: cs => some ('\r', cs)
  | 'e' :: cs => some ('\x1b', cs)
  | ' ' :: cs => some (' ', cs)
  | '\x22' :: cs => some ('\x22', cs)
  | '/' :: cs => some ('/', cs)
  | '\\' :: cs => some ('\\', cs)
  | 'N' :: cs => some ('\u0085', cs)
  | '_' :: cs => some ('\u00a0', cs)
  | 'L' :: cs => some ('\u2028', cs)
  | 'P' :: cs => some ('\u2029', cs)
  | 'x' :: cs => hexChar? 2 cs
  | 'u' :: cs => hexChar? 4 cs
  | 'U' :: cs => hexChar? 8 cs
  | _ => none

/-- Reads the part of a scalar in single quotes up to the next blank or the closing quote. A quote
that stands twice is one. -/
def singleRun : List Char → List Char × List Char
  | '\x27' :: '\x27' :: rest =>
    let (run, rest) := singleRun rest
    ('\x27' :: run, rest)
  | c :: rest =>
    if c = '\x27' || isBlank c || isBreak c then ([], c :: rest)
    else
      let (run, rest) := singleRun rest
      (c :: run, rest)
  | [] => ([], [])

/-- Reads the part of a scalar in double quotes up to the next blank, the closing quote or an
escaped line break; at most `bound` characters. -/
def doubleRun? : (bound : Nat) → List Char → Option (List Char × List Char)
  | 0, cs => some ([], cs)
  | _, [] => some ([], [])
  | bound + 1, '\\' :: rest =>
    if rest.head?.any isBreak then some ([], '\\' :: rest)
    else do
      let (c, rest) ← escape? rest
      let (run, rest) ← doubleRun? bound rest
      return (c :: run, rest)
  | bound + 1, c :: rest =>
    if c = '\x22' || isBlank c || isBreak c then some ([], c :: rest)
    else do
      let (run, rest) ← doubleRun? bound rest
      return (c :: run, rest)

/-- Reads the rest of a quoted scalar, at most `bound` parts, after the text so far. Line breaks
fold, and an escaped line break counts for nothing. -/
def quotedFrom? (double : Bool) : (bound : Nat) → (text : List Char) → Cursor →
    Option (List Char × Cursor)
  | 0, _, _ => none
  | bound + 1, text, c => do
    if c.atDocumentMark then none
    let (run, rest) ← if double then doubleRun? c.rest.length c.rest else some (singleRun c.rest)
    let text := text ++ run
    let c := c.goto rest
    match rest with
    | [] => none
    | '\\' :: _ =>
      let (_, c) ← (c.skip 1).takeBreak?
      let (g, c) := c.gap 0
      quotedFrom? double bound (text ++ g.breaks) c
    | d :: _ =>
      if isBlank d || isBreak d then
        let (g, c) := c.gap 0
        quotedFrom? double bound (text ++ g.fold) c
      else return (text, c.skip 1)

/-- Reads a scalar in quotes. -/
def quoted? (double : Bool) (c : Cursor) : Option (String × Cursor) := do
  let (text, c) ← quotedFrom? double (c.rest.length + 1) [] (c.skip 1)
  return (String.ofList text, c)

/-! ## Block scalars -/

/-- What becomes of the line breaks at the end of a block scalar. -/
inductive Chomping where
  /-- All are dropped. -/
  | strip
  /-- One is kept. -/
  | clip
  /-- All are kept. -/
  | keep
deriving DecidableEq

/-- Reads the indicators of a block scalar: how it is chomped, and how far it is indented. -/
def blockHeader? : List Char → Option (Chomping × Nat × List Char)
  | c :: cs =>
    match chomping? c, indent? c, cs with
    | some ch, _, d :: rest =>
      if d.isDigit then (indent? d).map fun n => (ch, n, rest) else some (ch, 0, cs)
    | some ch, _, [] => some (ch, 0, [])
    | none, some n, d :: rest =>
      match chomping? d with
      | some ch => some (ch, n, rest)
      | none => some (.clip, n, cs)
    | none, some n, [] => some (.clip, n, [])
    | none, none, _ => if c = '0' then none else some (.clip, 0, c :: cs)
  | [] => some (.clip, 0, [])
where
  chomping? : Char → Option Chomping
    | '-' => some .strip
    | '+' => some .keep
    | _ => none
  indent? (c : Char) : Option Nat := if c.isDigit && c ≠ '0' then some (c.toNat - 48) else none

/-- Reads the empty lines before a line of a block, and the indentation of that line up to `indent`
columns; with `indent = 0` all of it. Yields the line breaks and the widest indentation. -/
def blockBreaks? (indent : Nat) : (bound : Nat) → (breaks : List Char) → (widest : Nat) → Cursor →
    Option (List Char × Nat × Cursor)
  | 0, _, _, _ => none
  | bound + 1, breaks, widest, c => do
    let spaces := (c.rest.takeWhile (· = ' ')).length
    let c := c.skip (if indent = 0 then spaces else min spaces (indent - c.column))
    let widest := max widest c.column
    if (indent = 0 || c.column < indent) && c.rest.head? = some '\t' then none
    match c.takeBreak? with
    | some (b, c) => blockBreaks? indent bound (breaks ++ [b]) widest c
    | none => return (breaks, widest, c)

/-- Reads the rest of a block scalar, at most `bound` lines: the text so far, the break that ended
the last line, the breaks of empty lines, and whether the last line started with a blank. -/
def blockFrom? (folded : Bool) (indent : Nat) (chomping : Chomping) : (bound : Nat) →
    (text lead trail : List Char) → (blank : Bool) → Cursor → Option (List Char × Cursor)
  | 0, _, _, _, _, _ => none
  | bound + 1, text, lead, trail, blank, c => do
    if c.column ≠ indent || c.rest.isEmpty then
      let lead := if chomping = .strip then [] else lead
      return (text ++ lead ++ (if chomping = .keep then trail else []), c)
    let starts := c.rest.head?.any isBlank
    let joint :=
      if folded && lead = ['\n'] && !blank && !starts then if trail.isEmpty then [' '] else []
      else lead
    let (line, rest) := c.rest.span (!isBreak ·)
    let text := text ++ joint ++ trail ++ line
    let c := c.goto rest
    let (lead, c) := match c.takeBreak? with
      | some (b, c) => ([b], c)
      | none => ([], c)
    let (trail, _, c) ← blockBreaks? indent (c.rest.length + 1) [] 0 c
    blockFrom? folded indent chomping bound text lead trail starts c

/-- Reads a block scalar inside a block whose content is indented by `level` columns at least. -/
def block? (folded : Bool) (level : Nat) (c : Cursor) : Option (String × Cursor) := do
  let c := c.skip 1
  let (chomping, given, rest) ← blockHeader? c.rest
  let c := ((c.goto rest).skipWhile isBlank)
  let c := if c.rest.head? = some '#' then c.skipWhile (!isBreak ·) else c
  if !startsBreak c.rest then none
  let c := (c.takeBreak?.map (·.2)).getD c
  let indent := if given = 0 then 0 else level - 1 + given
  let (trail, widest, c) ← blockBreaks? indent (c.rest.length + 1) [] 0 c
  let indent := if given = 0 then max (max widest level) 1 else indent
  let (text, c) ← blockFrom? folded indent chomping (c.rest.length + 1) [] [] trail false c
  return (String.ofList text, c)

end Escape.Yaml
