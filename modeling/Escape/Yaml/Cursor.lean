/-!
# Positions in a YAML text

The classes of characters that the grammar of YAML is built on, and a cursor that goes through a
text and keeps count of lines and columns. Main definitions:

* `isBlank`, `isBreak`, `isAllowed`: classes of characters;
* `Cursor`: the rest of a text, with its position;
* `Cursor.gap`: blanks and line breaks between two parts of a scalar, and how they fold.
-/

namespace Escape.Yaml

/-! ## Characters -/

/-- Blanks within a line. -/
def isBlank (c : Char) : Bool := c = ' ' || c = '\t'

/-- The two separators that are kept as they are when lines are folded. -/
def isSeparator (c : Char) : Bool := c = '\u2028' || c = '\u2029'

/-- Characters that end a line. -/
def isBreak (c : Char) : Bool := c = '\n' || c = '\r' || c = '\u0085' || isSeparator c

/-- Characters that a text may hold: no control characters but tabs and line breaks, and no
noncharacters. -/
def isAllowed (c : Char) : Bool :=
  let n := c.toNat
  n = 0x9 || n = 0xA || n = 0xD || (0x20 ≤ n && n ≤ 0x7E) || n = 0x85 || (0xA0 ≤ n && n ≤ 0xD7FF)
    || (0xE000 ≤ n && n ≤ 0xFFFD) || 0x10000 ≤ n

/-- Characters of names: letters, digits, underscores and hyphens. -/
def isWord (c : Char) : Bool := c.isAlphanum || c = '_' || c = '-'

/-- The brackets, braces and commas of flow collections. -/
def isFlowIndicator (c : Char) : Bool :=
  c = ',' || c = '[' || c = ']' || c = '\x7b' || c = '\x7d'

/-- Whether a text starts with a blank or a line break, or is at its end. -/
def startsBlank : List Char → Bool
  | [] => true
  | c :: _ => isBlank c || isBreak c

/-- Whether a text starts with a line break or is at its end. -/
def startsBreak : List Char → Bool
  | [] => true
  | c :: _ => isBreak c

/-- What a line break counts for in a scalar. -/
def breakValue (c : Char) : Char := if isSeparator c then c else '\n'

/-! ## Cursors -/

/-- The rest of a text, with the column and the line it starts in, both counted from zero. -/
structure Cursor where
  rest : List Char
  column : Nat := 0
  line : Nat := 0
deriving Inhabited

namespace Cursor

/-- Skips characters that are not line breaks. -/
def skip (c : Cursor) (n : Nat) : Cursor :=
  { c with rest := c.rest.drop n, column := c.column + n }

/-- Skips to a later part of the same line. -/
def goto (c : Cursor) (rest : List Char) : Cursor :=
  { c with rest, column := c.column + (c.rest.length - rest.length) }

/-- Skips the characters that pass the test, none of which is a line break. -/
def skipWhile (c : Cursor) (test : Char → Bool) : Cursor := c.goto (c.rest.dropWhile test)

/-- Reads a line break. A carriage return and a line feed together are one. -/
def takeBreak? (c : Cursor) : Option (Char × Cursor) :=
  match c.rest with
  | '\r' :: '\n' :: rest => some ('\n', { rest, line := c.line + 1 })
  | b :: rest => if isBreak b then some (breakValue b, { rest, line := c.line + 1 }) else none
  | [] => none

/-- Whether a line starts here that marks the start or the end of a document. -/
def atDocumentMark (c : Cursor) : Bool :=
  c.column = 0 && match c.rest with
    | '-' :: '-' :: '-' :: rest | '.' :: '.' :: '.' :: rest => startsBlank rest
    | _ => false

/-! ## Gaps -/

/-- White space between two parts of a scalar. -/
structure Gap where
  /-- The blanks before the first line break. -/
  blanks : List Char := []
  /-- What the line breaks count for. -/
  breaks : List Char := []
  /-- Whether a tab stands where a line has to be indented by spaces. -/
  tabbed : Bool := false

/-- Reads a gap, part of which is read already. Lines are indented by `indent` columns. -/
def gapFrom (indent : Nat) (g : Gap) (column line : Nat) : List Char → Gap × Cursor
  | '\r' :: '\n' :: rest => gapFrom indent { g with breaks := g.breaks ++ ['\n'] } 0 (line + 1) rest
  | c :: rest =>
    if isBlank c then
      let g := if g.breaks.isEmpty then { g with blanks := g.blanks ++ [c] }
        else { g with tabbed := g.tabbed || (c = '\t' && column < indent) }
      gapFrom indent g (column + 1) line rest
    else if isBreak c then
      gapFrom indent { g with breaks := g.breaks ++ [breakValue c] } 0 (line + 1) rest
    else (g, { rest := c :: rest, column, line })
  | [] => (g, { rest := [], column, line })

/-- Reads the gap that starts here. -/
def gap (c : Cursor) (indent : Nat) : Gap × Cursor := gapFrom indent {} c.column c.line c.rest

/-- What a gap counts for in a scalar: blanks count for themselves, one line break for a space, and
of several line breaks the first one is dropped. -/
def Gap.fold (g : Gap) : List Char :=
  match g.breaks with
  | [] => g.blanks
  | ['\n'] => [' ']
  | '\n' :: more => more
  | breaks => breaks

end Cursor

end Escape.Yaml
