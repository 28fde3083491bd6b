import Escape.Yaml.Scalar

/-!
# Tokens of a YAML text

A text is split into tokens. Besides the marks and scalars that are written out, there are tokens
for what only shows in the layout: where a block collection starts and ends, and where the key of a
mapping starts, which is known only once the colon after it is found. Main definitions:

* `Token`;
* `Scanner`: the state of the split;
* `Token.ofText?`: the tokens of a text.
-/

namespace Escape.Yaml

/-- A token. -/
inductive Token where
  /-- The `YAML` directive, with a version. -/
  | version (major minor : Nat)
  /-- The `TAG` directive, which lets a handle stand for the start of a tag. -/
  | tagHandle (handle lead : String)
  | documentStart
  | documentEnd
  | blockListStart
  | blockMapStart
  | blockEnd
  | flowListStart
  | flowListEnd
  | flowMapStart
  | flowMapEnd
  /-- The hyphen before an item of a block list. -/
  | item
  /-- The comma between items of a flow collection. -/
  | comma
  | key
  | value
  | alias (name : String)
  | anchor (name : String)
  | tag (handle suffix : String)
  | scalar (style : Style) (text : String)
deriving DecidableEq, Inhabited

/-- A place where a key without a mark of its own may start. -/
structure Candidate where
  /-- The position among the tokens. -/
  position : Nat
  column : Nat
  line : Nat
  /-- How many characters were left. -/
  left : Nat
  /-- Whether there has to be a key, since the block mapping goes on here. -/
  required : Bool

/-- The state of the split. -/
structure Scanner where
  cursor : Cursor
  /-- The least column of content in the current block. -/
  level : Nat := 0
  /-- The levels of the enclosing blocks. -/
  outer : List Nat := []
  /-- Whether a key without a mark may start here. -/
  keyAllowed : Bool := true
  /-- One candidate for a key for the current block and for each open flow collection, innermost
  first. -/
  candidates : List (Option Candidate) := [none]
  tokens : Array Token := #[]

/-- A step of the split, which fails if the text is malformed. -/
abbrev Scan := StateT Scanner Option

namespace Scan

/-! ## Layout -/

/-- Whether the cursor is inside a flow collection. -/
def inFlow : Scan Bool := return (← get).candidates.length ≠ 1

/-- Adds a token. -/
def emit (t : Token) : Scan Unit := modify fun s => { s with tokens := s.tokens.push t }

/-- Adds a token before the one at position `i`. -/
def emitAt (i : Nat) (t : Token) : Scan Unit :=
  modify fun s => { s with tokens := (s.tokens.take i).push t ++ s.tokens.drop i }

/-- Skips characters within a line. -/
def skip (n : Nat) : Scan Unit := modify fun s => { s with cursor := s.cursor.skip n }

def setCursor (c : Cursor) : Scan Unit := modify fun s => { s with cursor := c }

def allowKey (allowed : Bool) : Scan Unit := modify fun s => { s with keyAllowed := allowed }

/-- Sets the innermost candidate. -/
def setCandidate (k : Option Candidate) : Scan Unit :=
  modify fun s => { s with candidates := k :: s.candidates.tail }

/-- The innermost candidate. -/
def candidate : Scan (Option Candidate) := return (← get).candidates.head?.join

/-- Gives up the innermost candidate, unless there has to be a key. -/
def dropCandidate : Scan Unit := do
  if (← candidate).any (·.required) then failure
  setCandidate none

/-- Notes that a key may start here. -/
def noteCandidate : Scan Unit := do
  let s ← get
  if s.keyAllowed then
    let required := !(← inFlow) && s.level = s.cursor.column + 1
    dropCandidate
    setCandidate (some {
      position := s.tokens.size, column := s.cursor.column, line := s.cursor.line,
      left := s.cursor.rest.length, required })

/-- Gives up the candidates on earlier lines and those more than 1024 characters back. -/
def dropStale : Scan Unit := do
  let s ← get
  let isStale := fun (k : Candidate) =>
    k.line < s.cursor.line || s.cursor.rest.length + 1024 < k.left
  let stale := fun (k : Option Candidate) => k.any isStale
  if s.candidates.any fun k => stale k && k.any (·.required) then failure
  set { s with candidates := s.candidates.map fun k => if stale k then none else k }

/-- Opens a block whose content starts in a column, unless one is open there. Its first token goes
before position `i`. -/
def openBlock (column i : Nat) (start : Token) : Scan Unit := do
  let s ← get
  if !(← inFlow) && s.level ≤ column then
    set { s with level := column + 1, outer := s.level :: s.outer }
    emitAt i start

/-- Opens a block at the cursor. -/
def openBlockHere (start : Token) : Scan Unit := do
  let s ← get
  openBlock s.cursor.column s.tokens.size start

/-- The levels that remain, and the number of blocks that end, when content goes on at `level`. -/
def closing (level : Nat) : Nat → List Nat → Nat × Nat × List Nat
  | current, [] => (0, current, [])
  | current, o :: outer =>
    if level < current then
      let (n, rest) := closing level o outer
      (n + 1, rest)
    else (0, current, o :: outer)

/-- Closes the blocks whose content is indented deeper than `level`. -/
def closeBlocks (level : Nat) : Scan Unit := do
  if ← inFlow then return
  let s ← get
  let (n, current, outer) := closing level s.level s.outer
  set { s with level := current, outer, tokens := s.tokens ++ Array.replicate n Token.blockEnd }

/-! ## White space -/

/-- Skips blanks, comments and line breaks, at most `bound` lines. A tab is white space only where
no key may start. -/
def skipSpace : (bound : Nat) → Scan Unit
  | 0 => failure
  | bound + 1 => do
    let s ← get
    let tabs := (← inFlow) || !s.keyAllowed
    let c := s.cursor.skipWhile fun d => d = ' ' || (tabs && d = '\t')
    let c := if c.rest.head? = some '#' then c.skipWhile (!isBreak ·) else c
    match c.takeBreak? with
    | some (_, c) =>
      setCursor c
      if !(← inFlow) then allowKey true
      skipSpace bound
    | none => setCursor c

/-! ## Directives, anchors and tags -/

/-- Reads a decimal number. -/
def number? (cs : List Char) : Option (Nat × List Char) :=
  let (digits, rest) := cs.span Char.isDigit
  if digits.isEmpty || 9 < digits.length then none
  else some (digits.foldl (fun n d => 10 * n + (d.toNat - 48)) 0, rest)

/-- Whether a character may stand in a tag. -/
def isTagChar (full : Bool) (c : Char) : Bool :=
  isWord c || c ∈ ";/?:@&=+$.!~*\x27()".toList || (full && c ∈ ",[]".toList)

/-- Reads the characters of a tag; each percent sign is followed by the two digits of an ASCII
character. -/
def tagChars? (full : Bool) : List Char → Option (List Char × List Char)
  | '%' :: a :: b :: rest => do
    let n := 16 * (← hexValue? a) + (← hexValue? b)
    if 128 ≤ n then none
    let (cs, rest) ← tagChars? full rest
    return (Char.ofNat n :: cs, rest)
  | c :: rest =>
    if c = '%' then none
    else if isTagChar full c then do
      let (cs, rest) ← tagChars? full rest
      return (c :: cs, rest)
    else some ([], c :: rest)
  | [] => some ([], [])

/-- Reads a handle after its first exclamation mark, and tells whether a second one ends it. -/
def handle (cs : List Char) : List Char × Bool × List Char :=
  let (name, rest) := cs.span isWord
  match rest with
  | '!' :: rest => (name, true, rest)
  | _ => (name, false, rest)

/-- Reads a tag after its first exclamation mark. -/
def tag? : List Char → Option (Token × List Char)
  | '<' :: cs => do
    let (uri, rest) ← tagChars? true cs
    match uri, rest with
    | _ :: _, '>' :: rest => return (.tag "" (String.ofList uri), rest)
    | _, _ => none
  | cs => do
    match handle cs with
    | (name, true, rest) =>
      let (suffix, rest) ← tagChars? false rest
      if suffix.isEmpty then none
      return (.tag (String.ofList ('!' :: name ++ ['!'])) (String.ofList suffix), rest)
    | (name, false, rest) =>
      let (more, rest) ← tagChars? false rest
      match name ++ more with
      | [] => return (.tag "" "!", rest)
      | suffix => return (.tag "!" (String.ofList suffix), rest)

/-- Reads a directive after its percent sign, up to the rest of the line. -/
def directive? (cs : List Char) : Option (Token × List Char) := do
  let (name, rest) := cs.span isWord
  let args := rest.dropWhile isBlank
  if !startsBlank rest then none
  match String.ofList name with
  | "YAML" =>
    let (major, rest) ← number? args
    match rest with
    | '.' :: rest =>
      let (minor, rest) ← number? rest
      return (.version major minor, rest)
    | _ => none
  | "TAG" =>
    match args with
    | '!' :: rest =>
      let (name, closed, rest) := handle rest
      if !closed && !name.isEmpty then none
      if !(rest.head?.any isBlank) then none
      let (lead, rest) ← tagChars? true (rest.dropWhile isBlank)
      if lead.isEmpty || !startsBlank rest then none
      let text := '!' :: name ++ (if closed then ['!'] else [])
      return (.tagHandle (String.ofList text) (String.ofList lead), rest)
    | _ => none
  | _ => none

/-! ## Tokens -/

/-- A directive takes up a line. -/
def scanDirective : Scan Unit := do
  closeBlocks 0
  dropCandidate
  allowKey false
  let c := (← get).cursor
  let (t, rest) ← directive? (c.rest.drop 1)
  let c := (c.goto rest).skipWhile isBlank
  let c := if c.rest.head? = some '#' then c.skipWhile (!isBreak ·) else c
  if !startsBreak c.rest then failure
  setCursor ((c.takeBreak?.map (·.2)).getD c)
  emit t

/-- The start or the end of a document ends all blocks. -/
def scanDocumentMark (t : Token) : Scan Unit := do
  closeBlocks 0
  dropCandidate
  allowKey false
  skip 3
  emit t

def scanFlowStart (t : Token) : Scan Unit := do
  noteCandidate
  modify fun s => { s with candidates := none :: s.candidates, keyAllowed := true }
  skip 1
  emit t

def scanFlowEnd (t : Token) : Scan Unit := do
  dropCandidate
  if ← inFlow then modify fun s => { s with candidates := s.candidates.tail }
  allowKey false
  skip 1
  emit t

def scanComma : Scan Unit := do
  dropCandidate
  allowKey true
  skip 1
  emit .comma

def scanItem : Scan Unit := do
  if !(← inFlow) then
    if !(← get).keyAllowed then failure
    openBlockHere .blockListStart
  dropCandidate
  allowKey true
  skip 1
  emit .item

def scanKey : Scan Unit := do
  let flow ← inFlow
  if !flow then
    if !(← get).keyAllowed then failure
    openBlockHere .blockMapStart
  dropCandidate
  allowKey !flow
  skip 1
  emit .key

/-- A colon turns what came before it into a key. -/
def scanValue : Scan Unit := do
  match ← candidate with
  | some k =>
    emitAt k.position .key
    openBlock k.column k.position .blockMapStart
    setCandidate none
    allowKey false
  | none =>
    let flow ← inFlow
    if !flow then
      if !(← get).keyAllowed then failure
      openBlockHere .blockMapStart
    allowKey !flow
  skip 1
  emit .value

/-- The name of an anchor is followed by white space or by certain indicators. -/
def scanAnchor (make : String → Token) : Scan Unit := do
  noteCandidate
  allowKey false
  let c := (← get).cursor
  let (name, rest) := (c.rest.drop 1).span isWord
  let ends := startsBlank rest || rest.head?.any (· ∈ "?:,]\x7d%@\x60".toList)
  if name.isEmpty || !ends then failure
  setCursor (c.goto rest)
  emit (make (String.ofList name))

def scanTag : Scan Unit := do
  noteCandidate
  allowKey false
  let c := (← get).cursor
  let (t, rest) ← tag? (c.rest.drop 1)
  if !(startsBlank rest || ((← inFlow) && rest.head? = some ',')) then failure
  setCursor (c.goto rest)
  emit t

def scanBlockScalar (folded : Bool) : Scan Unit := do
  dropCandidate
  allowKey true
  let s ← get
  let (text, c) ← block? folded s.level s.cursor
  setCursor c
  emit (.scalar (if folded then .folded else .literal) text)

def scanQuoted (double : Bool) : Scan Unit := do
  noteCandidate
  allowKey false
  let (text, c) ← quoted? double (← get).cursor
  setCursor c
  emit (.scalar .quoted text)

def scanPlain : Scan Unit := do
  noteCandidate
  allowKey false
  let s ← get
  let (text, broken, c) ← plain? (← inFlow) s.level s.cursor
  setCursor c
  if broken then allowKey true
  emit (.scalar .plain text)

/-- Whether a character cannot start a plain scalar by itself. -/
def isIndicator (c : Char) : Bool := c ∈ "-?:,[]\x7b\x7d#&*!|>\x27\x22%@\x60".toList

/-- Reads the token at the cursor. -/
def scanToken (c : Char) (rest : List Char) : Scan Unit := do
  let cursor := (← get).cursor
  let flow ← inFlow
  let apart := startsBlank rest
  if cursor.column = 0 && c = '%' then scanDirective
  else if cursor.atDocumentMark then
    scanDocumentMark (if c = '-' then .documentStart else .documentEnd)
  else match c with
    | '[' => scanFlowStart .flowListStart
    | '\x7b' => scanFlowStart .flowMapStart
    | ']' => scanFlowEnd .flowListEnd
    | '\x7d' => scanFlowEnd .flowMapEnd
    | ',' => scanComma
    | '*' => scanAnchor .alias
    | '&' => scanAnchor .anchor
    | '!' => scanTag
    | '\x27' => scanQuoted false
    | '\x22' => scanQuoted true
    | _ =>
      if c = '-' && apart then scanItem
      else if c = '?' && (flow || apart) then scanKey
      else if c = ':' && (flow || apart) then scanValue
      else if c = '|' && !flow then scanBlockScalar false
      else if c = '>' && !flow then scanBlockScalar true
      else if !isIndicator c || c = '-' || (!flow && (c = '?' || c = ':')) then
        if isBlank c then failure else scanPlain
      else failure

/-- Reads all tokens, at most `bound` of those that are written out. -/
def scanAll : (bound : Nat) → Scan Unit
  | 0 => failure
  | bound + 1 => do
    skipSpace ((← get).cursor.rest.length + 1)
    dropStale
    closeBlocks ((← get).cursor.column + 1)
    match (← get).cursor.rest with
    | [] =>
      closeBlocks 0
      dropCandidate
    | c :: rest =>
      scanToken c rest
      scanAll bound

end Scan

/-- The tokens of a text. A byte order mark may stand at its start. -/
def Token.ofText? (text : String) : Option (List Token) := do
  let cs := text.toList
  if !cs.all isAllowed then none
  let cs := if cs.head? = some '\ufeff' then cs.tail else cs
  let (_, s) ← (Scan.scanAll (cs.length + 1)).run { cursor := { rest := cs } }
  return s.tokens.toList

end Escape.Yaml
