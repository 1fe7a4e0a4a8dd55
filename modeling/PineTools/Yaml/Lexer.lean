import PineTools.Yaml.Block
import PineTools.Yaml.Label
import PineTools.Yaml.Plain

/-! Cutting a document into tokens. Whether a scalar is a key shows only at the colon after it, so
the scanner remembers for each level of brackets where a key may have started, and puts the tokens
of the key there later. -/
namespace PineTools.Yaml

/-- A token that may turn out to start a key: how many tokens stand before it, and its place. A
required one must. -/
structure KeyStart where
  before : Nat
  required : Bool
  index : Nat
  line : Nat
  column : Nat
  deriving DecidableEq, Repr, Inhabited

def keyLimit : Nat := 1024

/-- The state between two tokens. The last token stands first; `columns` are those of the open block
collections, the innermost first; `level` counts the open brackets, and `keys` are the possible keys
by level. -/
structure Scanner where
  place : Place
  tokens : List Token
  count : Nat
  columns : List Nat
  level : Nat
  keyAllowed : Bool
  keys : List (Nat × KeyStart)
  deriving Inhabited

namespace Scanner

def start (t : Text) : Scanner := ⟨.start t, [], 0, [], 0, true, []⟩

def push (token : Token) (s : Scanner) : Scanner :=
  { s with tokens := token :: s.tokens, count := s.count + 1 }

/-- Adds a token after the given number of tokens. -/
def insertAt (before : Nat) (token : Token) (s : Scanner) : Scanner :=
  let later := s.count - before
  { s with tokens := s.tokens.take later ++ token :: s.tokens.drop later, count := s.count + 1 }

def inBlock (s : Scanner) : Bool := s.level == 0

def allowKey (allowed : Bool) (s : Scanner) : Scanner := { s with keyAllowed := allowed }

def goto (p : Place) (s : Scanner) : Scanner := { s with place := p }

/-- Forgets the possible keys that lie on another line or too far back. A required one cannot be
forgotten. -/
def dropStaleKeys (s : Scanner) : Except ReadError Scanner :=
  let stale := fun k : Nat × KeyStart => k.2.line != s.place.line ||
    s.place.index - k.2.index > keyLimit
  if s.keys.any fun k => stale k && k.2.required then .error .malformed
  else .ok { s with keys := s.keys.filter fun k => !stale k }

def key? (s : Scanner) : Option KeyStart := (s.keys.find? fun k => k.1 == s.level).map Prod.snd

def eraseKey (s : Scanner) : Scanner := { s with keys := s.keys.filter fun k => k.1 != s.level }

/-- Forgets the possible key of the current level. -/
def dropKey (s : Scanner) : Except ReadError Scanner :=
  if s.key?.any KeyStart.required then .error .malformed else .ok s.eraseKey

/-- Notes that the next token may start a key. At the column of the innermost block it has to. -/
def saveKey (s : Scanner) : Except ReadError Scanner :=
  if !s.keyAllowed then .ok s
  else do
    let s ← s.dropKey
    let required := s.inBlock && s.columns.head? == some s.place.column
    return { s with keys :=
      (s.level, ⟨s.count, required, s.place.index, s.place.line, s.place.column⟩) :: s.keys }

/-- Closes the block collections for which the test of their column holds. Inside brackets none is
closed. -/
def closeBlocks (test : Nat → Bool) (s : Scanner) : Scanner :=
  if !s.inBlock then s
  else
    let closed := s.columns.takeWhile test
    { s with
      tokens := List.replicate closed.length .blockEnd ++ s.tokens
      count := s.count + closed.length
      columns := s.columns.drop closed.length }

def opensBlock (column : Nat) (s : Scanner) : Bool := s.columns.head?.all (· < column)

def openBlock (token : Token) (s : Scanner) : Scanner :=
  if s.opensBlock s.place.column then push token { s with columns := s.place.column :: s.columns }
    else s

/-- Passes over blanks, comments and breaks. After a break in a block a key may start. The fuel
bounds the number of lines. -/
def skipToToken : Nat → Scanner → Scanner
  | 0, s => s
  | fuel + 1, s =>
    let p := s.place.skipBlanks.skipComment
    if p.peek.any isBreak then skipToToken fuel { s with place := p.next, keyAllowed :=
      s.keyAllowed || s.inBlock }
    else s.goto p

/-- A token of one character that needs no more than the character. -/
def single (token : Token) (s : Scanner) : Scanner := (s.goto s.place.next).push token

def scanEnd (s : Scanner) : Except ReadError Scanner := do
  let s ← (s.closeBlocks fun _ => true).dropKey
  return push .streamEnd { s with keyAllowed := false, keys := [] }

def scanDirective (s : Scanner) : Except ReadError Scanner := do
  let s ← (s.closeBlocks fun _ => true).dropKey
  let (d, p) ← directive s.place.next
  return ((s.allowKey false).goto p).push (.directive d)

def scanDocumentMark (token : Token) (s : Scanner) : Except ReadError Scanner := do
  let s ← (s.closeBlocks fun _ => true).dropKey
  return ((s.allowKey false).goto (s.place.skip 3)).push token

def scanFlowStart (token : Token) (s : Scanner) : Except ReadError Scanner := do
  let s ← s.saveKey
  return single token { s with level := s.level + 1, keyAllowed := true }

def scanFlowEnd (token : Token) (s : Scanner) : Except ReadError Scanner := do
  let s ← s.dropKey
  if s.level = 0 then .error .malformed
    else return single token { s with level := s.level - 1, keyAllowed := false }

def scanFlowEntry (s : Scanner) : Except ReadError Scanner := do
  return ((← s.dropKey).allowKey true).single .flowEntry

def scanBlockEntry (s : Scanner) : Except ReadError Scanner :=
  if s.inBlock && !s.keyAllowed then .error .malformed
  else do
    let s := if s.inBlock then s.openBlock .blockSequenceStart else s
    return ((← s.dropKey).allowKey true).single .blockEntry

def scanKey (s : Scanner) : Except ReadError Scanner :=
  if s.inBlock && !s.keyAllowed then .error .malformed
  else do
    let s := if s.inBlock then s.openBlock .blockMappingStart else s
    return ((← s.dropKey).allowKey s.inBlock).single .key

/-- A colon. If a possible key stands before it on the same level, that is one, and may open a block
mapping. -/
def scanValue (s : Scanner) : Except ReadError Scanner :=
  match s.key? with
  | some k =>
    let opens := s.inBlock && s.opensBlock k.column
    let s := (s.eraseKey.insertAt k.before .key).allowKey false
    let s := if opens then insertAt k.before .blockMappingStart { s with columns :=
      k.column :: s.columns } else s
    .ok (s.single .value)
  | none =>
    if s.inBlock && !s.keyAllowed then .error .malformed
    else
      let s := if s.inBlock then s.openBlock .blockMappingStart else s
      .ok ((s.allowKey s.inBlock).single .value)

def scanWord (read : Place → Except ReadError (Token × Place)) (s : Scanner) :
    Except ReadError Scanner := do
  let s ← s.saveKey
  let (token, p) ← read s.place
  return ((s.allowKey false).goto p).push token

def scanBlockScalar (folded : Bool) (s : Scanner) : Except ReadError Scanner := do
  let s ← s.dropKey
  let (t, p) ← blockScalar folded s.columns.head? s.place.next
  return ((s.allowKey true).goto p).push (.scalar t false)

def scanPlain (s : Scanner) : Except ReadError Scanner := do
  let s ← s.saveKey
  let plain := plainScalar (!s.inBlock) s.columns.head? s.place
  return ((s.allowKey plain.keyAllowed).goto plain.place).push (.scalar plain.text true)

def isIndicator (c : Char) : Bool := "-?:,[]\x7b\x7d#&*!|>\"%@".toList.contains c || c.toNat ==
    39 || c.toNat == 0x60

/-- A plain scalar may start at the place. Before a word, a hyphen may start one, and outside
brackets a question mark or a colon. -/
def startsPlain (s : Scanner) (c : Char) : Bool :=
  (!isGap (some c) && !isIndicator c)
    || (!isGap (s.place.peekAt 1) && (c == '-' || (s.inBlock && (c == '?' || c == ':'))))

def scanToken (c : Char) (s : Scanner) : Except ReadError Scanner :=
  let lineStart := s.place.column == 0
  let beforeGap := isGap (s.place.peekAt 1)
  if c = '%' && lineStart then s.scanDirective
  else if lineStart && s.place.atMark "---" then s.scanDocumentMark .documentStart
  else if lineStart && s.place.atMark "..." then s.scanDocumentMark .documentEnd
  else if c = '[' then s.scanFlowStart .flowSequenceStart
  else if c = '\x7b' then s.scanFlowStart .flowMappingStart
  else if c = ']' then s.scanFlowEnd .flowSequenceEnd
  else if c = '\x7d' then s.scanFlowEnd .flowMappingEnd
  else if c = ',' then s.scanFlowEntry
  else if c = '-' && beforeGap then s.scanBlockEntry
  else if c = '?' && (!s.inBlock || beforeGap) then s.scanKey
  else if c = ':' && (!s.inBlock || beforeGap) then s.scanValue
  else if c = '*' then s.scanWord fun p => (anchorName p.next).map fun (name, q) =>
    (.reference name, q)
  else if c = '&' then s.scanWord fun p => (anchorName p.next).map fun (name, q) =>
    (.anchor name, q)
  else if c = '!' then s.scanWord tag
  else if c = '|' && s.inBlock then s.scanBlockScalar false
  else if c = '>' && s.inBlock then s.scanBlockScalar true
  else
    match Quote.ofChar? c with
    | some quote => s.scanWord fun p => (quotedScalar quote p.next).map fun (t, q) =>
      (.scalar t false, q)
    | none => if s.startsPlain c then s.scanPlain else .error .malformed

/-- One token further, or more if blocks end before it. -/
def step (s : Scanner) : Except ReadError Scanner := do
  let s ← (s.skipToToken (s.place.rest.length + 1)).dropStaleKeys
  let s := s.closeBlocks fun column => column > s.place.column
  match s.place.peek with
  | none => s.scanEnd
  | some c => s.scanToken c

/-- Scans to the end of the document, or to where it cannot go on. The fuel bounds the number of
tokens. -/
def run : Nat → Scanner → Scanner × ReadError
  | 0, s => (s, .malformed)
  | fuel + 1, s =>
    match s.step with
    | .error e => (s, e)
    | .ok after => if after.tokens.head? == some .streamEnd then (after, .malformed)
      else run fuel after

end Scanner

/-- The tokens of a document, and what is wrong after the last of them if the document does not end
there. -/
def scan (t : Text) : List Token × ReadError :=
  let start := Scanner.start t
  let start := if t.head? == some byteOrderMark then start.goto start.place.next else start
  let (s, e) := start.run (t.length + 2)
  (s.tokens.reverse, e)

end PineTools.Yaml
