import BunMail.Lib.CodeUnits
import BunMail.Lib.Cut
import Mathlib.Data.List.DropRight

/-!
# HTML to text

`htmlToText` of `html-to-text.ts`.  A string is the list of its code units, and an index into the input
is the suffix it cuts off.  The collector keeps the chunks written so far and what it owes before the
next word.  The loop turns to a unit of the input at a time; the first `skip` units belong to the turn
before, so that the cursor never goes back.

Lower case is that of the ASCII letters: no other character has one of the names of elements or
attributes the code looks for as its lower case, of the same length.
-/

namespace BunMail.Emails.HtmlToText

open CodeUnits

def MAX_HTML_INPUT_LENGTH : ℕ := 1024 * 1024

def MAX_TEXT_OUTPUT_LENGTH : ℕ := 256 * 1024

def MAX_HREF_LENGTH : ℕ := 2048

def MAX_ENTITY_LENGTH : ℕ := 32

def DROPPED_ELEMENTS : List CodeUnits :=
  [of "script", of "style", of "head", of "title", of "template"]

def LINE_BREAK_ELEMENTS : List CodeUnits :=
  [of "br", of "div", of "tr", of "ul", of "ol", of "table", of "hr", of "blockquote", of "section",
    of "article", of "header", of "footer"]

def PARAGRAPH_ELEMENTS : List CodeUnits :=
  [of "p", of "h1", of "h2", of "h3", of "h4", of "h5", of "h6"]

def CELL_ELEMENTS : List CodeUnits := [of "td", of "th"]

def NAMED_ENTITIES : List (CodeUnits × CodeUnits) :=
  [(of "amp", of "&"), (of "lt", of "<"), (of "gt", of ">"), (of "quot", of "\""), (of "apos", of "'"),
    (of "nbsp", of " "), (of "ensp", of " "), (of "emsp", of " "), (of "thinsp", of " "), (of "shy", []),
    (of "zwnj", []), (of "zwj", []), (of "copy", [0xa9]), (of "reg", [0xae]), (of "trade", [0x2122]),
    (of "hellip", [0x2026]), (of "mdash", [0x2014]), (of "ndash", [0x2013]), (of "lsquo", [0x2018]),
    (of "rsquo", [0x2019]), (of "sbquo", [0x201a]), (of "ldquo", [0x201c]), (of "rdquo", [0x201d]),
    (of "bdquo", [0x201e]), (of "laquo", [0xab]), (of "raquo", [0xbb]), (of "bull", [0x2022]),
    (of "middot", [0xb7]), (of "euro", [0x20ac]), (of "pound", [0xa3]), (of "yen", [0xa5]),
    (of "cent", [0xa2]), (of "deg", [0xb0]), (of "times", [0xd7]), (of "divide", [0xf7]),
    (of "plusmn", [0xb1]), (of "sect", [0xa7]), (of "para", [0xb6]), (of "iexcl", [0xa1]),
    (of "iquest", [0xbf])]

/-- HTML white space. -/
def isSpace (c : UInt16) : Bool := c == 0x20 || c == 0x09 || c == 0x0a || c == 0x0c || c == 0x0d

/-- `isNameChar`: what may continue the name of a tag. -/
def isNameChar (c : UInt16) : Bool := isLetter c || isDigit c || c == 0x2d

/-- The lower case of an ASCII text. -/
def toLowerCase (s : CodeUnits) : CodeUnits := s.map lower

/-- White space of the language: what `\s` matches and `trim` removes. -/
def isWhite (c : UInt16) : Bool :=
  (0x09 ≤ c && c ≤ 0x0d) || c == 0x20 || c == 0xa0 || c == 0x1680 || (0x2000 ≤ c && c ≤ 0x200a) ||
    c == 0x2028 || c == 0x2029 || c == 0x202f || c == 0x205f || c == 0x3000 || c == 0xfeff

/-- `s.trim()`. -/
def trim (s : CodeUnits) : CodeUnits := (s.dropWhile isWhite).rdropWhile isWhite

/-- Half a surrogate pair, the first. -/
def isHighSurrogate (c : UInt16) : Bool := 0xd800 ≤ c && c ≤ 0xdbff

/-- The first `n` units, not ending on half a pair. -/
def sliceWhole (n : ℕ) (s : CodeUnits) : CodeUnits :=
  if (s.take n).getLast?.any isHighSurrogate then s.take (n - 1) else s.take n

/-! ## The collector -/

/-- `TextSink`. -/
structure TextSink where
  chunks : List CodeUnits
  length : ℕ
  pendingNewlines : ℕ
  pendingSpace : Bool
  lineHasText : Bool
  full : Bool
  deriving DecidableEq

namespace TextSink

def new : TextSink :=
  { chunks := [], length := 0, pendingNewlines := 0, pendingSpace := false, lineHasText := false,
    full := false }

def push (sink : TextSink) (value : CodeUnits) : TextSink :=
  let room := MAX_TEXT_OUTPUT_LENGTH - sink.length
  if room ≤ value.length then
    { sink with
      chunks := sink.chunks ++ [sliceWhole room value]
      length := sink.length + (sliceWhole room value).length
      full := true }
  else { sink with chunks := sink.chunks ++ [value], length := sink.length + value.length }

/-- What goes before the next word. -/
def owed (sink : TextSink) : CodeUnits :=
  if 0 < sink.pendingNewlines ∧ 0 < sink.length then List.replicate sink.pendingNewlines 0x0a
  else if sink.pendingSpace ∧ sink.lineHasText then [0x20]
  else []

def word (sink : TextSink) (value : CodeUnits) : TextSink :=
  if value = [] ∨ sink.full then sink
  else
    { { sink with pendingNewlines := 0, pendingSpace := false }.push (sink.owed ++ value) with
      lineHasText := true }

/-- `space()`. -/
def space (sink : TextSink) : TextSink :=
  if sink.lineHasText then { sink with pendingSpace := true } else sink

/-- A turn of the loop of `text`, with the word begun. -/
def textTurn (state : TextSink × CodeUnits) (c : UInt16) : TextSink × CodeUnits :=
  if state.1.full then state
  else if isSpace c then ((state.1.word state.2).space, [])
  else (state.1, state.2 ++ [c])

/-- `text(value)`. -/
def text (sink : TextSink) (value : CodeUnits) : TextSink :=
  let state := value.foldl textTurn (sink, [])
  state.1.word state.2

/-- `newline(blank)`. -/
def newline (sink : TextSink) (blank : Bool) : TextSink :=
  if sink.length = 0 then sink
  else
    { sink with
      pendingNewlines := max sink.pendingNewlines (if blank then 2 else 1)
      pendingSpace := false
      lineHasText := false }

def literal (sink : TextSink) (value : CodeUnits) : TextSink := sink.word value

def marker (sink : TextSink) (value : CodeUnits) : TextSink :=
  { sink.word value with pendingSpace := true }

def mark (sink : TextSink) : ℕ := sink.chunks.length

def since (sink : TextSink) (mark : ℕ) : CodeUnits := (sink.chunks.drop mark).flatten

def wroteSince (sink : TextSink) (mark : ℕ) : Bool := mark < sink.chunks.length

def toString (sink : TextSink) : CodeUnits := sink.chunks.flatten

end TextSink

/-! ## Tags -/

/-- `ParsedTag`; its end is the suffix after it. -/
structure ParsedTag where
  name : CodeUnits
  closing : Bool
  href : Option CodeUnits
  deriving DecidableEq

/-- What the name of an attribute runs over. -/
def isAttrChar (c : UInt16) : Bool := !(isSpace c || c == 0x3d || c == 0x3e || c == 0x2f)

/-- What a value without quotes runs over. -/
def isBareChar (c : UInt16) : Bool := !(isSpace c || c == 0x3e)

/-- `value = …`: the value of an attribute, from behind its `=`, and what follows it. -/
def attrValue (s : CodeUnits) : Option (CodeUnits × CodeUnits) :=
  let s := s.dropWhile isSpace
  match s with
  | [] => some ([], [])
  | quote :: rest =>
    if quote = 0x22 ∨ quote = 0x27 then cut? [quote] rest
    else some (s.takeWhile isBareChar, s.dropWhile isBareChar)

/-- The loop over the attributes: the `href`, and what follows the tag's `>`. -/
def parseAttributes : ℕ → CodeUnits → Option CodeUnits → Option (Option CodeUnits × CodeUnits)
  | 0, _, _ => none
  | _ + 1, [], _ => none
  | fuel + 1, c :: s, href =>
    if c = 0x3e then some (href, s)
    else if isSpace c || c == 0x2f then parseAttributes fuel s href
    else
      let attrName := toLowerCase ((c :: s).takeWhile isAttrChar)
      let rest := ((c :: s).dropWhile isAttrChar).dropWhile isSpace
      if rest.head? = some 0x3d then
        (attrValue (rest.drop 1)).bind fun read =>
          parseAttributes fuel read.2
            (if attrName = of "href" then href.or (some read.1) else href)
      else parseAttributes fuel rest href

/-- `parseTag` from the name on; none when the tag never ends. -/
def parseTag (s : CodeUnits) (closing : Bool) : Option (ParsedTag × CodeUnits) :=
  let rest := s.dropWhile isNameChar
  (parseAttributes (rest.length + 1) rest none).map fun read =>
    ({ name := toLowerCase (s.takeWhile isNameChar), closing, href := read.1 }, read.2)

/-- A closing tag of the name, from behind its `</`. -/
def closesHere (name s : CodeUnits) : Bool :=
  toLowerCase (s.take name.length) == name && !(s.drop name.length).head?.any isNameChar

/-- `findClosingTag`: what follows the closing tag. -/
def findClosingTag (name : CodeUnits) : CodeUnits → Option CodeUnits
  | [] => none
  | c :: s =>
    if of "</" <+: c :: s ∧ closesHere name (s.drop 1) then
      (cut? [0x3e] ((s.drop 1).drop name.length)).map Prod.snd
    else findClosingTag name s

/-! ## Entities -/

def isHexDigit (c : UInt16) : Bool :=
  isDigit c || (0x61 ≤ c && c ≤ 0x66) || (0x41 ≤ c && c ≤ 0x46)

/-- The value of a digit. -/
def digitValue (c : UInt16) : ℕ :=
  if isDigit c then c.toNat - 0x30 else (lower c).toNat - 0x57

/-- `Number.parseInt`. -/
def parseInt (digits : CodeUnits) (radix : ℕ) : ℕ := digits.foldl (fun n c => radix * n + digitValue c) 0

/-- `String.fromCodePoint`. -/
def fromCodePoint (value : ℕ) : CodeUnits :=
  if value < 0x10000 then [UInt16.ofNat value]
  else [UInt16.ofNat (0xd800 + (value - 0x10000) / 0x400),
    UInt16.ofNat (0xdc00 + (value - 0x10000) % 0x400)]

def codePointText (value : ℕ) : CodeUnits :=
  if value = 0 ∨ 0x10ffff < value ∨ (0xd800 ≤ value ∧ value ≤ 0xdfff) then [0xfffd]
  else if (value < 0x20 ∧ ¬isSpace (UInt16.ofNat value)) ∨ (0x7f ≤ value ∧ value ≤ 0x9f) then []
  else fromCodePoint value

/-- The text of an entity, by what stands between its `&` and its `;`. -/
def entityText (body : CodeUnits) : Option CodeUnits :=
  if body.head? = some 0x23 then
    let number := body.drop 1
    let hex := number.head? = some 0x78 ∨ number.head? = some 0x58
    let digits := if hex then number.drop 1 else number
    if digits = [] ∨ ¬digits.all (if hex then isHexDigit else isDigit) then none
    else some (codePointText (parseInt digits (if hex then 16 else 10)))
  else (NAMED_ENTITIES.find? (·.1 == body)).map Prod.snd

/-- `decodeEntity` from behind the `&`: the text of the entity, and what follows it. -/
def decodeEntity (s : CodeUnits) : Option (CodeUnits × CodeUnits) :=
  (cut? [0x3b] (s.take (MAX_ENTITY_LENGTH + 1))).bind fun found =>
    (entityText found.1).map fun text => (text, s.drop (found.1.length + 1))

/-- `decodeEntities`; the first `skip` units belong to the entity before. -/
def decodeFrom : ℕ → CodeUnits → CodeUnits
  | _, [] => []
  | skip + 1, _ :: s => decodeFrom skip s
  | 0, c :: s =>
    if c = 0x26 then
      match decodeEntity s with
      | some (text, next) => text ++ decodeFrom (s.length - next.length) s
      | none => c :: decodeFrom 0 s
    else c :: decodeFrom 0 s

def decodeEntities (value : CodeUnits) : CodeUnits := decodeFrom 0 value

/-! ## Links -/

/-- `[\s\x00-\x1f\x7f-\x9f]`. -/
def isStripped (c : UInt16) : Bool := isWhite c || c ≤ 0x1f || (0x7f ≤ c && c ≤ 0x9f)

/-- `/^(?:https?:|mailto:)/i`. -/
def hasScheme (href : CodeUnits) : Bool :=
  [of "http:", of "https:", of "mailto:"].any fun scheme =>
    toLowerCase (href.take scheme.length) == scheme

def linkTarget (rawHref : CodeUnits) : Option CodeUnits :=
  if MAX_HREF_LENGTH * 2 < rawHref.length then none
  else
    let href := (decodeEntities rawHref).filter fun c => !isStripped c
    if href.length = 0 ∨ MAX_HREF_LENGTH < href.length then none
    else if hasScheme href then some href else none

/-- `target.replace(/^mailto:/i, "")`. -/
def bareTarget (target : CodeUnits) : CodeUnits :=
  if toLowerCase (target.take 7) = of "mailto:" then target.drop 7 else target

/-- `boundedInput`. -/
def boundedInput (html : CodeUnits) : CodeUnits :=
  if html.length ≤ MAX_HTML_INPUT_LENGTH then html else sliceWhole MAX_HTML_INPUT_LENGTH html

/-! ## The loop -/

/-- `OpenLink`. -/
structure OpenLink where
  mark : ℕ
  target : Option CodeUnits
  deriving DecidableEq

/-- The variables of the loop; `run` is the text run not yet written. -/
structure State where
  sink : TextSink
  link : Option OpenLink
  run : CodeUnits
  deriving DecidableEq

namespace State

def new : State := { sink := TextSink.new, link := none, run := [] }

/-- `flush(i)`. -/
def flush (st : State) : State := { st with sink := st.sink.text st.run, run := [] }

/-- The end of a link: its target goes next to its text. -/
def closeLink (sink : TextSink) (link : OpenLink) : TextSink :=
  link.target.elim sink fun target =>
    let text := trim (sink.since link.mark)
    if !sink.wroteSince link.mark then sink.literal target
    else if text ≠ target ∧ text ≠ bareTarget target then
      sink.space.literal (of "(" ++ target ++ of ")")
    else sink

/-- What a tag outside the dropped elements does. -/
def onTag (st : State) (tag : ParsedTag) : State :=
  if tag.name = of "a" then
    if !tag.closing then
      { st with link := some { mark := st.sink.mark, target := tag.href.bind linkTarget } }
    else { st with sink := st.link.elim st.sink (closeLink st.sink), link := none }
  else if tag.name = of "li" then
    if !tag.closing then { st with sink := (st.sink.newline false).marker (of "-") }
    else { st with sink := st.sink.newline false }
  else if tag.name ∈ PARAGRAPH_ELEMENTS then { st with sink := st.sink.newline true }
  else if tag.name ∈ LINE_BREAK_ELEMENTS then { st with sink := st.sink.newline false }
  else if tag.name ∈ CELL_ELEMENTS then { st with sink := st.sink.space }
  else st

end State

/-- A tag from its name on, and what follows it or its dropped element.  A tag or an element that never
ends takes the rest. -/
def tagTurn (st : State) (named : CodeUnits) (closing : Bool) : State × CodeUnits :=
  match parseTag named closing with
  | none => (st, [])
  | some (tag, rest) =>
    if !tag.closing ∧ tag.name ∈ DROPPED_ELEMENTS then (st, (findClosingTag tag.name rest).getD [])
    else (st.onTag tag, rest)

/-- A turn of the loop, with what follows what it read. -/
def turn (st : State) (c : UInt16) (s : CodeUnits) : State × CodeUnits :=
  if c = 0x26 then
    match decodeEntity s with
    | some (text, next) => ({ st.flush with sink := st.flush.sink.text text }, next)
    | none => ({ st.flush with sink := st.flush.sink.text [c] }, s)
  else if c ≠ 0x3c then ({ st with run := st.run ++ [c] }, s)
  else if s.head? = some 0x21 ∨ s.head? = some 0x3f then
    let close := if of "!--" <+: s then cut? (of "-->") (s.drop 3) else cut? [0x3e] (s.drop 1)
    (st.flush, close.elim [] Prod.snd)
  else
    let closing := s.head? == some 0x2f
    let named := if closing then s.drop 1 else s
    if !named.head?.any isLetter then ({ st with run := st.run ++ [c] }, s)
    else tagTurn st.flush named closing

/-- The loop; the first `skip` units belong to the turn before. -/
def walk : ℕ → CodeUnits → State → State
  | _, [], st => st
  | skip + 1, _ :: s, st => walk skip s st
  | 0, c :: s, st =>
    if st.sink.full then st
    else walk (s.length - (turn st c s).2.length) s (turn st c s).1

/-- The last pass: every line and the whole text trimmed. -/
def tidy (s : CodeUnits) : CodeUnits :=
  trim ([0x0a].intercalate ((s.splitOn 0x0a).map trim))

def htmlToText (input : CodeUnits) : CodeUnits :=
  let st := walk 0 (boundedInput input) State.new
  tidy (if st.sink.full then st.sink else st.flush.sink).toString

end BunMail.Emails.HtmlToText
