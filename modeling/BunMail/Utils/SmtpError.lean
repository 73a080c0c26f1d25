import BunMail.Emails.Schema

/-!
# SMTP replies

The classification of a failed send.  `classifySendFailure` reads what the server replied: the
reply nodemailer put on the error, or a line of the message that starts with a reply code.
`parseSmtpError` finds a status code anywhere in a text, for entries stored before the
classification was.
-/

namespace BunMail.SmtpError

open Emails (FailureKind)

/-- An `Error`, with the properties nodemailer and the runtime put on it. -/
structure ErrorObject where
  message : Text
  responseCode : Option ℕ := none
  response : Option Text := none
  code : Option Text := none
  originalCode : Option Text := none
  command : Option Text := none
  deriving DecidableEq

/-- What a `catch` catches. -/
inductive Thrown
  | error (e : ErrorObject)
  | text (s : Text)
  | other
  deriving DecidableEq

/-- `ParsedSmtpError`. -/
structure ParsedSmtpError where
  kind : FailureKind
  code : Text
  deriving DecidableEq

/-! ## Characters and words -/

/-- The class `[245]`. -/
def isStatusClass (c : Char) : Bool := c = '2' || c = '4' || c = '5'

/-- A character of `\w`. -/
def isWordChar (c : Char) : Bool := c.isAlphanum || c = '_'

/-- A line terminator: `^` and `$` match around it and `.` does not match it. -/
def isLineEnd (c : Char) : Bool := c = '\n' || c = '\r' || c = '\u2028' || c = '\u2029'

/-- The lines of a text, for the flag `m`. -/
def lines (s : Text) : List Text := s.splitOnP isLineEnd

/-- ASCII lowercase: the flag `i` folds no other character to an ASCII one. -/
def fold (s : Text) : Text := s.map Char.toLower

/-- The alternatives of `SENDER_BLOCK_RE`. -/
def SENDER_BLOCK_WORDS : List Text :=
  ["blocked", "blocklist", "blacklist", "black list", "spamhaus", "spamcop", "barracuda",
    "reputation", "not authenticated", "unauthenticated", "spf", "dkim", "dmarc", "banned",
    "denied by policy", "policy rejection"].map String.toList

/-- The alternatives of `RECIPIENT_UNKNOWN_RE`. -/
def RECIPIENT_UNKNOWN_WORDS : List Text :=
  ["does not exist", "user unknown", "unknown user", "no such user", "mailbox unavailable",
    "mailbox not found", "recipient unknown", "recipient not found", "recipient rejected"].map
    String.toList

/-- The word stands at the start of the text and ends at a word boundary. -/
def wordAt (w s : Text) : Bool := w.isPrefixOf s && !(s.drop w.length).head?.any isWordChar

/-- Some alternative stands between word boundaries; `inWord` says the character before the text
is a word character. -/
def testWords (words : List Text) (inWord : Bool) : Text → Bool
  | [] => false
  | c :: s => (!inWord && words.any (wordAt · (c :: s))) || testWords words (isWordChar c) s

/-- `SENDER_BLOCK_RE.test(text)`. -/
def SENDER_BLOCK_RE (text : Text) : Bool := testWords SENDER_BLOCK_WORDS false (fold text)

/-- `RECIPIENT_UNKNOWN_RE.test(text)`. -/
def RECIPIENT_UNKNOWN_RE (text : Text) : Bool :=
  (fold text).tails.any fun s => RECIPIENT_UNKNOWN_WORDS.any (·.isPrefixOf s)

/-! ## Status codes -/

/-- `\d{1,3}` followed by something that is no digit, and what follows. -/
def digits3 (s : Text) : Option (Text × Text) :=
  let d := s.takeWhile Char.isDigit
  if 1 ≤ d.length ∧ d.length ≤ 3 then some (d, s.dropWhile Char.isDigit) else none

/-- An enhanced status code: its three numbers. -/
structure Enhanced where
  cls : Char
  subject : Text
  detail : Text
  deriving DecidableEq

/-- `5.1.1`. -/
def Enhanced.text (e : Enhanced) : Text := e.cls :: '.' :: e.subject ++ '.' :: e.detail

/-- `([245])\.(\d{1,3})\.(\d{1,3})` at the start of the text, and what follows. -/
def enhancedAt : Text → Option (Enhanced × Text)
  | c :: '.' :: s =>
    if isStatusClass c then
      match digits3 s with
      | some (subject, '.' :: s') => (digits3 s').map fun (detail, rest) => (⟨c, subject, detail⟩, rest)
      | _ => none
    else none
  | _ => none

/-- What `REPLY_LINE_RE` captures. -/
structure ReplyLine where
  text : Text
  basic : Text
  enhanced : Option Enhanced
  deriving DecidableEq

/-- `REPLY_LINE_RE` on one line. -/
def replyLine (line : Text) : Option ReplyLine :=
  match line with
  | a :: b :: c :: sep :: rest =>
    if isStatusClass a && b.isDigit && c.isDigit && (sep = ' ' || sep = '-') then
      some ⟨line, [a, b, c],
        match enhancedAt rest with
        | some (e, after) => if after.head?.all Text.isSpace then some e else none
        | none => none⟩
    else none
  | _ => none

/-- `reply.match(REPLY_LINE_RE)`: the first line that is a reply. -/
def matchReplyLine (reply : Text) : Option ReplyLine := (lines reply).findSome? replyLine

/-- `response.replace(/^\d{3}[ -]/, "")`. -/
def withoutCode : Text → Text
  | s@(a :: b :: c :: sep :: rest) =>
    if a.isDigit && b.isDigit && c.isDigit && (sep = ' ' || sep = '-') then rest else s
  | s => s

/-- The reply `classifySendFailure` reads. -/
def replyOf (e : ErrorObject) : Text :=
  match e.responseCode with
  | some code => Text.decimal code ++ ' ' :: (e.response.map withoutCode).getD []
  | none => e.message

/-- Classifies one reply line. -/
def classifyLine (line : ReplyLine) : Option ParsedSmtpError :=
  let cls := (line.enhanced.map Enhanced.cls).getD (line.basic.headD ' ')
  if cls = '4' then some ⟨.soft, (line.enhanced.map Enhanced.text).getD "4.0.0"⟩
  else if cls ≠ '5' then none
  else
    let policy := (line.enhanced.any (·.subject = ['7']) || SENDER_BLOCK_RE line.text) &&
      !RECIPIENT_UNKNOWN_RE line.text
    if policy then some ⟨.policy, (line.enhanced.map Enhanced.text).getD "5.7.0"⟩
    else some ⟨.hard, (line.enhanced.map Enhanced.text).getD "5.0.0"⟩

/-- Classifies a failed send from the SMTP reply; `none` without one. -/
def classifySendFailure : Thrown → Option ParsedSmtpError
  | .error e => (matchReplyLine (replyOf e)).bind classifyLine
  | .text _ | .other => none

/-! ## Stored texts -/

/-- `ENHANCED_STATUS_RE`: the first enhanced code that is no part of a longer dotted number.
`glued` says the character before the text is a digit or a dot. -/
def matchEnhanced (glued : Bool) : Text → Option Enhanced
  | [] => none
  | c :: s =>
    match if glued then none else enhancedAt (c :: s) with
    | some (e, after) =>
      if after.head?.all (fun d => d ≠ '.' && !d.isDigit) then some e
      else matchEnhanced (c.isDigit || c = '.') s
    | none => matchEnhanced (c.isDigit || c = '.') s

/-- `([245]\d{2})(?![.\d])` at the start of the text. -/
def basicAt : Text → Option Char
  | a :: b :: c :: rest =>
    if isStatusClass a && b.isDigit && c.isDigit && rest.head?.all (fun d => d ≠ '.' && !d.isDigit)
    then some a else none
  | _ => none

/-- `BASIC_STATUS_RE`: the class of the first basic code that is no part of an address or a
port. -/
def matchBasic (glued : Bool) : Text → Option Char
  | [] => none
  | c :: s =>
    (if glued then none else basicAt (c :: s)) <|> matchBasic (c.isDigit || c = '.' || c = ':') s

/-- The classification of a stored error text. -/
def parseSmtpError (message : Text) : Option ParsedSmtpError :=
  match matchEnhanced false message with
  | some e =>
    if e.cls = '4' then some ⟨.soft, e.text⟩
    else if e.cls ≠ '5' then none
    else
      let policy := e.subject = ['7'] || SENDER_BLOCK_RE message
      some ⟨if policy && !RECIPIENT_UNKNOWN_RE message then .policy else .hard, e.text⟩
  | none =>
    match matchBasic false message with
    | some '5' =>
      if SENDER_BLOCK_RE message && !RECIPIENT_UNKNOWN_RE message then some ⟨.policy, "5.7.0"⟩
      else some ⟨.hard, "5.0.0"⟩
    | some '4' => some ⟨.soft, "4.0.0"⟩
    | _ => none

example : parseSmtpError "connect ECONNREFUSED 5.6.7.8:25" = none := by decide

example : classifySendFailure (.error { message := [], responseCode := some 550, response := "550 5.1.1 No such user".toList }) =
    some ⟨.hard, "5.1.1"⟩ := by decide

example : classifySendFailure (.error ⟨"554 5.7.1 Blocked by Spamhaus", none, none, none, none, none⟩) =
    some ⟨.policy, "5.7.1"⟩ := by decide

end BunMail.SmtpError
