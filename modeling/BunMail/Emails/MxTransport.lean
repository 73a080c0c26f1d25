import BunMail.Emails.MailerOutcome

/-!
# One SMTP session

`runMxSession` runs the transactions of a session in turn and gives each an outcome: accepted,
with the recipients refused at `RCPT TO`, or failed with what was thrown.  What nodemailer answers
for a transaction, the time left and the session's encryption are inputs.
-/

namespace BunMail.Emails

open SmtpError

/-- One SMTP transaction to an MX: a delivery-state entry and its envelope. -/
structure MxTransaction where
  key : Text
  domain : Text
  recipients : List Text
  envelopeFrom : Text
  deriving DecidableEq

/-- What nodemailer's `sendMail` does: it resolves with the refusals, each error naming its
recipient or not, or throws. -/
inductive NodemailerResult
  | resolved (rejectedErrors : List (Option Text × ErrorObject)) (rejected : List Text)
  | threw (error : Thrown)
  deriving DecidableEq

/-- A transaction's turn in a session. -/
structure SessionTurn where
  /-- The deadline passed before it. -/
  expired : Bool
  result : NodemailerResult
  tls : Option DeliveryTls
  deriving DecidableEq

/-- The prefixes of `TLS_FAILURE_CODE_RE`. -/
def TLS_FAILURE_CODE_PREFIXES : List Text :=
  ["ERR_TLS", "ERR_SSL", "CERT_", "DEPTH_ZERO", "SELF_SIGNED", "UNABLE_TO_",
    "HOSTNAME_MISMATCH"].map String.toList

def isTlsFailureCode (code : Text) : Bool := TLS_FAILURE_CODE_PREFIXES.any (·.isPrefixOf code)

/-- `text.replace(/\s+/g, " ")`. -/
def collapseSpaces : Text → Text
  | [] => []
  | c :: s =>
    if Text.isSpace c then
      match collapseSpaces s with
      | ' ' :: rest => ' ' :: rest
      | rest => ' ' :: rest
    else c :: collapseSpaces s

/-- An enforce-mode TLS failure as an error without an SMTP reply; any other error is returned as
it is. -/
def enforcedTlsFailure (error : Thrown) (mxHost : Text) : Thrown :=
  match error with
  | .error e =>
    let tlsFailure := e.code = some "ETLS".toList || e.command = some "STARTTLS".toList ||
      (e.command = some "EHLO".toList && e.message.tails.any ("STARTTLS".toList.isPrefixOf ·)) ||
      e.code.any isTlsFailureCode || e.originalCode.any isTlsFailureCode
    if tlsFailure then
      .error { message := "MTA-STS: no verified TLS with ".toList ++ mxHost ++ " (".toList ++
        Text.trim (collapseSpaces e.message) ++ ")".toList }
    else error
  | _ => error

/-- The error of a session past its deadline. -/
def sessionDeadlineError (deadlineMs : ℕ) : Thrown :=
  .error { message := "SMTP session exceeded ".toList ++ Text.decimal ((deadlineMs + 500) / 1000) ++
    " s and was closed".toList }

/-- The refusal of an address nodemailer lists without an error. -/
def rejectedWithoutReply : ErrorObject := { message := "Recipient rejected without a reply" }

/-- The recipients an accepted transaction's MX refused: those with an error, and any other
address listed. -/
def rejectedRecipients (rejectedErrors : List (Option Text × ErrorObject)) (rejected : List Text) :
    List RejectedRecipient :=
  let found := rejectedErrors.filterMap fun (recipient, error) => recipient.map (⟨·, error⟩)
  rejected.foldl (fun found recipient =>
    if found.any (·.recipient = recipient) then found
    else found ++ [⟨recipient, rejectedWithoutReply⟩]) found

/-- The outcome of one transaction of a session to `mxHost`. -/
def sessionOutcome (verifiedTls : Bool) (mxHost : Text) (deadlineMs : ℕ) (t : MxTransaction)
    (turn : SessionTurn) : RoutedOutcome :=
  let failed (error : Thrown) : RoutedOutcome :=
    { key := t.key, tls := turn.tls
      error := some (if verifiedTls then enforcedTlsFailure error mxHost else error) }
  if turn.expired then failed (sessionDeadlineError deadlineMs)
  else match turn.result with
    | .threw error => failed error
    | .resolved rejectedErrors rejected =>
      { key := t.key, tls := turn.tls, rejected := rejectedRecipients rejectedErrors rejected }

/-- Runs the transactions of one session: every transaction gets an outcome. -/
def runMxSession (verifiedTls : Bool) (mxHost : Text) (deadlineMs : ℕ)
    (transactions : List MxTransaction) (turn : MxTransaction → SessionTurn) : List RoutedOutcome :=
  transactions.map fun t => sessionOutcome verifiedTls mxHost deadlineMs t (turn t)

theorem sessionOutcome_key {verifiedTls : Bool} {mxHost : Text} {deadlineMs : ℕ} {t : MxTransaction}
    {turn : SessionTurn} : (sessionOutcome verifiedTls mxHost deadlineMs t turn).key = t.key := by
  unfold sessionOutcome
  by_cases he : turn.expired = true
  · simp only [he, if_true]
  · cases hr : turn.result <;> simp only [he]
    all_goals rfl

end BunMail.Emails
