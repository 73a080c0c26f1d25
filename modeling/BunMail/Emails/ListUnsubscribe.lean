import BunMail.Suppressions.UnsubscribeToken

/-!
# The unsubscribe header

`listUnsubscribeOptions` puts a one-click link for the only recipient into an email's header where it
can, and the static settings of the sender's domain elsewhere.  `oneClickBlocker` says beforehand what
keeps an email from carrying the link; marketing email is refused while something does.
-/

namespace BunMail.Unsubscribe

open Recipients EmailTokens Text

/-- What is read of a parsed URL. -/
structure Url where
  protocol : Text
  search : Text
  hash : Text

/-- `ListUnsubscribeDomain`. -/
structure ListUnsubscribeDomain where
  unsubscribeEmail : Option Text
  unsubscribeUrl : Option Text

/-- `ListUnsubscribeSettings`. -/
structure ListUnsubscribeSettings where
  appBaseUrl : Text
  inboundSmtp : Bool

/-- `UnsubscribeOptions`: the address is left out when it is `some none`, the default when absent. -/
structure UnsubscribeOptions where
  mailto : Option (Option Text)
  url : Option Text
  deriving DecidableEq

/-- What keeps an email from carrying the link. -/
inductive Blocker
  | recipients | app_base_url
  deriving DecidableEq, Repr

/-- `EmailCategory`. -/
inductive EmailCategory
  | transactional | marketing
  deriving DecidableEq, Repr

section Header

variable {τ : Type} (toLowerCase : Text → Text) (hmac : Hmac) (parseUrl : Text → Option Url)

/-- `APP_BASE_URL` when it can carry a one-click link. -/
def oneClickBaseUrl (appBaseUrl : Text) : Option Text :=
  let base := (trim appBaseUrl).rdropWhile (· = '/')
  match parseUrl base with
  | none => none
  | some url =>
    if url.protocol ≠ "https:" ∨ url.search ≠ [] ∨ url.hash ≠ [] then none else some base

/-- What keeps an email with these recipients from carrying the link. -/
def oneClickBlocker (to_ : Text) (cc bcc : Option Text) (appBaseUrl : Text) : Option Blocker :=
  if soleRecipient toLowerCase to_ cc bcc = none then some .recipients
  else if oneClickBaseUrl parseUrl appBaseUrl = none then some .app_base_url
  else none

/-- The static options of the domain; an empty text counts as absent. -/
def staticOptions (domain : Option ListUnsubscribeDomain) : Option UnsubscribeOptions :=
  domain.bind fun d =>
    if d.unsubscribeEmail.getD [] = [] ∧ d.unsubscribeUrl.getD [] = [] then none
    else some ⟨d.unsubscribeEmail.map some, d.unsubscribeUrl⟩

/-- The options with the one-click link. -/
def oneClickOptions (base token senderDomain : Text) (domain : Option ListUnsubscribeDomain)
    (settings : ListUnsubscribeSettings) : UnsubscribeOptions where
  url := some (base ++ "/u/" ++ token)
  mailto := some (if settings.inboundSmtp then some (unsubscribeLocalPart token ++ '@' :: senderDomain)
    else domain.bind ListUnsubscribeDomain.unsubscribeEmail)

/-- The unsubscribe options for one email. -/
def listUnsubscribeOptions (email : EmailRow τ) (domain : Option ListUnsubscribeDomain)
    (settings : ListUnsubscribeSettings) : Option UnsubscribeOptions :=
  match oneClickBaseUrl parseUrl settings.appBaseUrl,
    soleRecipient toLowerCase email.toAddress email.cc email.bcc,
    domainAfterAt toLowerCase email.fromAddress with
  | some base, some recipient, some senderDomain =>
    match mintUnsubscribeToken toLowerCase hmac ⟨email.id, recipient⟩ with
    | none => staticOptions domain
    | some token => some (oneClickOptions base token senderDomain domain settings)
  | _, _, _ => staticOptions domain

/-- The check of a send's category, on the recipients as they are stored. -/
def marketingBlocker (category : Option EmailCategory) (to_ : Text) (cc bcc : Option Text)
    (appBaseUrl : Text) : Option Blocker :=
  if category = some .marketing then oneClickBlocker toLowerCase parseUrl to_ cc bcc appBaseUrl else none

/-- What an attempt at an email of a category hands to the mailer. -/
def attemptOptions (category : Option EmailCategory) (email : EmailRow τ)
    (domain : Option ListUnsubscribeDomain) (settings : ListUnsubscribeSettings) :
    Option UnsubscribeOptions :=
  if category = some .transactional then none
  else listUnsubscribeOptions toLowerCase hmac parseUrl email domain settings

end Header

end BunMail.Unsubscribe
