import BunMail.Lib.Table
import BunMail.Lib.Keyspace
import BunMail.Lib.SortedSets
import BunMail.Lib.Run
import BunMail.Lib.Timed
import BunMail.Lib.Text
import BunMail.Lib.Transactions
import BunMail.Suppressions.Suppression
import BunMail.Suppressions.Precedence
import BunMail.Suppressions.SharedGate
import BunMail.Emails.Schema
import BunMail.Emails.QueueClaim
import BunMail.Emails.QueueFencing
import BunMail.Utils.Recipients
import BunMail.Emails.MailerState
import BunMail.Utils.SmtpError
import BunMail.Emails.MailerOutcome
import BunMail.Emails.MxTransport
import BunMail.Emails.MxRoute
import BunMail.Emails.MtaSts
import BunMail.Emails.Mailer
import BunMail.Emails.Sessions
import BunMail.Emails.QueueDecision
import BunMail.Emails.QueueSend
import BunMail.Emails.DeliverySteps
import BunMail.Emails.Conservation
import BunMail.Emails.RefileOrder
import BunMail.Emails.Settled
import BunMail.Emails.QueueOutbox
import BunMail.Emails.RecipientReplies
import BunMail.Emails.QueueRun
import BunMail.Emails.RowLedger
import BunMail.Emails.RowOutcomes
import BunMail.Emails.Attempts
import BunMail.Emails.Tombstone
import BunMail.Emails.TombstoneComplete
import BunMail.Webhooks.Delivery
import BunMail.Webhooks.StaleAttempts
import BunMail.Users.Schema
import BunMail.Users.SsoOwnerRule
import BunMail.Users.OwnerSecondFactor
import BunMail.ApiKeys.KeyActions
import BunMail.ApiKeys.Privilege
import BunMail.Users.Directory
import BunMail.Users.SingleOwner
import BunMail.Users.Tokens
import BunMail.Users.ResetLinks
import BunMail.Users.Session
import BunMail.Users.PasswordReplacement
import BunMail.Users.SessionBinding
import BunMail.Utils.TokenBuckets
import BunMail.Utils.TokenPacing
import BunMail.Utils.WindowCounters
import BunMail.Utils.WindowViews
import BunMail.Utils.WindowLawful
import BunMail.Utils.WindowAgreement
import BunMail.Utils.SharedCounter
import BunMail.Utils.SharedRefunds
import BunMail.SmtpSubmission.AuthThrottle
import BunMail.Utils.SlotSemaphores
import BunMail.Utils.SlotLine
import BunMail.Utils.SlotScripts
import BunMail.TlsRpt.SendSlots
import BunMail.TlsRpt.DailyCaps
import BunMail.Lib.Calendar
import BunMail.Domains.DkimKeys
import BunMail.Domains.CheckState
import BunMail.Domains.Rotation
import BunMail.Domains.Verification
import BunMail.Domains.VerifiedFlags
import BunMail.Domains.RotatedKeys
import BunMail.Emails.FailoverLog
import BunMail.Emails.FailoverOnce
import BunMail.Emails.FailoverDeferrals
import BunMail.Emails.Deferrals
import BunMail.Lib.LowerCase
import BunMail.Lib.Fields
import BunMail.Utils.EmailTokens
import BunMail.Bounces.ReturnPath
import BunMail.Bounces.ReturnPathBinding
import BunMail.Suppressions.UnsubscribeToken
import BunMail.Emails.ListUnsubscribe
import BunMail.Emails.UnsubscribeLinks
import BunMail.Bounces.BounceHandler
import BunMail.Bounces.ConcurrentBounces
import BunMail.Bounces.SequentialBounces
import BunMail.Utils.RecipientLists
import BunMail.SmtpSubmission.MessageMapper
import BunMail.SmtpSubmission.Envelope
import BunMail.Users.FactorEnrolment
import BunMail.Users.SingleFactorSessions
import BunMail.Lib.Faults
import BunMail.SmtpSubmission.SubmissionData
import BunMail.SmtpSubmission.AllOrNothing
import BunMail.Emails.SendReads
import BunMail.Emails.SendOutages
import BunMail.Emails.PermanentReplies
import BunMail.TlsRpt.ReportRecord
import BunMail.TlsRpt.ReportDelivery
import BunMail.TlsRpt.ReportRuns
import BunMail.Lib.IpText
import BunMail.Utils.SsrfGuard
import BunMail.Utils.SsrfParse
import BunMail.Utils.SsrfVerdict
import BunMail.Utils.DnsExact
import BunMail.Domains.SpfParser
import BunMail.Emails.FairClaim
import BunMail.Emails.QueueWorker
import BunMail.Utils.MxLocksExact
import BunMail.Templates.RenderTemplate
import BunMail.Inbound.ThreadingExact
import BunMail.Lib.FixedWindow
import BunMail.Middleware.RateLimitCore
import BunMail.Inbound.NotifyThrottle
import BunMail.Inbound.NotifyBudgets
import BunMail.Emails.MtaStsTxt
import BunMail.Emails.MtaStsPolicyFile
import BunMail.Emails.CustomHeaders
import BunMail.Emails.MailOptions
import BunMail.Emails.HtmlToTextExact
import BunMail.Users.Base32
import BunMail.Emails.CanonicalJson
import BunMail.Domains.SpfAddressExact
import BunMail.Emails.DkimSigner
import BunMail.TlsRpt.AggregateExact
import BunMail.Emails.MtaStsKept
import BunMail.Emails.IdempotentOnce
import BunMail.Users.SecondFactorOnce
import BunMail.Users.InvitationsOnce
import BunMail.Emails.DkimVerified
import BunMail.Domains.SpfBounds
import BunMail.Users.SessionReuse
