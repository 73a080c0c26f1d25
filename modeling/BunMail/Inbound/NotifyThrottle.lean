import BunMail.Lib.Run
import BunMail.Middleware.RateLimitCore

/-!
# The budgets of the inbound notifications

`notify-throttle.ts`: a notification needs a slot of its recipient's address and one of its domain.  A
message over either budget is counted instead, and the next notification of its address reports the count.
-/

namespace BunMail.Inbound

open FixedWindow Middleware

/-- Notifications per recipient address per window. -/
def NOTIFY_THROTTLE_MAX : ℕ := 5

/-- Notifications per recipient domain per window. -/
def NOTIFY_DOMAIN_THROTTLE_MAX : ℕ := 30

/-- Length of a throttle window: 10 minutes. -/
def NOTIFY_THROTTLE_WINDOW_MS : ℕ := 10 * 60 * 1000

/-- How long an unreported count is kept: a day. -/
def SKIPPED_RETENTION_MS : ℕ := 24 * 60 * 60 * 1000

/-- `SkippedNotifications`. -/
structure SkippedNotifications where
  count : ℕ
  since : Time
  deriving DecidableEq

/-- The `limitedBy` of a decision. -/
inductive Budget where
  | address
  | domain
  deriving DecidableEq

/-- `NotifyThrottleDecision`. -/
inductive NotifyThrottleDecision where
  | notify (skipped : Option SkippedNotifications)
  | skip (limitedBy : Budget) (firstInWindow : Bool)
  deriving DecidableEq

/-- `isSpent`. -/
def isSpent (map : RateLimits Text) (key : Text) (now : Time) (max : ℕ) : Bool :=
  (map key).any fun e => !e.expired now NOTIFY_THROTTLE_WINDOW_MS && decide (max ≤ e.count)

/-- `NotifyThrottle`. -/
structure NotifyThrottle where
  addresses : RateLimits Text
  domains : RateLimits Text
  skipped : Text → Option SkippedNotifications

/-- `key.slice(key.lastIndexOf("@") + 1)`. -/
def domainOf (key : Text) : Text := Text.afterLast '@' key

namespace NotifyThrottle

variable (toLowerCase : Text → Text) (t : NotifyThrottle) (now : Time)

/-- A new one. -/
def new : NotifyThrottle := ⟨fun _ => none, fun _ => none, fun _ => none⟩

/-- `recordSkipped`. -/
def recordSkipped (key : Text) : NotifyThrottle :=
  let counted := (t.skipped key).elim ⟨1, now⟩ fun pending => { pending with count := pending.count + 1 }
  { t with skipped := Function.update t.skipped key (some counted) }

/-- `check`. -/
def check (recipient : Text) : NotifyThrottleDecision × NotifyThrottle :=
  let key := toLowerCase recipient
  let domain := domainOf key
  let addressOptions : RateLimitOptions := ⟨NOTIFY_THROTTLE_MAX, NOTIFY_THROTTLE_WINDOW_MS⟩
  if isSpent t.addresses key now NOTIFY_THROTTLE_MAX then
    let decision := checkRateLimit t.addresses key now addressOptions 1
    (.skip .address (decision.1.count? == some (NOTIFY_THROTTLE_MAX + 1)),
      { t with addresses := decision.2 }.recordSkipped now key)
  else
    let domainDecision := checkRateLimit t.domains domain now
      ⟨NOTIFY_DOMAIN_THROTTLE_MAX, NOTIFY_THROTTLE_WINDOW_MS⟩ 1
    if domainDecision.1.isLimited then
      (.skip .domain (domainDecision.1.count? == some (NOTIFY_DOMAIN_THROTTLE_MAX + 1)),
        { t with domains := domainDecision.2 }.recordSkipped now key)
    else
      let pending := t.skipped key
      (.notify pending, {
        addresses := (checkRateLimit t.addresses key now addressOptions 1).2
        domains := domainDecision.2
        skipped := Function.update t.skipped key none })

/-- `prune`. -/
def prune : NotifyThrottle where
  addresses := pruneExpiredEntries t.addresses now NOTIFY_THROTTLE_WINDOW_MS
  domains := pruneExpiredEntries t.domains now NOTIFY_THROTTLE_WINDOW_MS
  skipped key := (t.skipped key).filter fun pending =>
    !decide (pending.since + SKIPPED_RETENTION_MS ≤ now)

end NotifyThrottle

/-! ## Runs -/

/-- A message that was checked. -/
structure Checked where
  key : Text
  time : Time
  decision : NotifyThrottleDecision
  deriving DecidableEq

/-- The throttle, the time, and the messages checked so far, newest first. -/
structure World where
  throttle : NotifyThrottle
  now : Time
  log : List Checked

/-- What is called. -/
inductive Call where
  | check (recipient : Text) (now : Time)
  | prune (now : Time)
  deriving DecidableEq

/-- When. -/
def Call.time : Call → Time
  | .check _ now => now
  | .prune now => now

namespace World

variable (toLowerCase : Text → Text)

/-- Before any call. -/
def idle : World := ⟨.new, 0, []⟩

/-- One call. -/
def step (s : World) : Call → World
  | .check recipient now =>
    let answer := s.throttle.check toLowerCase now recipient
    ⟨answer.2, now, ⟨toLowerCase recipient, now, answer.1⟩ :: s.log⟩
  | .prune now => { s with throttle := s.throttle.prune now, now := now }

/-- The clock does not go back. -/
def InOrder (s : World) (c : Call) : Prop := s.now ≤ c.time

/-- The call does not prune a count of the address that is older than the retention. -/
def Keeps (key : Text) (s : World) : Call → Prop
  | .check _ _ => True
  | .prune now => ∀ pending ∈ s.throttle.skipped key, now < pending.since + SKIPPED_RETENTION_MS

instance (s : World) (c : Call) : Decidable (s.InOrder c) := Nat.decLe s.now c.time

instance Keeps.decidable (key : Text) (s : World) : (c : Call) → Decidable (s.Keeps key c)
  | .check _ _ => isTrue trivial
  | .prune now => inferInstanceAs
      (Decidable (∀ pending ∈ s.throttle.skipped key, now < pending.since + SKIPPED_RETENTION_MS))

/-- The state after the calls. -/
def after (calls : List Call) : World := Run.run (step toLowerCase) idle calls

end World

/-- The address and the time of a message. -/
def Call.message? (toLowerCase : Text → Text) : Call → Option (Text × Time)
  | .check recipient now => some (toLowerCase recipient, now)
  | .prune _ => none

/-- The messages of the calls. -/
def messages (toLowerCase : Text → Text) (calls : List Call) : List (Text × Time) :=
  calls.filterMap (·.message? toLowerCase)

/-! ## What the messages so far say -/

/-- The slots of a budget. -/
def Budget.max : Budget → ℕ
  | .address => NOTIFY_THROTTLE_MAX
  | .domain => NOTIFY_DOMAIN_THROTTLE_MAX

/-- What a budget counts a message under. -/
def Budget.scope : Budget → Text → Text
  | .address, key => key
  | .domain, key => domainOf key

/-- Which budget is spent, when the message is skipped. -/
def NotifyThrottleDecision.limitedBy? : NotifyThrottleDecision → Option Budget
  | .notify _ => none
  | .skip limitedBy _ => some limitedBy

/-- The `firstInWindow` of a decision. -/
def NotifyThrottleDecision.isFirst : NotifyThrottleDecision → Bool
  | .notify _ => false
  | .skip _ firstInWindow => firstInWindow

/-- The messages a decision reports as skipped. -/
def NotifyThrottleDecision.reported : NotifyThrottleDecision → ℕ
  | .notify skipped => skipped.elim 0 (·.count)
  | .skip _ _ => 0

section Log

variable (b : Budget) (scope key : Text) (log : List Checked) (now : Time)

/-- The times of the notified messages that a budget counts under `scope`. -/
def notifiedIn : List Time :=
  (log.filter fun r => b.scope r.key = scope ∧ r.decision.limitedBy? = none).map (·.time)

/-- The times of the messages that the budget refused under `scope`. -/
def refusedIn : List Time :=
  (log.filter fun r => b.scope r.key = scope ∧ r.decision.limitedBy? = some b).map (·.time)

/-- The budget is spent in its current window. -/
def Spent : Prop := b.max ≤ used NOTIFY_THROTTLE_WINDOW_MS (notifiedIn b (b.scope key) log) now

/-- The budget refused no message in its current window. -/
def NoneRefused : Prop :=
  ∀ w ∈ current NOTIFY_THROTTLE_WINDOW_MS (notifiedIn b (b.scope key) log) now,
    count NOTIFY_THROTTLE_WINDOW_MS w (refusedIn b (b.scope key) log) = 0

/-- The messages skipped since the last notification of the address. -/
def pendingOf : List Checked → Option SkippedNotifications
  | [] => none
  | r :: earlier =>
    if r.key = key then
      r.decision.limitedBy?.bind fun _ => some ((pendingOf earlier).elim ⟨1, r.time⟩ fun pending =>
        { pending with count := pending.count + 1 })
    else pendingOf earlier

/-- The messages of an address. -/
def messagesOf : List Checked := log.filter (·.key = key)

end Log

end BunMail.Inbound
