import BunMail.Inbound.NotifyThrottle

/-!
# The notification budgets over whole runs

The two counters follow the messages so far: what a budget has notified in the current window of an address
or a domain, and what it has refused.  A decision is therefore a function of the messages before it.
-/

namespace BunMail.Inbound

open FixedWindow Middleware

/-! ## One message more -/

section Views

variable {b : Budget} {scope key : Text} {log earlier : List Checked} {r : Checked} {now : Time}

theorem notifiedIn_cons : notifiedIn b scope (r :: log) =
    if b.scope r.key = scope ∧ r.decision.limitedBy? = none then r.time :: notifiedIn b scope log
    else notifiedIn b scope log := by
  unfold notifiedIn
  rw [List.filter_cons]
  simp only [decide_eq_true_eq]
  split <;> rfl

theorem refusedIn_cons : refusedIn b scope (r :: log) =
    if b.scope r.key = scope ∧ r.decision.limitedBy? = some b then r.time :: refusedIn b scope log
    else refusedIn b scope log := by
  unfold refusedIn
  rw [List.filter_cons]
  simp only [decide_eq_true_eq]
  split <;> rfl

theorem messagesOf_cons : messagesOf key (r :: log) =
    if r.key = key then r :: messagesOf key log else messagesOf key log := by
  unfold messagesOf
  rw [List.filter_cons]
  simp only [decide_eq_true_eq]

theorem pendingOf_of_ne (h : r.key ≠ key) : pendingOf key (r :: log) = pendingOf key log := by
  rw [pendingOf, if_neg h]

theorem pendingOf_of_notified (h : r.decision.limitedBy? = none) (hkey : r.key = key) :
    pendingOf key (r :: log) = none := by
  rw [pendingOf, if_pos hkey, h]
  rfl

theorem pendingOf_of_skipped (h : r.decision.limitedBy? = some b) (hkey : r.key = key) :
    pendingOf key (r :: log) = some ((pendingOf key log).elim ⟨1, r.time⟩ fun pending =>
      { pending with count := pending.count + 1 }) := by
  rw [pendingOf, if_pos hkey, h]
  rfl

end Views

/-! ## What the counters hold -/

/-- The counter of a budget. -/
def NotifyThrottle.counter (t : NotifyThrottle) : Budget → RateLimits Text
  | .address => t.addresses
  | .domain => t.domains

/-- The counters follow the messages. -/
def Follows (t : NotifyThrottle) (log : List Checked) (now : Time) : Prop :=
  ∀ b scope, Tracks b.max NOTIFY_THROTTLE_WINDOW_MS (notifiedIn b scope log) (refusedIn b scope log) now
    (t.counter b scope)

section Check

variable {toLowerCase : Text → Text} {t : NotifyThrottle} {log : List Checked} {now : Time}
  {recipient key : Text} {b : Budget}

theorem Budget.max_pos (b : Budget) : 0 < b.max := by cases b <;> decide

theorem window_pos : 0 < NOTIFY_THROTTLE_WINDOW_MS := by decide

theorem follows_new : Follows .new [] now := fun b _ => by cases b <;> exact Tracks.nothing

theorem Follows.mono {later : Time} (h : Follows t log now) (hle : now ≤ later) :
    Follows t log later := fun b scope => (h b scope).mono hle

theorem Follows.prune (h : Follows t log now) : Follows (t.prune now) log now := fun b scope => by
  cases b with
  | address => exact (h .address scope).prune
  | domain => exact (h .domain scope).prune

/-- **The probe.** -/
theorem isSpent_iff {map : RateLimits Text} {max : ℕ} {taken refused : List Time} (hmax : 0 < max)
    (h : Tracks max NOTIFY_THROTTLE_WINDOW_MS taken refused now (map key)) :
    isSpent map key now max = true ↔ max ≤ used NOTIFY_THROTTLE_WINDOW_MS taken now := by
  unfold isSpent
  rw [Option.any_eq_true]
  constructor
  · rintro ⟨e, he, hspent⟩
    rw [Bool.and_eq_true, Bool.not_eq_true', expired_eq_false, decide_eq_true_iff] at hspent
    have hcur := (he ▸ h).current_of_live hspent.1
    rw [used_eq_of_some hcur]
    by_cases hzero : FixedWindow.count NOTIFY_THROTTLE_WINDOW_MS e.windowStart refused = 0
    · have := h.count e he
      omega
    · exact h.full e he hzero
  · intro hfull
    cases hcur : current NOTIFY_THROTTLE_WINDOW_MS taken now with
    | none => rw [used_eq_zero hcur] at hfull; omega
    | some w =>
      obtain ⟨e, he, rfl, hlive⟩ := h.entry_of_current hcur
      refine ⟨e, he, ?_⟩
      rw [Bool.and_eq_true, Bool.not_eq_true', expired_eq_false, decide_eq_true_iff]
      rw [used_eq_of_some hcur] at hfull
      have := h.count e he
      exact ⟨hlive, by omega⟩

theorem Follows.isSpent_address (h : Follows t log now) :
    isSpent t.addresses key now NOTIFY_THROTTLE_MAX = true ↔ Spent .address key log now :=
  isSpent_iff (by decide) (h .address key : Tracks NOTIFY_THROTTLE_MAX _ _ _ _ (t.addresses key))

/-- What the refusal of a spent budget says of the messages before it. -/
theorem first_iff {count? : Option ℕ} {w : ℕ}
    (hcur : current NOTIFY_THROTTLE_WINDOW_MS (notifiedIn b (b.scope key) log) now = some w)
    (hcount : count? = some (b.max + 1 +
      FixedWindow.count NOTIFY_THROTTLE_WINDOW_MS w (refusedIn b (b.scope key) log))) :
    (count? == some (b.max + 1)) = true ↔ NoneRefused b key log now := by
  unfold NoneRefused
  rw [hcur, hcount, beq_iff_eq, Option.some_inj]
  simp only [Option.mem_some_iff, forall_eq']
  omega

/-- **The address is spent.** -/
theorem check_of_address (h : Follows t log now)
    (hspent : Spent .address (toLowerCase recipient) log now) : ∃ first e,
    t.check toLowerCase now recipient = (.skip .address first,
      { t with addresses := Function.update t.addresses (toLowerCase recipient) (some e) }.recordSkipped
        now (toLowerCase recipient)) ∧
    (first = true ↔ NoneRefused .address (toLowerCase recipient) log now) ∧
    Tracks NOTIFY_THROTTLE_MAX NOTIFY_THROTTLE_WINDOW_MS
      (notifiedIn .address (toLowerCase recipient) log)
      (now :: refusedIn .address (toLowerCase recipient) log) now (some e) := by
  obtain ⟨-, w, hcur, hcount, e, he, hnext⟩ :=
    checkRateLimit_of_full (h .address (toLowerCase recipient)) (by decide) hspent
  refine ⟨_, e, ?_, first_iff (b := .address) hcur hcount, hnext⟩
  unfold NotifyThrottle.check
  refine (if_pos (h.isSpent_address.mpr hspent)).trans ?_
  exact congrArg (fun map => (_, NotifyThrottle.recordSkipped { t with addresses := map } now _)) he

/-- **The domain is spent.** -/
theorem check_of_domain (h : Follows t log now)
    (hroom : ¬Spent .address (toLowerCase recipient) log now)
    (hspent : Spent .domain (toLowerCase recipient) log now) : ∃ first e,
    t.check toLowerCase now recipient = (.skip .domain first,
      { t with domains := Function.update t.domains (domainOf (toLowerCase recipient)) (some e)
        }.recordSkipped now (toLowerCase recipient)) ∧
    (first = true ↔ NoneRefused .domain (toLowerCase recipient) log now) ∧
    Tracks NOTIFY_DOMAIN_THROTTLE_MAX NOTIFY_THROTTLE_WINDOW_MS
      (notifiedIn .domain (domainOf (toLowerCase recipient)) log)
      (now :: refusedIn .domain (domainOf (toLowerCase recipient)) log) now (some e) := by
  obtain ⟨hlimited, w, hcur, hcount, e, he, hnext⟩ :=
    checkRateLimit_of_full (h .domain (domainOf (toLowerCase recipient))) (by decide) hspent
  refine ⟨_, e, ?_, first_iff (b := .domain) hcur hcount, hnext⟩
  unfold NotifyThrottle.check
  refine (if_neg (mt h.isSpent_address.mp hroom)).trans ((if_pos hlimited).trans ?_)
  exact congrArg (fun map => (_, NotifyThrottle.recordSkipped { t with domains := map } now _)) he

/-- **Neither is spent.** -/
theorem check_of_room (h : Follows t log now)
    (haddress : ¬Spent .address (toLowerCase recipient) log now)
    (hdomain : ¬Spent .domain (toLowerCase recipient) log now) : ∃ e e',
    t.check toLowerCase now recipient = (.notify (t.skipped (toLowerCase recipient)), {
      addresses := Function.update t.addresses (toLowerCase recipient) (some e)
      domains := Function.update t.domains (domainOf (toLowerCase recipient)) (some e')
      skipped := Function.update t.skipped (toLowerCase recipient) none }) ∧
    Tracks NOTIFY_THROTTLE_MAX NOTIFY_THROTTLE_WINDOW_MS
      (now :: notifiedIn .address (toLowerCase recipient) log)
      (refusedIn .address (toLowerCase recipient) log) now (some e) ∧
    Tracks NOTIFY_DOMAIN_THROTTLE_MAX NOTIFY_THROTTLE_WINDOW_MS
      (now :: notifiedIn .domain (domainOf (toLowerCase recipient)) log)
      (refusedIn .domain (domainOf (toLowerCase recipient)) log) now (some e') := by
  obtain ⟨-, e, he, hnext⟩ := checkRateLimit_of_room window_pos (h .address (toLowerCase recipient))
    (not_le.mp haddress)
  obtain ⟨hunlimited, e', he', hnext'⟩ := checkRateLimit_of_room window_pos
    (h .domain (domainOf (toLowerCase recipient))) (not_le.mp hdomain)
  refine ⟨e, e', ?_, hnext, hnext'⟩
  unfold NotifyThrottle.check
  refine (if_neg (mt h.isSpent_address.mp haddress)).trans ((if_neg ?_).trans ?_)
  · exact fun hlimited => by cases (congrArg RateLimitDecision.isLimited hunlimited).symm.trans hlimited
  · exact congrArg (Prod.mk _) (congrArg₂ (NotifyThrottle.mk · · _) he he')

end Check

/-! ## One call -/

/-- The decision is what the messages before it say: the address is asked first, the domain only when the
address has room, and the first refusal in a budget's window says that it is the first. -/
structure Answers (earlier : List Checked) (r : Checked) : Prop where
  address : r.decision.limitedBy? = some .address ↔ Spent .address r.key earlier r.time
  domain : r.decision.limitedBy? = some .domain ↔
    ¬Spent .address r.key earlier r.time ∧ Spent .domain r.key earlier r.time
  first : ∀ b, r.decision.limitedBy? = some b →
    (r.decision.isFirst = true ↔ NoneRefused b r.key earlier r.time)

section Step

variable {toLowerCase : Text → Text} {t : NotifyThrottle} {log : List Checked} {now : Time}
  {recipient : Text} {b : Budget} {r : Checked} {map : RateLimits Text}

/-- A budget that a message was not counted in stays as it was. -/
theorem tracks_of_other {scope : Text} (hnotified : r.decision.limitedBy? ≠ none)
    (hother : r.decision.limitedBy? ≠ some b) {entry : Option RateLimitEntry}
    (h : Tracks b.max NOTIFY_THROTTLE_WINDOW_MS (notifiedIn b scope log) (refusedIn b scope log) now entry) :
    Tracks b.max NOTIFY_THROTTLE_WINDOW_MS (notifiedIn b scope (r :: log))
      (refusedIn b scope (r :: log)) now entry := by
  rw [notifiedIn_cons, refusedIn_cons, if_neg fun hr => hnotified hr.2, if_neg fun hr => hother hr.2]
  exact h

/-- A budget that a message was counted in changes for the message's address or domain only. -/
theorem tracks_update {e : RateLimitEntry} (h : ∀ scope, Tracks b.max NOTIFY_THROTTLE_WINDOW_MS
      (notifiedIn b scope log) (refusedIn b scope log) now (map scope))
    (hself : Tracks b.max NOTIFY_THROTTLE_WINDOW_MS (notifiedIn b (b.scope r.key) (r :: log))
      (refusedIn b (b.scope r.key) (r :: log)) now (some e)) (scope : Text) :
    Tracks b.max NOTIFY_THROTTLE_WINDOW_MS (notifiedIn b scope (r :: log)) (refusedIn b scope (r :: log))
      now (Function.update map (b.scope r.key) (some e) scope) := by
  by_cases hscope : scope = b.scope r.key
  · rw [hscope, Function.update_self]
    exact hself
  · rw [Function.update_of_ne hscope, notifiedIn_cons, refusedIn_cons,
      if_neg fun hr => hscope hr.1.symm, if_neg fun hr => hscope hr.1.symm]
    exact h scope

/-- **One message.** -/
theorem check_step (recipient : Text) (h : Follows t log now) {r : Checked}
    (hr : r = ⟨toLowerCase recipient, now, (t.check toLowerCase now recipient).1⟩) :
    Answers log r ∧ Follows (t.check toLowerCase now recipient).2 (r :: log) now := by
  by_cases haddress : Spent .address (toLowerCase recipient) log now
  · obtain ⟨first, e, hcheck, hfirst, hnext⟩ := check_of_address h haddress
    rw [hcheck] at hr
    rw [hcheck, hr]
    refine ⟨⟨iff_of_true rfl haddress, iff_of_false nofun fun hd => hd.1 haddress, ?_⟩, fun b => ?_⟩
    · rintro _ ⟨⟩
      exact hfirst
    · cases b with
      | address =>
        refine tracks_update (h .address) ?_
        rw [notifiedIn_cons, refusedIn_cons, if_neg (fun hn => nomatch hn.2), if_pos ⟨rfl, rfl⟩]
        exact hnext
      | domain => exact fun scope => tracks_of_other (by nofun) (by nofun) (h .domain scope)
  · by_cases hdomain : Spent .domain (toLowerCase recipient) log now
    · obtain ⟨first, e, hcheck, hfirst, hnext⟩ := check_of_domain h haddress hdomain
      rw [hcheck] at hr
      rw [hcheck, hr]
      refine ⟨⟨iff_of_false nofun haddress, iff_of_true rfl ⟨haddress, hdomain⟩, ?_⟩, fun b => ?_⟩
      · rintro _ ⟨⟩
        exact hfirst
      · cases b with
        | address => exact fun scope => tracks_of_other (by nofun) (by nofun) (h .address scope)
        | domain =>
          refine tracks_update (h .domain) ?_
          rw [notifiedIn_cons, refusedIn_cons, if_neg (fun hn => nomatch hn.2), if_pos ⟨rfl, rfl⟩]
          exact hnext
    · obtain ⟨e, e', hcheck, hnext, hnext'⟩ := check_of_room h haddress hdomain
      rw [hcheck] at hr
      rw [hcheck, hr]
      refine ⟨⟨iff_of_false nofun haddress, iff_of_false nofun fun hd => hdomain hd.2, nofun⟩,
        fun b => ?_⟩
      cases b with
      | address =>
        refine tracks_update (h .address) ?_
        rw [notifiedIn_cons, refusedIn_cons, if_pos ⟨rfl, rfl⟩, if_neg (fun hn => nomatch hn.2)]
        exact hnext
      | domain =>
        refine tracks_update (h .domain) ?_
        rw [notifiedIn_cons, refusedIn_cons, if_pos ⟨rfl, rfl⟩, if_neg (fun hn => nomatch hn.2)]
        exact hnext'

end Step

/-! ## The messages determine the decisions -/

/-- The decision of a message, without what it reports. -/
def Checked.verdict (r : Checked) : Text × Time × Option Budget × Bool :=
  (r.key, r.time, r.decision.limitedBy?, r.decision.isFirst)

/-- A message and those before it. -/
def Answered (log : List Checked) : Prop := ∀ r earlier, r :: earlier <:+ log → Answers earlier r

/-- The notifications of an address report what was skipped since the last. -/
def Reports (key : Text) (log : List Checked) : Prop :=
  ∀ r earlier, r :: earlier <:+ log → r.key = key →
    ∀ skipped, r.decision = .notify skipped → skipped = pendingOf key earlier

section Verdicts

variable {b : Budget} {scope key : Text} {log log' : List Checked} {r r' : Checked}

theorem notifiedIn_congr (h : log.map Checked.verdict = log'.map Checked.verdict) :
    notifiedIn b scope log = notifiedIn b scope log' := by
  have hview : ∀ l, notifiedIn b scope l = ((l.map Checked.verdict).filter fun v =>
      b.scope v.1 = scope ∧ v.2.2.1 = none).map (·.2.1) := fun l => by
    rw [List.filter_map, List.map_map]
    rfl
  rw [hview, hview, h]

theorem refusedIn_congr (h : log.map Checked.verdict = log'.map Checked.verdict) :
    refusedIn b scope log = refusedIn b scope log' := by
  have hview : ∀ l, refusedIn b scope l = ((l.map Checked.verdict).filter fun v =>
      b.scope v.1 = scope ∧ v.2.2.1 = some b).map (·.2.1) := fun l => by
    rw [List.filter_map, List.map_map]
    rfl
  rw [hview, hview, h]

theorem pendingOf_congr (h : log.map Checked.verdict = log'.map Checked.verdict) :
    pendingOf key log = pendingOf key log' := by
  induction log generalizing log' with
  | nil => rw [List.map_eq_nil_iff.mp h.symm]
  | cons r earlier ih =>
    obtain ⟨r', earlier', rfl, hr, hearlier⟩ := List.map_eq_cons_iff.mp h.symm
    obtain ⟨hkey, htime, hlimited, _⟩ : r'.key = r.key ∧ r'.time = r.time ∧
        r'.decision.limitedBy? = r.decision.limitedBy? ∧ r'.decision.isFirst = r.decision.isFirst := by
      simpa only [Checked.verdict, Prod.mk.injEq] using hr
    rw [pendingOf, pendingOf, hkey, htime, hlimited, ih hearlier.symm]

theorem Answers.verdict_eq (h : Answers log r) (h' : Answers log' r') (hkey : r.key = r'.key)
    (htime : r.time = r'.time) (hlog : log.map Checked.verdict = log'.map Checked.verdict) :
    r.verdict = r'.verdict := by
  have hspent : ∀ b, Spent b r.key log r.time ↔ Spent b r'.key log' r'.time := fun b => by
    unfold Spent
    rw [hkey, htime, notifiedIn_congr hlog]
  have hnone : ∀ b, NoneRefused b r.key log r.time ↔ NoneRefused b r'.key log' r'.time := fun b => by
    unfold NoneRefused
    rw [hkey, htime, notifiedIn_congr hlog, refusedIn_congr hlog]
  have hlimited : r.decision.limitedBy? = r'.decision.limitedBy? := by
    refine Option.ext fun b => ?_
    cases b with
    | address => rw [h.address, h'.address, hspent]
    | domain => rw [h.domain, h'.domain, hspent, hspent]
  have hfirst : r.decision.isFirst = r'.decision.isFirst := by
    cases hd : r.decision with
    | notify skipped =>
      cases hd' : r'.decision with
      | notify skipped' => rfl
      | skip limitedBy first => rw [hd, hd'] at hlimited; cases hlimited
    | skip limitedBy first =>
      have hsome : r.decision.limitedBy? = some limitedBy := by rw [hd]; rfl
      rw [← hd]
      exact Bool.eq_iff_iff.mpr (((h.first _ hsome).trans (hnone _)).trans
        (h'.first _ (hlimited ▸ hsome)).symm)
  unfold Checked.verdict
  rw [hkey, htime, hlimited, hfirst]

theorem Answered.tail (h : Answered (r :: log)) : Answered log := fun a earlier hsuffix =>
  h a earlier (hsuffix.trans (List.suffix_cons r log))

/-- **Uniqueness.** The messages determine the verdicts. -/
theorem Answered.verdicts_eq (h : Answered log) (h' : Answered log')
    (hsame : log.map (fun r => (r.key, r.time)) = log'.map fun r => (r.key, r.time)) :
    log.map Checked.verdict = log'.map Checked.verdict := by
  induction log generalizing log' with
  | nil => rw [List.map_eq_nil_iff.mp hsame.symm]
  | cons r earlier ih =>
    obtain ⟨r', earlier', rfl, hr, hearlier⟩ := List.map_eq_cons_iff.mp hsame.symm
    obtain ⟨hkey, htime⟩ := Prod.mk.inj hr
    have hih := ih h.tail h'.tail hearlier.symm
    rw [List.map_cons, List.map_cons, hih, (h _ _ List.suffix_rfl).verdict_eq
      (h' _ _ List.suffix_rfl) hkey.symm htime.symm hih]

theorem Reports.tail (h : Reports key (r :: log)) : Reports key log := fun a earlier hsuffix =>
  h a earlier (hsuffix.trans (List.suffix_cons r log))

/-- The verdicts determine the decisions of an address whose notifications report what was skipped. -/
theorem Reports.messages_eq (h : Reports key log) (h' : Reports key log')
    (hsame : log.map Checked.verdict = log'.map Checked.verdict) :
    messagesOf key log = messagesOf key log' := by
  induction log generalizing log' with
  | nil => rw [List.map_eq_nil_iff.mp hsame.symm]
  | cons r earlier ih =>
    obtain ⟨r', earlier', rfl, hr, hearlier⟩ := List.map_eq_cons_iff.mp hsame.symm
    obtain ⟨hkey, htime, hlimited, hfirst⟩ : r'.key = r.key ∧ r'.time = r.time ∧
        r'.decision.limitedBy? = r.decision.limitedBy? ∧ r'.decision.isFirst = r.decision.isFirst := by
      simpa only [Checked.verdict, Prod.mk.injEq] using hr
    rw [messagesOf_cons, messagesOf_cons, hkey, ih h.tail h'.tail hearlier.symm]
    by_cases hmine : r.key = key
    · rw [if_pos hmine, if_pos hmine]
      refine congrArg (· :: _) ?_
      have hdecision : r.decision = r'.decision := by
        cases hd : r.decision with
        | notify skipped =>
          cases hd' : r'.decision with
          | notify skipped' =>
            rw [h _ _ List.suffix_rfl hmine _ hd, h' _ _ List.suffix_rfl (hkey.trans hmine) _ hd',
              pendingOf_congr hearlier.symm]
          | skip limitedBy first => rw [hd, hd'] at hlimited; cases hlimited
        | skip limitedBy first =>
          cases hd' : r'.decision with
          | notify skipped => rw [hd, hd'] at hlimited; cases hlimited
          | skip limitedBy' first' =>
            rw [hd, hd'] at hlimited hfirst
            cases hlimited
            cases hfirst
            rfl
      cases r
      cases r'
      cases hkey
      cases htime
      exact congrArg _ hdecision
    · rw [if_neg hmine, if_neg hmine]

/-- The notified messages of an address. -/
def notifiedOf (key : Text) (log : List Checked) : ℕ :=
  (messagesOf key log).countP fun r => r.decision.limitedBy? = none

/-- The messages that the notifications of an address reported. -/
def reportedOf (key : Text) (log : List Checked) : ℕ :=
  ((messagesOf key log).map (·.decision.reported)).sum

theorem notifiedOf_cons (hmine : r.key = key) : notifiedOf key (r :: log) =
    notifiedOf key log + if r.decision.limitedBy? = none then 1 else 0 := by
  unfold notifiedOf
  rw [messagesOf_cons, if_pos hmine, List.countP_cons]
  simp only [decide_eq_true_eq]

theorem reportedOf_cons (hmine : r.key = key) :
    reportedOf key (r :: log) = r.decision.reported + reportedOf key log := by
  unfold reportedOf
  rw [messagesOf_cons, if_pos hmine, List.map_cons, List.sum_cons]

/-- **Conservation.** -/
theorem Reports.accounted (h : Reports key log) : (messagesOf key log).length =
    notifiedOf key log + reportedOf key log + (pendingOf key log).elim 0 (·.count) := by
  induction log with
  | nil => rfl
  | cons r earlier ih =>
    have hih := ih h.tail
    by_cases hmine : r.key = key
    · rw [messagesOf_cons, if_pos hmine, List.length_cons, notifiedOf_cons hmine,
        reportedOf_cons hmine, hih]
      cases hd : r.decision with
      | notify skipped =>
        rw [pendingOf_of_notified (by rw [hd]; rfl) hmine, h _ _ List.suffix_rfl hmine _ hd,
          if_pos (show NotifyThrottleDecision.limitedBy? (.notify _) = none from rfl)]
        show _ = _ + 1 + ((pendingOf key earlier).elim 0 (·.count) + _) + 0
        omega
      | skip limitedBy first =>
        rw [pendingOf_of_skipped (b := limitedBy) (by rw [hd]; rfl) hmine, if_neg nofun]
        show _ = _ + 0 + (0 + _) + ((pendingOf key earlier).elim _ _ : SkippedNotifications).count
        cases pendingOf key earlier with
        | none => show _ + 0 + 1 = _ + 0 + (0 + _) + 1; omega
        | some pending => show _ + pending.count + 1 = _ + 0 + (0 + _) + (pending.count + 1); omega
    · unfold notifiedOf reportedOf at hih ⊢
      rw [messagesOf_cons, if_neg hmine, pendingOf_of_ne hmine]
      exact hih

end Verdicts

/-! ## Whole runs -/

/-- The counters follow the messages, and each was answered by what came before it. -/
structure World.Inv (s : World) : Prop where
  follows : Follows s.throttle s.log s.now
  answered : Answered s.log

/-- No count of the address was lost: what is stored is what the messages say. -/
structure World.Kept (key : Text) (s : World) : Prop where
  inv : s.Inv
  stored : s.throttle.skipped key = pendingOf key s.log
  reports : Reports key s.log

section Runs

variable {toLowerCase : Text → Text} {s : World} {c : Call} {calls calls' : List Call} {key : Text}

theorem suffix_cases {r a : Checked} {earlier log : List Checked} (h : a :: earlier <:+ r :: log) :
    (a = r ∧ earlier = log) ∨ a :: earlier <:+ log :=
  (List.suffix_cons_iff.mp h).imp_left List.cons.inj

theorem World.inv_idle : idle.Inv := ⟨follows_new, fun _ _ h => by cases List.suffix_nil.mp h⟩

theorem World.kept_idle : idle.Kept key :=
  ⟨inv_idle, rfl, fun _ _ h => by cases List.suffix_nil.mp h⟩

/-- **One call.** -/
theorem World.Inv.step (h : s.Inv) (horder : s.InOrder c) : (s.step toLowerCase c).Inv := by
  cases c with
  | check recipient now =>
    obtain ⟨hanswers, hfollows⟩ := check_step recipient (h.follows.mono horder) rfl
    refine ⟨hfollows, fun a earlier hsuffix => ?_⟩
    rcases suffix_cases hsuffix with ⟨rfl, rfl⟩ | hsuffix
    · exact hanswers
    · exact h.answered a earlier hsuffix
  | prune now => exact ⟨(h.follows.mono horder).prune, h.answered⟩

/-- What a message does, whatever the counters hold. -/
theorem check_cases (toLowerCase : Text → Text) (t : NotifyThrottle) (recipient : Text) (now : Time) :
    (∃ first map, t.check toLowerCase now recipient = (.skip .address first,
      { t with addresses := map }.recordSkipped now (toLowerCase recipient))) ∨
    (∃ first map, t.check toLowerCase now recipient = (.skip .domain first,
      { t with domains := map }.recordSkipped now (toLowerCase recipient))) ∨
    ∃ addresses domains, t.check toLowerCase now recipient =
      (.notify (t.skipped (toLowerCase recipient)), ⟨addresses, domains,
        Function.update t.skipped (toLowerCase recipient) none⟩) := by
  unfold NotifyThrottle.check
  by_cases haddress : isSpent t.addresses (toLowerCase recipient) now NOTIFY_THROTTLE_MAX = true
  · exact .inl ⟨_, _, if_pos haddress⟩
  · by_cases hdomain : (checkRateLimit t.domains (domainOf (toLowerCase recipient)) now
        ⟨NOTIFY_DOMAIN_THROTTLE_MAX, NOTIFY_THROTTLE_WINDOW_MS⟩ 1).1.isLimited = true
    · exact .inr (.inl ⟨_, _, (if_neg haddress).trans (if_pos hdomain)⟩)
    · exact .inr (.inr ⟨_, _, (if_neg haddress).trans (if_neg hdomain)⟩)

/-- What a message does to the counts of the skipped. -/
theorem check_skipped (toLowerCase : Text → Text) (t : NotifyThrottle) (recipient : Text) (now : Time) :
    (∃ b first, (t.check toLowerCase now recipient).1 = .skip b first ∧
      (t.check toLowerCase now recipient).2.skipped =
        (t.recordSkipped now (toLowerCase recipient)).skipped) ∨
    (t.check toLowerCase now recipient).1 = .notify (t.skipped (toLowerCase recipient)) ∧
      (t.check toLowerCase now recipient).2.skipped =
        Function.update t.skipped (toLowerCase recipient) none := by
  rcases check_cases toLowerCase t recipient now with
    ⟨first, map, h⟩ | ⟨first, map, h⟩ | ⟨addresses, domains, h⟩
  · exact .inl ⟨_, _, congrArg Prod.fst h, congrArg (·.2.skipped) h⟩
  · exact .inl ⟨_, _, congrArg Prod.fst h, congrArg (·.2.skipped) h⟩
  · exact .inr ⟨congrArg Prod.fst h, congrArg (·.2.skipped) h⟩

/-- **A refusal by one budget leaves the other alone.** -/
theorem check_apart (t : NotifyThrottle) (recipient : Text) (now : Time) {b b' : Budget} (hne : b' ≠ b)
    (h : (t.check toLowerCase now recipient).1.limitedBy? = some b) :
    (t.check toLowerCase now recipient).2.counter b' = t.counter b' := by
  rcases check_cases toLowerCase t recipient now with
    ⟨first, map, hc⟩ | ⟨first, map, hc⟩ | ⟨addresses, domains, hc⟩ <;> rw [hc] at h ⊢ <;> cases h
  · cases b' with
    | address => exact absurd rfl hne
    | domain => rfl
  · cases b' with
    | address => rfl
    | domain => exact absurd rfl hne

/-- **One call that loses no count of the address.** -/
theorem World.Kept.step (h : s.Kept key) (horder : s.InOrder c) (hkeeps : s.Keeps key c) :
    (s.step toLowerCase c).Kept key := by
  refine ⟨h.inv.step horder, ?_, ?_⟩
  · cases c with
    | check recipient now =>
      by_cases hmine : toLowerCase recipient = key
      · rcases check_skipped toLowerCase s.throttle recipient now with
          ⟨b, first, hd, hskipped⟩ | ⟨hd, hskipped⟩
        · refine (congrFun hskipped key).trans ?_
          refine Eq.trans ?_ (pendingOf_of_skipped (b := b) (congrArg _ hd) hmine).symm
          rw [← h.stored, ← hmine]
          exact Function.update_self ..
        · refine (congrFun hskipped key).trans ?_
          refine Eq.trans ?_ (pendingOf_of_notified (congrArg _ hd) hmine).symm
          rw [← hmine]
          exact Function.update_self ..
      · refine Eq.trans ?_ (h.stored.trans (pendingOf_of_ne hmine).symm)
        rcases check_skipped toLowerCase s.throttle recipient now with
          ⟨_, _, _, hskipped⟩ | ⟨_, hskipped⟩
        · exact (congrFun hskipped key).trans (Function.update_of_ne (Ne.symm hmine) ..)
        · exact (congrFun hskipped key).trans (Function.update_of_ne (Ne.symm hmine) ..)
    | prune now =>
      refine Eq.trans ?_ h.stored
      show (s.throttle.skipped key).filter _ = _
      cases hp : s.throttle.skipped key with
      | none => rfl
      | some pending =>
        rw [Option.filter_some, if_pos]
        rw [Bool.not_eq_true', decide_eq_false_iff_not, not_le]
        exact hkeeps pending hp
  · cases c with
    | check recipient now =>
      intro a earlier hsuffix hkey skipped hd
      rcases suffix_cases hsuffix with ⟨rfl, rfl⟩ | hsuffix
      · rcases check_skipped toLowerCase s.throttle recipient now with
          ⟨b, first, hskip, _⟩ | ⟨hnotify, _⟩
        · cases hskip.symm.trans hd
        · cases hnotify.symm.trans hd
          exact hkey ▸ h.stored
      · exact h.reports a earlier hsuffix hkey skipped hd
    | prune now => exact h.reports

/-- The messages of the log are those of the calls. -/
theorem log_messages (s : World) (calls : List Call) :
    (Run.run (World.step toLowerCase) s calls).log.map (fun r => (r.key, r.time)) =
      (messages toLowerCase calls).reverse ++ s.log.map fun r => (r.key, r.time) := by
  induction calls generalizing s with
  | nil => rfl
  | cons c calls ih =>
    rw [Run.run_cons, ih]
    unfold messages
    cases c with
    | check recipient now =>
      rw [List.filterMap_cons_some (show (Call.check recipient now).message? toLowerCase =
        some (toLowerCase recipient, now) from rfl), List.reverse_cons, List.append_assoc]
      rfl
    | prune now =>
      rw [List.filterMap_cons_none (show (Call.prune now).message? toLowerCase = none from rfl)]
      rfl

theorem World.after_inv (horder : Run.Along (step toLowerCase) InOrder idle calls) :
    (after toLowerCase calls).Inv :=
  Run.invariant Inv (fun _ _ h hc => h.step hc) inv_idle horder

theorem World.after_kept (horder : Run.Along (step toLowerCase) InOrder idle calls)
    (hkeeps : Run.Along (step toLowerCase) (Keeps key) idle calls) :
    (after toLowerCase calls).Kept key :=
  Run.invariant (Kept key) (fun _ _ h hc => h.step hc.1 hc.2) kept_idle (horder.and hkeeps)

/-- **The notification budgets and their accounting.** Over any run of checks and prunings in the order of
the clock: no window of an address or a domain has more notifications than its budget; a decision is what
the messages before it say, so a message is refused only when a budget is spent, and is the first refused
exactly when the window's budget refused none before; a refusal by one budget leaves the other alone; the
messages of an address are the notified, the reported and the pending, as long as no count of it older
than the retention was pruned; and two runs that check the same messages decide alike, whatever they
prune, and report alike for an address none of whose counts was lost. -/
theorem notifyThrottle_exact (calls : List Call)
    (horder : Run.Along (World.step toLowerCase) World.InOrder World.idle calls) :
    (∀ b scope, Within NOTIFY_THROTTLE_WINDOW_MS (Budget.max b)
      (notifiedIn b scope (World.after toLowerCase calls).log)) ∧
    (∀ b scope, ∀ e ∈ (World.after toLowerCase calls).throttle.counter b scope,
      (starts NOTIFY_THROTTLE_WINDOW_MS (notifiedIn b scope (World.after toLowerCase calls).log)).head? =
        some e.windowStart) ∧
    (∀ r earlier, r :: earlier <:+ (World.after toLowerCase calls).log → Answers earlier r) ∧
    (∀ t : NotifyThrottle, ∀ recipient now b b', b' ≠ b →
      (t.check toLowerCase now recipient).1.limitedBy? = some b →
      (t.check toLowerCase now recipient).2.counter b' = t.counter b') ∧
    (∀ key, Run.Along (World.step toLowerCase) (World.Keeps key) World.idle calls →
      (messagesOf key (World.after toLowerCase calls).log).length =
        notifiedOf key (World.after toLowerCase calls).log +
        reportedOf key (World.after toLowerCase calls).log +
        ((World.after toLowerCase calls).throttle.skipped key).elim 0 (·.count)) ∧
    ∀ calls', Run.Along (World.step toLowerCase) World.InOrder World.idle calls' →
      messages toLowerCase calls' = messages toLowerCase calls →
      (World.after toLowerCase calls').log.map Checked.verdict =
        (World.after toLowerCase calls).log.map Checked.verdict ∧
      ∀ key, Run.Along (World.step toLowerCase) (World.Keeps key) World.idle calls →
        Run.Along (World.step toLowerCase) (World.Keeps key) World.idle calls' →
        messagesOf key (World.after toLowerCase calls').log =
          messagesOf key (World.after toLowerCase calls).log := by
  have hinv := World.after_inv horder
  refine ⟨fun b scope => (hinv.follows b scope).within, fun b scope => (hinv.follows b scope).start,
    hinv.answered, fun t recipient now b b' => check_apart t recipient now, fun key hkeeps => ?_,
    fun calls' horder' hsame => ?_⟩
  · have hkept := World.after_kept horder hkeeps
    rw [hkept.stored]
    exact hkept.reports.accounted
  · have hverdicts : (World.after toLowerCase calls').log.map Checked.verdict =
        (World.after toLowerCase calls).log.map Checked.verdict := by
      refine (World.after_inv horder').answered.verdicts_eq hinv.answered ?_
      unfold World.after
      rw [log_messages, log_messages, hsame]
    exact ⟨hverdicts, fun key hkeeps hkeeps' =>
      (World.after_kept horder' hkeeps').reports.messages_eq (World.after_kept horder hkeeps).reports
        hverdicts⟩

end Runs

/-- Six messages of one address within a minute, a pruning, and one in the next window. -/
def flood : List Call :=
  List.replicate 6 (.check "me@a.example".toList 1000) ++
    [.prune 2000, .check "me@a.example".toList 700000]

/-- Its sixth message is refused, and the seventh reports it. -/
theorem notifyThrottle_exact_flood :
    ((World.after (·.map Char.toLower) flood).log.map (·.decision)).take 2 =
      [.notify (some ⟨1, 1000⟩), .skip .address true] ∧
    Within NOTIFY_THROTTLE_WINDOW_MS 5
      (notifiedIn .address "me@a.example".toList (World.after (·.map Char.toLower) flood).log) ∧
    (messagesOf "me@a.example".toList (World.after (·.map Char.toLower) flood).log).length =
      notifiedOf "me@a.example".toList (World.after (·.map Char.toLower) flood).log +
      reportedOf "me@a.example".toList (World.after (·.map Char.toLower) flood).log +
      ((World.after (·.map Char.toLower) flood).throttle.skipped "me@a.example".toList).elim 0 (·.count) := by
  have horder : Run.Along (World.step (·.map Char.toLower)) World.InOrder World.idle flood := by
    decide +kernel
  have hkeeps : Run.Along (World.step (·.map Char.toLower)) (World.Keeps "me@a.example".toList)
      World.idle flood := by
    decide +kernel
  have hexact := notifyThrottle_exact flood horder
  exact ⟨by decide +kernel, hexact.1 .address _, hexact.2.2.2.2.1 _ hkeeps⟩

end BunMail.Inbound
