import Mathlib.Data.Rat.Floor
import BunMail.Lib.Table
import BunMail.Lib.Text
import BunMail.Lib.Timed

/-!
# Token buckets

The buckets of `shared-tokens.ts` in memory and the script of `redis-tokens.ts`, over exact
rationals.  Each drops a bucket that is full: the memory one in its sweep, past a thousand buckets,
Redis when the key expires.
-/

namespace BunMail.Utils.Tokens

/-- `TokenRate`. -/
structure TokenRate where
  capacity : ℕ
  perMinute : ℚ
  capacity_pos : 1 ≤ capacity
  perMinute_pos : 0 < perMinute

/-- `TokenGrant`. -/
structure TokenGrant where
  granted : ℕ
  waitMs : ℕ
  deriving DecidableEq, Repr

/-- A call of `take`, at the clock's time. -/
structure Take where
  time : Time
  key : Text
  count : ℕ
  rate : TokenRate

/-- Tokens a millisecond. -/
def TokenRate.perMs (rate : TokenRate) : ℚ := rate.perMinute / 60000

/-! ## In memory -/

/-- `MAX_IDLE_BUCKETS`. -/
def MAX_IDLE_BUCKETS : ℕ := 1000

/-- `MemoryBucket`. -/
structure MemoryBucket where
  tokens : ℚ
  time : Time
  rate : TokenRate

/-- `MemoryTokenBuckets.entries`. -/
abbrev MemoryTokenBuckets := Table (Prod.fst : Text × MemoryBucket → Text)

namespace MemoryTokenBuckets

variable (entries : MemoryTokenBuckets)

/-- `refill`. -/
def refill (key : Text) (now : Time) (rate : TokenRate) : ℚ :=
  (entries.get? key).elim rate.capacity fun state =>
    min rate.capacity (state.tokens + (now - state.time : ℕ) * rate.perMs)

/-- `sweep`. -/
def sweep (now : Time) : MemoryTokenBuckets :=
  if entries.rows.length ≤ MAX_IDLE_BUCKETS then entries
  else entries.deleteWhere fun e =>
    decide ((e.2.rate.capacity : ℚ) ≤ refill entries e.1 now e.2.rate)

/-- `takeNow`. -/
def takeNow (a : Take) : TokenGrant × MemoryTokenBuckets :=
  let entries := sweep entries a.time
  let before := refill entries a.key a.time a.rate
  let granted := min a.count ⌊before⌋₊
  let tokens := before - granted
  (⟨granted, if granted = a.count then 0 else ⌈(1 - tokens) / a.rate.perMs⌉₊⟩,
    entries.put a.key ⟨tokens, a.time, a.rate⟩)

end MemoryTokenBuckets

/-! ## In Redis -/

/-- The hash of a bucket, and when its key expires. -/
structure RedisBucket where
  t : ℚ
  a : Time
  expiresAt : Time

/-- The keys. -/
abbrev RedisTokenBuckets := Table (Prod.fst : Text × RedisBucket → Text)

namespace RedisTokenBuckets

variable (keys : RedisTokenBuckets)

/-- `HMGET`: a key past its expiry is gone. -/
def hmget (key : Text) (now : Time) : Option RedisBucket :=
  (keys.get? key).filter fun state => decide (now < state.expiresAt)

/-- The `tokens` the script starts from. -/
def tokens (key : Text) (now : Time) (rate : TokenRate) : ℚ :=
  (hmget keys key now).elim rate.capacity fun state =>
    min rate.capacity (state.t + (now - state.a : ℕ) * rate.perMs)

/-- `TAKE_TOKENS_SCRIPT`. -/
def takeTokens (a : Take) : TokenGrant × RedisTokenBuckets :=
  let before := tokens keys a.key a.time a.rate
  let granted := min a.count ⌊before⌋₊
  let left := before - granted
  let ttl := max 1 ⌈((a.rate.capacity : ℚ) - left) / a.rate.perMs⌉₊
  (⟨granted, if granted < a.count then ⌈(1 - left) / a.rate.perMs⌉₊ else 0⟩,
    keys.put a.key ⟨left, a.time, a.time + ttl⟩)

end RedisTokenBuckets

/-! ## One bucket -/

/-- The tokens of a bucket after its last take, if there was one. -/
abbrev Bucket := Option (ℚ × Time)

/-- What a bucket holds: it starts full, and refills up to its capacity. -/
def Bucket.level (rate : TokenRate) (b : Bucket) (now : Time) : ℚ :=
  b.elim rate.capacity fun s => min rate.capacity (s.1 + (now - s.2 : ℕ) * rate.perMs)

/-- A take of one key's bucket, which is never dropped. -/
def Bucket.take (key : Text) (b : Bucket) (a : Take) : TokenGrant × Bucket :=
  let before := b.level a.rate a.time
  let granted := min a.count ⌊before⌋₊
  let left := before - granted
  (⟨granted, if granted = a.count then 0 else ⌈(1 - left) / a.rate.perMs⌉₊⟩,
    if a.key = key then some (left, a.time) else b)

end BunMail.Utils.Tokens
