import BunMail.Lib.IpText

/-!
# The SSRF guard

`utils/ssrf-guard.ts`.  Numbers that have been through a bit operation are bit vectors of 32 bits: what
`& | << >>>` see of a number, and what `>>> 0` reads back.  `URL`, the resolver and `toLowerCase` are
parameters.
-/

namespace BunMail.SsrfGuard

open Text Ip

/-! ## IPv4 -/

/-- `/^\d{1,3}$/`. -/
def isDigits (p : Text) : Bool :=
  decide (p ≠ []) && decide (p.length ≤ 3) && p.all Char.isDigit

/-- The loop of `ipv4ToInt`. -/
def addOctets (n : BitVec 32) : List Text → Option (BitVec 32)
  | [] => some n
  | p :: ps =>
    if isDigits p then
      if 255 < ofDecimal p then none else addOctets (n <<< 8 ||| BitVec.ofNat 32 (ofDecimal p)) ps
    else none

/-- `ipv4ToInt`. -/
def ipv4ToInt (ip : Text) : Option (BitVec 32) :=
  let parts := ip.splitOn '.'
  if parts.length = 4 then addOctets 0 parts else none

/-- `inRange`. -/
def inRange (n : BitVec 32) (base : Text) (bits : ℕ) : Bool :=
  let b := (ipv4ToInt base).getD 0
  let mask : BitVec 32 := if bits = 0 then 0 else BitVec.allOnes 32 <<< (32 - bits)
  n &&& mask = b &&& mask

/-- `isBlockedIpv4`. -/
def isBlockedIpv4 (ip : Text) : Bool :=
  match ipv4ToInt ip with
  | none => true
  | some n =>
    inRange n "0.0.0.0" 8 || inRange n "10.0.0.0" 8 || inRange n "100.64.0.0" 10 ||
      inRange n "127.0.0.0" 8 || inRange n "169.254.0.0" 16 || inRange n "172.16.0.0" 12 ||
      inRange n "192.0.0.0" 24 || inRange n "192.168.0.0" 16 || inRange n "198.18.0.0" 15 ||
      inRange n "224.0.0.0" 4 || inRange n "240.0.0.0" 4

/-- `intToIpv4`. -/
def intToIpv4 (n : BitVec 32) : Text :=
  ['.'].intercalate [decimal (n >>> 24).toNat, decimal (n >>> 16 &&& 0xff#32).toNat,
    decimal (n >>> 8 &&& 0xff#32).toNat, decimal (n &&& 0xff#32).toNat]

/-! ## IPv6 -/

/-- `s.split("::")`. -/
def splitDouble : Text → List Text
  | [] => [[]]
  | [c] => [[c]]
  | c :: d :: s =>
    if c = ':' ∧ d = ':' then [] :: splitDouble s
    else (splitDouble (d :: s)).modifyHead (c :: ·)

/-- `n.toString(16)`. -/
def hex (n : ℕ) : Text := Nat.toDigits 16 n

/-- `\d{1,3}(?:\.\d{1,3}){3}`. -/
def isDotted (s : Text) : Bool :=
  decide ((s.splitOn '.').length = 4) && (s.splitOn '.').all isDigits

/-- The trailing dotted quad as two hex groups. (A line terminator, which `.` does not match, makes a
group malformed either way.) -/
def undot (addr : Text) : Option Text :=
  let last := afterLast ':' addr
  let before := addr.rdropWhile (· ≠ ':')
  if before ≠ [] ∧ isDotted last = true then
    (ipv4ToInt last).map fun n : BitVec 32 =>
      before ++ hex (n >>> 16).toNat ++ ':' :: hex (n &&& 0xffff#32).toNat
  else some addr

/-- `/^[0-9a-f]{1,4}$/.test(g) ? parseInt(g, 16) : NaN`. -/
def parseGroup (g : Text) : Option ℕ :=
  if g ≠ [] ∧ g.length ≤ 4 ∧ g.all isHexDigit = true then
    some (g.foldl (fun n c => 16 * n + hexValue c) 0)
  else none

/-- `parseGroups`, `none` where a group is `NaN`. -/
def parseGroups (part : Text) : Option (List ℕ) :=
  if part = [] then some [] else (part.splitOn ':').mapM parseGroup

section Parse

variable (toLowerCase : Text → Text)

/-- `parseIpv6`. -/
def parseIpv6 (ip : Text) : Option (List ℕ) := do
  let addr ← undot (((toLowerCase ip).splitOn '%').headD [])
  match splitDouble addr with
  | [whole] =>
    let head ← parseGroups whole
    if head.length = 8 then some head else none
  | [left, right] =>
    let head ← parseGroups left
    let tail ← parseGroups right
    if head.length + tail.length < 8 then
      some (head ++ List.replicate (8 - head.length - tail.length) 0 ++ tail)
    else none
  | _ => none

/-- `zeroUpTo`. -/
def zeroUpTo (groups : List ℕ) (stop start : ℕ) : Bool :=
  (List.range' start (stop - start)).all fun i => groups.getD i 0 = 0

/-- `embeddedIpv4`. -/
def embeddedIpv4 (groups : List ℕ) : Option Text :=
  let g (i : ℕ) : ℕ := groups.getD i 0
  let joined (hi lo : ℕ) : Text := intToIpv4 (BitVec.ofNat 32 hi <<< 16 ||| BitVec.ofNat 32 lo)
  if zeroUpTo groups 5 0 && g 5 = 0xffff then some (joined (g 6) (g 7))
  else if zeroUpTo groups 6 0 then some (joined (g 6) (g 7))
  else if g 0 = 0x64 && g 1 = 0xff9b && zeroUpTo groups 6 2 then some (joined (g 6) (g 7))
  else if g 0 = 0x2002 then some (joined (g 1) (g 2))
  else none

/-- `(n & mask) === value`. -/
def masked (n mask value : ℕ) : Bool :=
  BitVec.ofNat 32 n &&& BitVec.ofNat 32 mask = BitVec.ofNat 32 value

/-- `isBlockedIpv6`, on the parsed groups. -/
def isBlockedGroups (groups : List ℕ) : Bool :=
  let first := groups.getD 0 0
  if groups.all (· = 0) then true
  else if first = 0 && ((groups.drop 1).take 6).all (· = 0) && groups[7]? = some 1 then true
  else if masked first 0xff00 0xff00 then true
  else if masked first 0xffc0 0xfec0 then true
  else if first = 0x64 && groups[1]? = some 0xff9b && groups[2]? = some 1 then true
  else
    match embeddedIpv4 groups with
    | some v4 => isBlockedIpv4 v4
    | none =>
      if masked first 0xfe00 0xfc00 then true
      else if masked first 0xffc0 0xfe80 then true
      else false

/-- `isBlockedIpv6`. -/
def isBlockedIpv6 (ip : Text) : Bool := (parseIpv6 toLowerCase ip).elim true isBlockedGroups

/-- `isBlockedIp`. -/
def isBlockedIp (ip : Text) : Bool :=
  if isIP ip = 4 then isBlockedIpv4 ip
  else if isIP ip = 6 then isBlockedIpv6 toLowerCase ip
  else true

/-! ## Targets -/

/-- What is used of `URL`. -/
structure UrlApi (υ : Type) where
  /-- `new URL(text)`. -/
  parse : Text → Option υ
  href : υ → Text
  protocol : υ → Text
  hostname : υ → Text
  host : υ → Text
  /-- The `hostname` setter. -/
  setHostname : υ → Text → υ

/-- `PublicWebhookTarget`. -/
structure PublicWebhookTarget (υ : Type) where
  url : υ
  hostname : Text
  isIpLiteral : Bool
  address : Text
  family : ℕ

/-- `/^\[(.*)\]$/`, its group. -/
def bracketed? (s : Text) : Option Text :=
  match s with
  | '[' :: rest => if rest.getLast? = some ']' then some rest.dropLast else none
  | _ => none

/-- `familyOf`. -/
def familyOf (address : Text) : ℕ := if isIP address = 6 then 6 else 4

variable {υ : Type} (api : UrlApi υ)

/-- The part of `resolvePublicWebhookTarget` for a host that is no address; `none` is a resolver that
throws. -/
def resolveName (url : υ) (host : Text) (addresses? : Option (List Text)) :
    Except Text (PublicWebhookTarget υ) :=
  match addresses? with
  | none => .error ("Webhook URL host \"" ++ host ++ "\" could not be resolved.")
  | some addresses =>
    if addresses = [] then .error ("Webhook URL host \"" ++ host ++ "\" resolved to no addresses.")
    else if addresses.any fun address =>
        address.contains '%' || isBlockedIp toLowerCase address then
      .error ("Webhook URL host \"" ++ host ++ "\" resolves to a private/reserved address.")
    else
      match (addresses.find? fun address => isIP address = 4).or addresses.head? with
      | none => .error ("Webhook URL host \"" ++ host ++ "\" resolved to no addresses.")
      | some chosen =>
        .ok { url, hostname := host, isIpLiteral := false, address := chosen,
              family := familyOf chosen }

/-- `resolvePublicWebhookTarget`. -/
def resolvePublicWebhookTarget (rawUrl : Text) (allowHttp : Bool)
    (resolver : Text → Option (List Text)) : Except Text (PublicWebhookTarget υ) :=
  match api.parse rawUrl with
  | none => .error "Webhook URL is not a valid absolute URL."
  | some url =>
    let scheme := toLowerCase (api.protocol url)
    if scheme ≠ "https:" ∧ ¬ (allowHttp = true ∧ scheme = "http:") then
      .error (if allowHttp then "Webhook URL must use http or https."
        else "Webhook URL must use https (set WEBHOOK_ALLOW_INSECURE_HTTP=true to allow http).")
    else
      let host := (bracketed? (api.hostname url)).getD (api.hostname url)
      if host = [] then .error "Webhook URL has no host."
      else if isIP host ≠ 0 then
        if isBlockedIp toLowerCase host then
          .error ("Webhook URL host " ++ host ++ " is a private/reserved address.")
        else
          .ok { url, hostname := host, isIpLiteral := true, address := host,
                family := familyOf host }
      else resolveName toLowerCase url host (resolver host)

/-- `PinnedRequest`, with `tls.serverName`. -/
structure PinnedRequest where
  url : Text
  host : Text
  serverName : Option Text

/-- `hostIsAddress`. -/
def hostIsAddress (hostname : Text) (target : PublicWebhookTarget υ) : Bool :=
  if isIP target.address ≠ target.family then false
  else if target.family = 4 then hostname = target.address
  else
    match bracketed? hostname with
    | none => false
    | some inner =>
      if isIP inner ≠ 6 then false
      else
        match parseIpv6 toLowerCase inner, parseIpv6 toLowerCase target.address with
        | some got, some want => got.zipIdx.all fun x => some x.1 = want[x.2]?
        | _, _ => false

/-- The host that `buildPinnedRequest` asks for. -/
def pinnedHost (target : PublicWebhookTarget υ) : Text :=
  if target.family = 6 then '[' :: (target.address ++ [']']) else target.address

/-- `buildPinnedRequest`; the request's URL comes with the `URL` that it is the text of. -/
def buildPinnedRequest (target : PublicWebhookTarget υ) : Except Text (υ × PinnedRequest) :=
  match api.parse (api.href target.url) with
  | none => .error "Invalid URL"
  | some copy =>
    let pinned := api.setHostname copy (pinnedHost target)
    if hostIsAddress toLowerCase (api.hostname pinned) target then
      .ok (pinned, {
        url := api.href pinned
        host := api.host target.url
        serverName :=
          if target.isIpLiteral = true ∨ api.protocol pinned ≠ "https:" then none
          else some (if target.hostname.getLast? = some '.' then target.hostname.dropLast
            else target.hostname) })
    else .error "Webhook URL could not be pinned to its validated address."

end Parse

end BunMail.SsrfGuard
