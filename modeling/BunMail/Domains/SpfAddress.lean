import BunMail.Lib.IpText
import BunMail.Utils.SsrfGuard

/-!
# Addresses in SPF

`spf-address.ts`: an address as its bytes, the network it lies in, and the names it is looked up by.
-/

namespace BunMail.Spf

open Text Ip
open SsrfGuard (splitDouble hex)

/-- `IpAddress["family"]`. -/
inductive Family
  | four | six
  deriving DecidableEq

/-- `IpAddress`. -/
structure IpAddress where
  family : Family
  bytes : List UInt8
  deriving DecidableEq

/-- A dotted quad at the end becomes two groups. -/
def unquad (text : Text) : Text :=
  let tail := afterLast ':' text
  if '.' ∈ tail then
    let octet (i : ℕ) : ℕ := ((tail.splitOn '.').map ofDecimal).getD i 0
    text.rdropWhile (· ≠ ':') ++ hex (octet 0 <<< 8 ||| octet 1) ++
      ':' :: hex (octet 2 <<< 8 ||| octet 3)
  else text

/-- The groups between the colons, with the zeros that `::` stands for. -/
def ipv6Groups (text : Text) : List Text :=
  let halves := splitDouble text
  let left := sidePieces (halves.headD [])
  let right := sidePieces (halves.getD 1 [])
  if 1 < halves.length then left ++ List.replicate (8 - left.length - right.length) ['0'] ++ right
  else left

/-- `ipv6Bytes`. -/
def ipv6Bytes (text : Text) : List UInt8 :=
  let bytes := (ipv6Groups (unquad text)).flatMap fun group =>
    [UInt8.ofNat (groupValue group >>> 8), UInt8.ofNat (groupValue group)]
  (bytes ++ List.replicate 16 0).take 16

/-- `parseIp`. -/
def parseIp (text : Text) : Option IpAddress :=
  if isIPv4 text then
    some { family := .four, bytes := (text.splitOn '.').map fun part => UInt8.ofNat (ofDecimal part) }
  else if '%' ∈ text ∨ ¬ isIPv6 text then none
  else some { family := .six, bytes := ipv6Bytes text }

/-- `clientAddress`. -/
def clientAddress (text : Text) : Option IpAddress :=
  (parseIp (trim text)).map fun address =>
    if address.family = .six ∧ (address.bytes.take 10).all (· = 0) ∧ address.bytes[10]? = some 0xff ∧
        address.bytes[11]? = some 0xff then
      { family := .four, bytes := address.bytes.drop 12 }
    else address

/-- `inNetwork`. -/
def inNetwork (address network : IpAddress) (length : ℕ) : Bool :=
  let whole := length / 8
  let bits := length % 8
  let mask : UInt8 := 0xff <<< UInt8.ofNat (8 - bits)
  decide (address.family = network.family) &&
    (List.range whole).all (fun i => decide (address.bytes[i]? = network.bytes[i]?)) &&
    (decide (bits = 0) ||
      decide (address.bytes.getD whole 0 &&& mask = network.bytes.getD whole 0 &&& mask))

/-- `nibbles`. -/
def nibbles (address : IpAddress) : List Text :=
  address.bytes.flatMap fun byte => [hex (byte.toNat / 16), hex (byte.toNat % 16)]

/-- `reverseName`. -/
def reverseName (address : IpAddress) : Text :=
  match address.family with
  | .four => join ['.'] (address.bytes.reverse.map fun b => decimal b.toNat) ++ ".in-addr.arpa".toList
  | .six => join ['.'] (nibbles address).reverse ++ ".ip6.arpa".toList

/-- `macroIp`. -/
def macroIp (address : IpAddress) : Text :=
  match address.family with
  | .four => join ['.'] (address.bytes.map fun b => decimal b.toNat)
  | .six => join ['.'] (nibbles address)

end BunMail.Spf
