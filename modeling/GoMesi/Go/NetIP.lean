import GoMesi.Go.Strings

/-!
# IP addresses

The part of package `net` that classifies addresses. A `net.IP` is a byte sequence; it is an IPv4
address if it has four bytes, or sixteen of which the first twelve are the IPv4-in-IPv6 prefix.
-/

namespace GoMesi

/-- A `net.IP`. -/
abbrev IP := List UInt8

namespace IP

/-- `v4InV6Prefix` -/
def v4InV6Prefix : List UInt8 := List.replicate 10 0 ++ [0xff, 0xff]

/-- `To4` -/
def to4 (ip : IP) : Option IP :=
  if ip.length = 4 then some ip
  else if ip.length = 16 ∧ ip.take 12 = v4InV6Prefix then some (ip.drop 12)
  else none

/-- `Equal`: an IPv4 address and its IPv6 form are equal. -/
def equal (ip x : IP) : Bool :=
  if ip.length = x.length then ip = x
  else if ip.length = 4 ∧ x.length = 16 then v4InV6Prefix ++ ip = x
  else if ip.length = 16 ∧ x.length = 4 then ip = v4InV6Prefix ++ x
  else false

/-- The byte number `i`. -/
def byte (ip : IP) (i : ℕ) : UInt8 := ip.getD i 0

/-- A test by the family of an address. -/
def test (v4 v6 : IP → Bool) (ip : IP) : Bool :=
  match ip.to4 with
  | some ip4 => v4 ip4
  | none => v6 ip

/-- `IsLoopback` -/
def isLoopback : IP → Bool :=
  test (fun ip ↦ ip.byte 0 = 127) fun ip ↦ ip.equal (List.replicate 15 0 ++ [1])

/-- `IsPrivate` -/
def isPrivate : IP → Bool :=
  test (fun ip ↦ ip.byte 0 = 10 ∨ (ip.byte 0 = 172 ∧ ip.byte 1 &&& 0xf0 = 16) ∨
      (ip.byte 0 = 192 ∧ ip.byte 1 = 168))
    fun ip ↦ ip.length = 16 ∧ ip.byte 0 &&& 0xfe = 0xfc

/-- `IsMulticast` -/
def isMulticast : IP → Bool :=
  test (fun ip ↦ ip.byte 0 &&& 0xf0 = 0xe0) fun ip ↦ ip.length = 16 ∧ ip.byte 0 = 0xff

/-- `IsLinkLocalMulticast` -/
def isLinkLocalMulticast : IP → Bool :=
  test (fun ip ↦ ip.byte 0 = 224 ∧ ip.byte 1 = 0 ∧ ip.byte 2 = 0)
    fun ip ↦ ip.length = 16 ∧ ip.byte 0 = 0xff ∧ ip.byte 1 &&& 0x0f = 0x02

/-- `IsLinkLocalUnicast` -/
def isLinkLocalUnicast : IP → Bool :=
  test (fun ip ↦ ip.byte 0 = 169 ∧ ip.byte 1 = 254)
    fun ip ↦ ip.length = 16 ∧ ip.byte 0 = 0xfe ∧ ip.byte 1 &&& 0xc0 = 0x80

/-- `IsUnspecified` -/
def isUnspecified (ip : IP) : Bool :=
  ip.equal (v4InV6Prefix ++ [0, 0, 0, 0]) || ip.equal (List.replicate 16 0)

end IP

/-- A `net.IPNet`, with the bytes of its address and of its mask. -/
structure IPNet where
  ip : IP
  mask : List UInt8
  deriving DecidableEq, Repr

/-- The network of `net.ParseCIDR` for an address of `ip.length` bytes and `ones` leading bits. -/
def IPNet.cidr (ip : IP) (ones : ℕ) : IPNet :=
  let mask := (List.range ip.length).map fun i ↦ UInt8.ofNat (256 - 2 ^ (8 - min 8 (ones - 8 * i)))
  ⟨List.zipWith (· &&& ·) ip mask, mask⟩

/-- `Contains` -/
def IPNet.contains (n : IPNet) (ip : IP) : Bool :=
  let ip := ip.to4.getD ip
  ip.length = n.ip.length ∧
    List.zipWith (· &&& ·) n.ip n.mask = List.zipWith (· &&& ·) ip n.mask

end GoMesi
