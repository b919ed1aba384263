import Enc28j60Udp.Lwip.Chksum

/-!
# The IP layer

`ip_output_if` writes the header of a packet and hands the packet to the interface, which is the
only one. `ip_input` checks a packet and hands it to the layer above. A read of a header behind the
payload of the first buffer finds what is left there of another packet, as long as it stays in the
buffer; a read outside the buffer has no result.

There are no raw PCBs, and packets are not forwarded.
-/

namespace Enc28j60Udp

namespace Lwip

/-! ## Addresses -/

/-- The fields of `struct netif` that IP and ARP use; of `flags` those that are tested. -/
structure Netif where
  ipAddr : UInt32
  netmask : UInt32
  gw : UInt32
  hwaddr : List UInt8
  mtu : ℕ
  up : Bool
  broadcast : Bool

/-- `ip_addr_isany`. -/
def isAny (addr : UInt32) : Bool := addr == 0

/-- `ip_addr_netcmp`. -/
def netCmp (addr1 addr2 mask : UInt32) : Bool := addr1 &&& mask == addr2 &&& mask

/-- `ip_addr_ismulticast`. -/
def isMulticast (addr : UInt32) : Bool := addr &&& 0x000000f0 == 0x000000e0

/-- `ip_addr_islinklocal`. -/
def isLinkLocal (addr : UInt32) : Bool := addr &&& 0x0000ffff == 0x0000fea9

/-- `ip4_addr_isbroadcast`. -/
def isBroadcast (addr : UInt32) (netif : Netif) : Bool :=
  if ~~~addr = 0 ∨ addr = 0 then true
  else if netif.broadcast = false then false
  else if addr = netif.ipAddr then false
  else netCmp addr netif.ipAddr netif.netmask &&
    (addr &&& ~~~netif.netmask == 0xffffffff &&& ~~~netif.netmask)

/-- `ip_route`, with the one interface both in the list and as the default. -/
def ipRoute (netif : Netif) (dest : UInt32) : Option Netif :=
  if netif.up && netCmp dest netif.ipAddr netif.netmask then some netif
  else if netif.up then some netif else none

/-! ## Output -/

/-- The bytes of a `struct ip_hdr` without options. -/
def ipHdr (tos ttl proto : UInt8) (len id chksum : ℕ) (src dest : UInt32) : List UInt8 :=
  [0x45, tos] ++ be16 len ++ be16 id ++ [0, 0] ++ [ttl, proto] ++
    le16 chksum ++ (addrBytes src ++ addrBytes dest)

/-- The checksum that `ip_output_if` adds up as it writes the fields. -/
def ipChkSum (tos ttl proto : UInt8) (len id : ℕ) (src dest : UInt32) : ℕ :=
  let chkSum := proto.toNat <<< 8 ||| ttl.toNat
  let chkSum := chkSum + (dest.toNat &&& 0xFFFF)
  let chkSum := chkSum + dest.toNat >>> 16
  let chkSum := chkSum + (tos.toNat <<< 8 ||| 0x45)
  let chkSum := chkSum + htons len
  let chkSum := chkSum + htons id
  let chkSum := chkSum + (src.toNat &&& 0xFFFF)
  let chkSum := (chkSum + src.toNat >>> 16) % 2 ^ 32
  let chkSum := chkSum >>> 16 + (chkSum &&& 0xFFFF)
  let chkSum := chkSum >>> 16 + chkSum
  (0xffffffff - chkSum) % 2 ^ 16

/-- What `ip_output_if` does with a packet. -/
inductive IpOutput
  | errBuf
  | frag (p : List Pbuf) (dest : UInt32)
  | output (p : List Pbuf) (dest : UInt32)

/-- `ip_output_if`, and `ip_id` after it. -/
def ipOutputIf (ipId : ℕ) (p : List Pbuf) (src dest : UInt32) (ttl tos proto : UInt8)
    (netif : Netif) : IpOutput × ℕ :=
  match pbufHeader 20 p with
  | some (q :: p) =>
    let src := if isAny src then netif.ipAddr else src
    let len := totLen (q :: p)
    let q := q.write (ipHdr tos ttl proto len ipId (ipChkSum tos ttl proto len ipId src dest)
      src dest)
    (if netif.mtu ≠ 0 ∧ netif.mtu < totLen (q :: p) then .frag (q :: p) dest
      else .output (q :: p) dest, (ipId + 1) % 2 ^ 16)
  | _ => (.errBuf, ipId)

/-! ## Input -/

/-- What `ip_input` does with a packet. -/
inductive IpInput
  | drop
  | reass (p : List Pbuf)
  | udp (p : List Pbuf) (src dest : UInt32)
  | tcp (p : List Pbuf) (src dest : UInt32)
  | icmp (p : List Pbuf) (src dest : UInt32)
  | protUnreach (p : List Pbuf)

/-- A packet to this address is for the interface. -/
def Netif.accepts (inp : Netif) (dest : UInt32) : Bool :=
  inp.up && !isAny inp.ipAddr && (dest == inp.ipAddr || isBroadcast dest inp)

/-- The packet is for the port of the DHCP client, for which the address does not matter. -/
def isDhcp (q : Pbuf) (iphdrHlen : ℕ) : Option Bool := do
  let proto ← q.byte 9
  if proto = 17 then
    let port ← q.ntohs (iphdrHlen + 2)
    some (port == 68)
  else some false

/-- The end of `ip_input`: the packet goes to the layer above. -/
def ipDeliver (inp : Netif) (q : Pbuf) (p : List Pbuf) (src dest : UInt32) : Option IpInput := do
  let offset ← q.ntohs 6
  if offset &&& 0x3fff ≠ 0 then return .reass p
  let proto ← q.byte 9
  if proto = 17 then return .udp p src dest
  if proto = 6 then return .tcp p src dest
  if proto = 1 then return .icmp p src dest
  if !isBroadcast dest inp && !isMulticast dest then return .protUnreach p
  return .drop

/-- `ip_input`. -/
def ipInput (inp : Netif) (p : List Pbuf) : Option IpInput := do
  let q ← p.head?
  let vhl ← q.byte 0
  if vhl >>> 4 ≠ 4 then return .drop
  let iphdrHlen := (vhl &&& 0x0f).toNat * 4
  let iphdrLen ← q.ntohs 2
  if q.len < iphdrHlen ∨ totLen p < iphdrLen then return .drop
  if inetChksum q.payload (q.data.take iphdrHlen) ≠ 0 then return .drop
  let p := pbufRealloc p iphdrLen
  let dest ← q.addr 16
  let src ← q.addr 12
  let dhcp ← if inp.accepts dest then some false else isDhcp q iphdrHlen
  if !dhcp && !isAny src && (isBroadcast src inp || isMulticast src) then return .drop
  if !inp.accepts dest && !dhcp then return .drop
  ipDeliver inp q p src dest

/-! ## The header -/

section Header

variable {tos ttl proto : UInt8} {len id chksum : ℕ} {src dest : UInt32}

theorem length_ipHdr : (ipHdr tos ttl proto len id chksum src dest).length = 20 := rfl

/-- The sum of the words of a header without a checksum. -/
theorem wordSum_ipHdr (hlen : len < 2 ^ 16) (hid : id < 2 ^ 16) :
    wordSum (ipHdr tos ttl proto len id 0 src dest) =
      onesSum 65535 (0x45 + 256 * tos.toNat + htons len + htons id +
        (ttl.toNat + 256 * proto.toNat) + (src.toNat &&& 0xffff) + (src.toNat >>> 16 &&& 0xffff) +
        (dest.toNat &&& 0xffff) + (dest.toNat >>> 16 &&& 0xffff)) := by
  have hnil : wordSum [] = 0 := rfl
  simp only [ipHdr, addrBytes, be16, le16, List.cons_append, List.nil_append, wordSum_cons_cons,
    onesSum_add_onesSum (by decide : 0 < 65535), low_word, high_word, htons_word hlen,
    htons_word hid, hnil]
  congr 1
  rw [show UInt8.toNat 0x45 = 0x45 from rfl, UInt8.toNat_zero]
  simp
  omega

theorem shiftLeft_or (a : UInt8) {b : ℕ} (hb : b < 2 ^ 8) :
    a.toNat <<< 8 ||| b = 256 * a.toNat + b := by
  rw [← Nat.shiftLeft_add_eq_or_of_lt hb, Nat.shiftLeft_eq, Nat.mul_comm]

/-- The second folding leaves the carry where it is, and the complement has 16 bits. -/
theorem compl_fold {u : ℕ} (hu : u < 2 ^ 32) :
    (0xffffffff - (foldU32t u >>> 16 + foldU32t u)) % 2 ^ 16 = 0xffff - onesSum 65535 u := by
  have hle : foldU32t u ≤ 131070 := by
    rw [foldU32t_eq, fold]
    omega
  rw [← foldU32t_foldU32t hu, foldU32t_eq (foldU32t u), fold, Nat.shiftRight_eq_div_pow]
  omega

/-- The checksum of a header is the one that `inet_chksum` would give. -/
theorem ipChkSum_eq (hlen : len < 2 ^ 16) (hid : id < 2 ^ 16) :
    ipChkSum tos ttl proto len id src dest =
      0xffff - wordSum (ipHdr tos ttl proto len id 0 src dest) := by
  have hsum := @wordSum_ipHdr tos ttl proto len id src dest hlen hid
  have hmask (n : ℕ) : n &&& 0xffff = n % 2 ^ 16 := Nat.and_two_pow_sub_one_eq_mod n 16
  have hhigh (a : UInt32) : a.toNat >>> 16 &&& 0xffff = a.toNat >>> 16 := by
    have ha := a.toNat_lt
    rw [hmask, Nat.shiftRight_eq_div_pow]
    omega
  have hshift (a : UInt32) : a.toNat >>> 16 < 2 ^ 16 := by
    have ha := a.toNat_lt
    rw [Nat.shiftRight_eq_div_pow]
    omega
  have hsrc := hshift src
  have hdest := hshift dest
  have htos := tos.toNat_lt
  have httl := ttl.toNat_lt
  have hproto := proto.toNat_lt
  have hl := htons_le hlen
  have hi := htons_le hid
  rw [hhigh, hhigh, hmask, hmask] at hsum
  rw [ipChkSum, hmask, hmask, shiftLeft_or proto httl, shiftLeft_or tos (by decide)]
  have hmod : (256 * proto.toNat + ttl.toNat + dest.toNat % 2 ^ 16 + dest.toNat >>> 16 +
      (256 * tos.toNat + 0x45) + htons len + htons id + src.toNat % 2 ^ 16 + src.toNat >>> 16) %
        2 ^ 32 = 0x45 + 256 * tos.toNat + htons len + htons id + (ttl.toNat + 256 * proto.toNat) +
          src.toNat % 2 ^ 16 + src.toNat >>> 16 + dest.toNat % 2 ^ 16 + dest.toNat >>> 16 := by
    omega
  rw [hmod, hsum]
  exact compl_fold (by omega)

/-- The sum of a header with its checksum. -/
theorem wordSum_ipHdr_ipChkSum (hlen : len < 2 ^ 16) (hid : id < 2 ^ 16) :
    wordSum (ipHdr tos ttl proto len id (ipChkSum tos ttl proto len id src dest) src dest) =
      65535 := by
  have hle := wordSum_le (ipHdr tos ttl proto len id 0 src dest)
  rw [ipChkSum_eq hlen hid, ipHdr, wordSum_le16 (by simp [be16]) (by omega), ← ipHdr,
    Nat.add_sub_cancel' hle, onesSum_of_le (Nat.le_refl _)]

end Header

/-! ## Reading fields -/

section Read

variable {q : Pbuf} {i n : ℕ}

theorem Pbuf.ntohs_of_byte (hhigh : q.byte i = some (UInt8.ofNat (n / 256)))
    (hlow : q.byte (i + 1) = some (UInt8.ofNat n)) (hn : n < 2 ^ 16) : q.ntohs i = some n := by
  have hword : 256 * (UInt8.ofNat (n / 256)).toNat + (UInt8.ofNat n).toNat = n := by
    simp
    omega
  rw [Pbuf.ntohs, hhigh, hlow]
  exact congrArg some hword

theorem Pbuf.addr_of_byte {a : UInt32} (h₀ : q.byte i = some a.toUInt8)
    (h₁ : q.byte (i + 1) = some (a >>> 8).toUInt8) (h₂ : q.byte (i + 2) = some (a >>> 16).toUInt8)
    (h₃ : q.byte (i + 3) = some (a >>> 24).toUInt8) : q.addr i = some a := by
  rw [Pbuf.addr, h₀, h₁, h₂, h₃]
  exact congrArg some (word32_bytes a)

end Read

end Lwip

end Enc28j60Udp
