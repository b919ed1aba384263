import Enc28j60Udp.Lwip.Ip
import Mathlib.Logic.Function.Basic

/-!
# The UDP layer

The PCBs are found through their addresses, and those that are bound are in the list `udp_pcbs`.
`udp_input` gives a datagram to the first PCB of the list that is connected to its sender, and moves
this PCB to the front; when there is none, to the first that is not connected. `udp_sendto_if` puts
a header with a checksum in front of the data.

Where a PCB lies is what the pool gives; `memp_malloc` is not part of this module.
-/

namespace Enc28j60Udp

namespace Lwip

/-- The fields of `struct udp_pcb`, with the flags as booleans; `recv` says whether a callback is
set. -/
structure UdpPcb where
  localIp : UInt32
  remoteIp : UInt32
  localPort : ℕ
  remotePort : ℕ
  tos : UInt8
  ttl : UInt8
  connected : Bool
  noChksum : Bool
  recv : Bool

/-- The PCBs at their addresses, the list `udp_pcbs`, and `udp_port`. -/
structure Udp where
  pcb : ℕ → UdpPcb
  pcbs : List ℕ
  port : ℕ

/-- The fields of a PCB are set. -/
def Udp.set (s : Udp) (pcb : ℕ) (f : UdpPcb → UdpPcb) : Udp :=
  { s with pcb := Function.update s.pcb pcb (f (s.pcb pcb)) }

section Set

variable {s : Udp} {pcb c : ℕ} {f g : UdpPcb → UdpPcb}

@[simp] theorem Udp.set_pcbs : (s.set pcb f).pcbs = s.pcbs := rfl

@[simp] theorem Udp.set_port : (s.set pcb f).port = s.port := rfl

@[simp] theorem Udp.set_pcb_self : (s.set pcb f).pcb pcb = f (s.pcb pcb) := Function.update_self ..

theorem Udp.set_pcb_of_ne (hc : c ≠ pcb) : (s.set pcb f).pcb c = s.pcb c :=
  Function.update_of_ne hc ..

/-- What the setting of a field leaves as it is. -/
theorem Udp.set_pcb_of_eq {α : Type} (proj : UdpPcb → α) (h : ∀ c, proj (f c) = proj c)
    (c : ℕ) : proj ((s.set pcb f).pcb c) = proj (s.pcb c) := by
  by_cases hc : c = pcb
  · rw [hc, Udp.set_pcb_self, h]
  · rw [Udp.set_pcb_of_ne hc]

theorem Udp.set_set : (s.set pcb f).set pcb g = s.set pcb fun c => g (f c) := by
  rw [Udp.set, Udp.set_pcb_self, Udp.set, Udp.set, Function.update_idem]

end Set

/-- The values of `err_t`. -/
inductive Err
  | ok
  | mem
  | buf
  | rte
  | val
  | use
  | arg
  deriving DecidableEq

/-! ## Ports and PCBs -/

/-- The loop of `udp_new_port`, with the number of rounds that are left: the port, and
`udp_port`. -/
def newPortLoop (used : ℕ → Bool) : ℕ → ℕ → ℕ × ℕ
  | left, port =>
    let port := if port = 0xffff then 0xc000 else port + 1
    if used port then
      match left with
      | 0 => (0, port)
      | left + 1 => newPortLoop used left port
    else (port, port)

/-- `udp_new_port`. -/
def udpNewPort (s : Udp) : ℕ × Udp :=
  let (port, udpPort) :=
    newPortLoop (fun port => s.pcbs.any fun c => (s.pcb c).localPort == port) 0x3fff s.port
  (port, { s with port := udpPort })

/-- The loop of `udp_bind`: `rebind`, or `none` when the port is in use. -/
def bindLoop (s : Udp) (pcb : ℕ) (ipaddr : UInt32) (port : ℕ) : List ℕ → Bool → Option Bool
  | [], rebind => some rebind
  | ipcb :: l, rebind =>
    if pcb = ipcb then bindLoop s pcb ipaddr port l true
    else if (s.pcb ipcb).localPort = port ∧
        (isAny (s.pcb ipcb).localIp ∨ isAny ipaddr ∨ (s.pcb ipcb).localIp = ipaddr) then none
    else bindLoop s pcb ipaddr port l rebind

/-- `udp_bind`. -/
def udpBind (s : Udp) (pcb : ℕ) (ipaddr : UInt32) (port : ℕ) : Err × Udp :=
  match bindLoop s pcb ipaddr port s.pcbs false with
  | none => (.use, s)
  | some rebind =>
    let s := s.set pcb fun c => { c with localIp := ipaddr }
    let (port, s) := if port = 0 then udpNewPort s else (port, s)
    if port = 0 then (.use, s)
    else
      let s := s.set pcb fun c => { c with localPort := port }
      (.ok, if rebind then s else { s with pcbs := pcb :: s.pcbs })

/-- `udp_connect`. -/
def udpConnect (s : Udp) (pcb : ℕ) (ipaddr : UInt32) (port : ℕ) : Err × Udp :=
  let (err, s) :=
    if (s.pcb pcb).localPort = 0 then udpBind s pcb (s.pcb pcb).localIp 0 else (.ok, s)
  if err ≠ .ok then (err, s)
  else
    let s := s.set pcb fun c =>
      { c with remoteIp := ipaddr, remotePort := port, connected := true }
    (.ok, if pcb ∈ s.pcbs then s else { s with pcbs := pcb :: s.pcbs })

/-- `udp_disconnect`. -/
def udpDisconnect (s : Udp) (pcb : ℕ) : Udp :=
  s.set pcb fun c => { c with remoteIp := 0, remotePort := 0, connected := false }

/-- `udp_recv`. -/
def udpRecv (s : Udp) (pcb : ℕ) (recv : Bool) : Udp := s.set pcb fun c => { c with recv := recv }

/-- The loop of `udp_remove`. -/
def removeLoop (pcb : ℕ) : List ℕ → List ℕ
  | pcb2 :: next :: l =>
    if next = pcb then pcb2 :: removeLoop pcb l else pcb2 :: removeLoop pcb (next :: l)
  | l => l

/-- `udp_remove`; the PCB goes back to its pool. -/
def udpRemove (s : Udp) (pcb : ℕ) : Udp :=
  { s with pcbs := if s.pcbs.head? = some pcb then s.pcbs.tail else removeLoop pcb s.pcbs }

/-- `udp_new`, with the PCB that the pool gives. -/
def udpNew (s : Udp) (pcb : ℕ) : Udp :=
  s.set pcb fun _ => ⟨0, 0, 0, 0, 0, 255, false, false, false⟩

/-! ## Output -/

/-- The bytes of a `struct udp_hdr`. -/
def udpHdr (src dest len chksum : ℕ) : List UInt8 :=
  be16 src ++ be16 dest ++ be16 len ++ le16 chksum

/-- What becomes of a datagram that is sent. -/
inductive UdpOutput
  | err (e : Err)
  | ip (out : IpOutput)

/-- The chain with room for the header; `hdr` is the buffer that `pbuf_alloc` gives when the chain
itself has none. -/
def headerChain (p : List Pbuf) (hdr : Option Pbuf) : Option (List Pbuf) :=
  match pbufHeader 8 p with
  | some q => some q
  | none => hdr.map fun q => if totLen p ≠ 0 then q :: p else [q]

/-- The header is written, and the datagram goes to the IP layer. -/
def udpOutput (ipId : ℕ) (c : UdpPcb) (q : List Pbuf) (srcIp dstIp : UInt32) (dstPort : ℕ)
    (netif : Netif) : IpOutput × ℕ :=
  match q with
  | [] => (.errBuf, ipId)
  | q :: p =>
    let len := totLen (q :: p)
    let q₀ := q.write (udpHdr c.localPort dstPort len 0)
    let udpchksum := inetChksumPseudo (q₀ :: p) srcIp dstIp 17 len
    let udpchksum := if udpchksum = 0 then 0xffff else udpchksum
    let q₁ := if c.noChksum then q₀ else q.write (udpHdr c.localPort dstPort len udpchksum)
    ipOutputIf ipId (q₁ :: p) srcIp dstIp c.ttl c.tos 17 netif

/-- `udp_sendto_if`, and `ip_id` after it. -/
def udpSendtoIf (s : Udp) (ipId : ℕ) (pcb : ℕ) (p : List Pbuf) (hdr : Option Pbuf)
    (dstIp : UInt32) (dstPort : ℕ) (netif : Netif) : UdpOutput × Udp × ℕ :=
  let (err, s) :=
    if (s.pcb pcb).localPort = 0 then udpBind s pcb (s.pcb pcb).localIp 0 else (.ok, s)
  if err ≠ .ok then (.err err, s, ipId)
  else
    match headerChain p hdr with
    | none => (.err .mem, s, ipId)
    | some q =>
      let c := s.pcb pcb
      if !isAny c.localIp && c.localIp != netif.ipAddr then (.err .val, s, ipId)
      else
        let srcIp := if isAny c.localIp then netif.ipAddr else c.localIp
        let (out, ipId) := udpOutput ipId c q srcIp dstIp dstPort netif
        (.ip out, s, ipId)

/-- `udp_sendto`. -/
def udpSendto (s : Udp) (ipId : ℕ) (pcb : ℕ) (p : List Pbuf) (hdr : Option Pbuf) (dstIp : UInt32)
    (dstPort : ℕ) (netif : Netif) : UdpOutput × Udp × ℕ :=
  match ipRoute netif dstIp with
  | none => (.err .rte, s, ipId)
  | some netif => udpSendtoIf s ipId pcb p hdr dstIp dstPort netif

/-- `udp_send`. -/
def udpSend (s : Udp) (ipId : ℕ) (pcb : ℕ) (p : List Pbuf) (hdr : Option Pbuf) (netif : Netif) :
    UdpOutput × Udp × ℕ :=
  udpSendto s ipId pcb p hdr (s.pcb pcb).remoteIp (s.pcb pcb).remotePort netif

/-! ## Input -/

/-- The PCB is bound to the destination of a datagram. -/
def UdpPcb.localMatch (c : UdpPcb) (inp : Netif) (destIp : UInt32) (dest : ℕ) : Bool :=
  let broadcast := isBroadcast destIp inp
  c.localPort == dest &&
    ((!broadcast && isAny c.localIp) || c.localIp == destIp ||
      (broadcast && (isAny c.localIp || netCmp c.localIp destIp inp.netmask)))

/-- The PCB is for the source of a datagram. -/
def UdpPcb.remoteMatch (c : UdpPcb) (srcIp : UInt32) (src : ℕ) : Bool :=
  c.remotePort == src && (isAny c.remoteIp || c.remoteIp == srcIp)

/-- The loop over `udp_pcbs`, with the PCBs behind: the PCB that gets the datagram, and the list. -/
def demuxLoop (pcb : ℕ → UdpPcb) (inp : Netif) (srcIp destIp : UInt32) (src dest : ℕ) :
    List ℕ → List ℕ → Option ℕ → Option ℕ × List ℕ
  | [], prev, unconPcb => (unconPcb, prev.reverse)
  | c :: l, prev, unconPcb =>
    let localMatch := (pcb c).localMatch inp destIp dest
    let unconPcb :=
      if localMatch && unconPcb.isNone && !(pcb c).connected then some c else unconPcb
    if localMatch && (pcb c).remoteMatch srcIp src then (some c, c :: (prev.reverse ++ l))
    else demuxLoop pcb inp srcIp destIp src dest l (c :: prev) unconPcb

/-- The PCB that gets a datagram, and `udp_pcbs`. The port 68 is that of the DHCP client, whose PCB
is `dhcp`. -/
def demux (s : Udp) (dhcp : Option ℕ) (inp : Netif) (srcIp destIp : UInt32) (src dest : ℕ) :
    Option ℕ × List ℕ :=
  if dest = 68 then
    (if src = 67 then
      dhcp.filter fun c => isAny (s.pcb c).remoteIp || (s.pcb c).remoteIp == srcIp else none,
      s.pcbs)
  else demuxLoop s.pcb inp srcIp destIp src dest s.pcbs [] none

/-- What `udp_input` does with a datagram. -/
inductive UdpInput
  | drop
  | recv (pcb : ℕ) (p : List Pbuf) (addr : UInt32) (port : ℕ)
  | portUnreach (p : List Pbuf)

/-- `udp_input`, and `udp_pcbs` after it. -/
def udpInput (s : Udp) (dhcp : Option ℕ) (inp : Netif) (ip : List Pbuf) (srcIp destIp : UInt32) :
    Option (UdpInput × Udp) := do
  let q ← ip.head?
  let vhl ← q.byte 0
  let hlen := (vhl &&& 0x0f).toNat * 4
  if totLen ip < hlen + 8 then return (.drop, s)
  let some p := pbufHeader (-hlen) ip | return (.drop, s)
  let u ← p.head?
  let src ← u.ntohs 0
  let dest ← u.ntohs 2
  let (pcb, pcbs) := demux s dhcp inp srcIp destIp src dest
  let s := { s with pcbs := pcbs }
  if pcb.isNone && inp.ipAddr != destIp then return (.drop, s)
  let chksum ← u.ntohs 6
  if chksum ≠ 0 ∧ inetChksumPseudo p srcIp destIp 17 (totLen p) ≠ 0 then return (.drop, s)
  let some data := pbufHeader (-8) p | return (.drop, s)
  match pcb with
  | some c => if (s.pcb c).recv then return (.recv c data srcIp src, s) else return (.drop, s)
  | none =>
    if !isBroadcast destIp inp && !isMulticast destIp then return (.portUnreach ip, s)
    else return (.drop, s)

end Lwip

end Enc28j60Udp
