import Enc28j60Udp.Lwip.Udp

/-!
# ARP

`etharp_output` looks up the hardware address of the next hop in a table. When there is none, the
packet waits in an entry of the table, one for each address, and a request is sent; the packet is
sent when `etharp_arp_input` finds the address in an ARP packet. `etharp_tmr` lets entries expire.

There is one interface, whose flag for ARP is set, and no queue behind a packet that waits: a later
packet replaces it. A packet is the bytes behind the Ethernet header, for which there is room in
front of it.
-/

namespace Enc28j60Udp

namespace Lwip

/-! ## The table -/

/-- `enum etharp_state`. -/
inductive EtharpState
  | empty
  | pending
  | stable
  | stableRerequesting
  deriving DecidableEq

/-- `state >= ETHARP_STATE_STABLE`. -/
def EtharpState.geStable : EtharpState → Bool
  | stable | stableRerequesting => true
  | _ => false

/-- `struct etharp_entry`; `netif` says whether the interface is recorded. -/
structure EtharpEntry where
  q : Option (List UInt8)
  ipaddr : UInt32
  netif : Bool
  ethaddr : List UInt8
  state : EtharpState
  ctime : ℕ

/-- What the module does: an IP packet is sent in a frame, an ARP packet is sent, or a packet that
waits is freed. Of an IP packet the address is recorded for which it is. -/
inductive EtharpAct
  | sendIp (ipaddr : UInt32) (p frame : List UInt8)
  | link (frame : List UInt8)
  | drop (ipaddr : UInt32) (p : List UInt8)

/-- `arp_table`, `etharp_cached_entry`, and what was done so far. -/
structure Etharp where
  table : ℕ → EtharpEntry
  cached : ℕ
  acts : List EtharpAct

/-- `ARP_TABLE_SIZE`. -/
def arpTableSize : ℕ := 10

namespace Etharp

/-- Fields of an entry are set. -/
def set (s : Etharp) (i : ℕ) (f : EtharpEntry → EtharpEntry) : Etharp :=
  { s with table := Function.update s.table i (f (s.table i)) }

/-- Something is done. -/
def act (s : Etharp) (a : EtharpAct) : Etharp := { s with acts := s.acts ++ [a] }

/-- The packet that waits in an entry is freed. -/
def dropQ (s : Etharp) (i : ℕ) : Etharp :=
  match (s.table i).q with
  | some p => s.act (.drop (s.table i).ipaddr p)
  | none => s

end Etharp

/-- `etharp_free_entry`. -/
def etharpFreeEntry (s : Etharp) (i : ℕ) : Etharp :=
  (s.dropQ i).set i fun e => { e with q := none, state := .empty }

/-- The body of the loop of `etharp_tmr`. -/
def etharpTmrEntry (s : Etharp) (i : ℕ) : Etharp :=
  if (s.table i).state = .empty then s
  else
    let s := s.set i fun e => { e with ctime := (e.ctime + 1) % 2 ^ 8 }
    let e := s.table i
    if 240 ≤ e.ctime ∨ e.state = .pending ∧ 2 ≤ e.ctime then etharpFreeEntry s i
    else if e.state = .stableRerequesting then s.set i fun e => { e with state := .stable }
    else s

/-- `etharp_tmr`. -/
def etharpTmr (s : Etharp) : Etharp := (List.range arpTableSize).foldl etharpTmrEntry s

/-- The body of the loop of `etharp_cleanup_netif`. -/
def cleanupEntry (s : Etharp) (i : ℕ) : Etharp :=
  if (s.table i).state ≠ .empty ∧ (s.table i).netif = true then etharpFreeEntry s i else s

/-- `etharp_cleanup_netif`. -/
def etharpCleanupNetif (s : Etharp) : Etharp := (List.range arpTableSize).foldl cleanupEntry s

/-- The candidates that `etharp_find_entry` remembers, with their ages. -/
structure Candidates where
  empty : ℕ
  oldPending : ℕ
  oldStable : ℕ
  oldQueue : ℕ
  agePending : ℕ
  ageStable : ℕ
  ageQueue : ℕ

/-- The candidates when entry `i` has been looked at. -/
def Candidates.see (c : Candidates) (i : ℕ) (e : EtharpEntry) : Candidates :=
  if e.state = .empty then if c.empty = arpTableSize then { c with empty := i } else c
  else if e.state = .pending then
    if e.q.isSome then
      if c.ageQueue ≤ e.ctime then { c with oldQueue := i, ageQueue := e.ctime } else c
    else if c.agePending ≤ e.ctime then { c with oldPending := i, agePending := e.ctime } else c
  else if c.ageStable ≤ e.ctime then { c with oldStable := i, ageStable := e.ctime } else c

/-- The search of `etharp_find_entry`: an entry with the address, or the candidates. -/
def findLoop (table : ℕ → EtharpEntry) (ipaddr : UInt32) : List ℕ → Candidates → ℕ ⊕ Candidates
  | [], c => .inr c
  | i :: l, c =>
    if (table i).state ≠ .empty ∧ ipaddr = (table i).ipaddr then .inl i
    else findLoop table ipaddr l (c.see i (table i))

/-- The entry that is recycled when none is empty. -/
def Candidates.recycle (c : Candidates) : Option ℕ :=
  if c.oldStable < arpTableSize then some c.oldStable
  else if c.oldPending < arpTableSize then some c.oldPending
  else if c.oldQueue < arpTableSize then some c.oldQueue
  else none

/-- `etharp_find_entry`, with `ETHARP_FLAG_TRY_HARD` or with `ETHARP_FLAG_FIND_ONLY`; `none` is
`ERR_MEM`. -/
def etharpFindEntry (s : Etharp) (ipaddr : UInt32) (tryHard : Bool) : Option ℕ × Etharp :=
  match findLoop s.table ipaddr (List.range arpTableSize)
    ⟨arpTableSize, arpTableSize, arpTableSize, arpTableSize, 0, 0, 0⟩ with
  | .inl i => (some i, s)
  | .inr c =>
    if !tryHard then (none, s)
    else if c.empty < arpTableSize then
      (some c.empty, s.set c.empty fun e => { e with ipaddr, ctime := 0 })
    else
      match c.recycle with
      | none => (none, s)
      | some i => (some i, (etharpFreeEntry s i).set i fun e => { e with ipaddr, ctime := 0 })

/-! ## Frames -/

/-- `ethbroadcast`. -/
def ethbroadcast : List UInt8 := List.replicate 6 0xff

/-- `ethzero`. -/
def ethzero : List UInt8 := List.replicate 6 0

/-- The bytes of a `struct eth_hdr`. -/
def ethHdr (dest src : List UInt8) (type : ℕ) : List UInt8 := dest ++ src ++ be16 type

/-- `etharp_send_ip`, of a packet that is for `ipaddr`. -/
def etharpSendIp (s : Etharp) (netif : Netif) (ipaddr : UInt32) (p dst : List UInt8) : Etharp :=
  s.act (.sendIp ipaddr p (ethHdr dst netif.hwaddr 0x0800 ++ p))

/-- The packet of `etharp_raw`. -/
def etharpPacket (ethsrc ethdst hwsrc : List UInt8) (ipsrc : UInt32) (hwdst : List UInt8)
    (ipdst : UInt32) (opcode : ℕ) : List UInt8 :=
  ethHdr ethdst ethsrc 0x0806 ++ (be16 1 ++ be16 0x0800 ++ [6, 4] ++ be16 opcode) ++
    (hwsrc ++ addrBytes ipsrc) ++ (hwdst ++ addrBytes ipdst)

/-- The packet of `etharp_request`. -/
def requestPacket (netif : Netif) (ipaddr : UInt32) : List UInt8 :=
  etharpPacket netif.hwaddr ethbroadcast netif.hwaddr netif.ipAddr ethzero ipaddr 1

/-- `etharp_request`; `alloc` is whether `pbuf_alloc` gives a `pbuf`. -/
def etharpRequest (s : Etharp) (netif : Netif) (ipaddr : UInt32) (alloc : Bool) : Bool × Etharp :=
  if alloc then (true, s.act (.link (requestPacket netif ipaddr))) else (false, s)

/-! ## Input -/

/-- The address is none of a host. -/
def nonUnicast (ipaddr : UInt32) (netif : Netif) : Bool :=
  isAny ipaddr || isBroadcast ipaddr netif || isMulticast ipaddr

/-- `etharp_update_arp_entry`. -/
def etharpUpdateArpEntry (s : Etharp) (netif : Netif) (ipaddr : UInt32) (ethaddr : List UInt8)
    (tryHard : Bool) : Etharp :=
  if nonUnicast ipaddr netif then s
  else
    match etharpFindEntry s ipaddr tryHard with
    | (none, s) => s
    | (some i, s) =>
      let s := s.set i fun e => { e with state := .stable, netif := true, ethaddr, ctime := 0 }
      match (s.table i).q with
      | none => s
      | some p => etharpSendIp (s.set i fun e => { e with q := none }) netif ipaddr p ethaddr

/-- The hardware address at a distance from the payload. -/
def Pbuf.mac (q : Pbuf) (i : ℕ) : List UInt8 := ((q.data ++ q.behind).drop i).take 6

/-- The types and lengths in an ARP packet are those of Ethernet and IP. -/
def Pbuf.arpTypes (q : Pbuf) : Option Bool := do
  let hwtype ← q.ntohs 14
  let hwlen ← q.byte 18
  let protolen ← q.byte 19
  let proto ← q.ntohs 16
  return hwtype = 1 && hwlen = 6 && protolen = 4 && proto = 0x0800

/-- A request is made a reply in its own buffer. -/
def arpReply (netif : Netif) (p : List Pbuf) (shwaddr : List UInt8) : List UInt8 :=
  let d := chainData p
  shwaddr ++ netif.hwaddr ++ (d.drop 12).take 8 ++ be16 2 ++
    (netif.hwaddr ++ addrBytes netif.ipAddr) ++ (shwaddr ++ (d.drop 28).take 4) ++ d.drop 42

/-- `etharp_arp_input`. -/
def etharpArpInput (s : Etharp) (netif : Netif) (p : List Pbuf) : Option Etharp := do
  let q ← p.head?
  if q.len < 42 then return s
  let types ← q.arpTypes
  if types = false then return s
  let sipaddr ← q.addr 28
  let dipaddr ← q.addr 38
  let forUs := !isAny netif.ipAddr && dipaddr == netif.ipAddr
  let s := etharpUpdateArpEntry s netif sipaddr (q.mac 22) forUs
  let opcode ← q.ntohs 20
  if opcode = 1 ∧ forUs then return s.act (.link (arpReply netif p (q.mac 22)))
  return s

/-- What `ethernet_input` does with a frame. -/
inductive EthInput
  | drop
  | ip (p : List Pbuf)
  | arp (p : List Pbuf)

/-- `ethernet_input`. -/
def ethernetInput (p : List Pbuf) : Option EthInput := do
  let q ← p.head?
  if q.len ≤ 14 then return .drop
  let type ← q.ntohs 12
  if type = 0x0800 then
    match pbufHeader (-14) p with
    | some p => return .ip p
    | none => return .drop
  if type = 0x0806 then return .arp p
  return .drop

/-! ## Output -/

/-- `etharp_output_to_arp_index`. -/
def etharpOutputToArpIndex (s : Etharp) (netif : Netif) (p : List UInt8) (i : ℕ) (alloc : Bool) :
    Etharp :=
  let e := s.table i
  let s :=
    if e.state = .stable ∧ 228 ≤ e.ctime then
      let (ok, s) := etharpRequest s netif e.ipaddr alloc
      if ok then s.set i fun e => { e with state := .stableRerequesting } else s
    else s
  etharpSendIp s netif e.ipaddr p e.ethaddr

/-- A fresh entry is marked as pending. -/
def markPending (s : Etharp) (i : ℕ) : Etharp :=
  if (s.table i).state = .empty then s.set i fun e => { e with state := .pending } else s

/-- The end of `etharp_query` for a packet: it is sent, or a copy of it waits, if there is one. -/
def etharpQueue (s : Etharp) (netif : Netif) (ipaddr : UInt32) (i : ℕ) (q : List UInt8)
    (copy : Bool) : Err × Etharp :=
  if (s.table i).state.geStable then
    (.ok, etharpSendIp { s with cached := i } netif ipaddr q (s.table i).ethaddr)
  else if copy then (.ok, (s.dropQ i).set i fun e => { e with q := some q })
  else (.mem, s)

/-- `etharp_query`; `copy` is whether the packet can be copied. What `etharp_request` returns is the
result only without a packet. -/
def etharpQuery (s : Etharp) (netif : Netif) (ipaddr : UInt32) (q : Option (List UInt8))
    (alloc copy : Bool) : Err × Etharp :=
  if nonUnicast ipaddr netif then (.arg, s)
  else
    match etharpFindEntry s ipaddr true with
    | (none, s) => (.mem, s)
    | (some i, s) =>
      let s := markPending s i
      match q with
      | none =>
        let (ok, s) := etharpRequest s netif ipaddr alloc
        (if ok then .ok else .mem, s)
      | some q =>
        let s :=
          if (s.table i).state = .pending then (etharpRequest s netif ipaddr alloc).2 else s
        etharpQueue s netif ipaddr i q copy

/-- The address that IP multicast is sent to. -/
def mcastaddr (ipaddr : UInt32) : List UInt8 :=
  [0x01, 0x00, 0x5e, (ipaddr >>> 8).toUInt8 &&& 0x7f, (ipaddr >>> 16).toUInt8,
    (ipaddr >>> 24).toUInt8]

/-- The next hop: the gateway outside the local network; `none` is `ERR_RTE`. -/
def nextHop (netif : Netif) (ipaddr : UInt32) : Option UInt32 :=
  if !netCmp ipaddr netif.ipAddr netif.netmask && !isLinkLocal ipaddr then
    if isAny netif.gw then none else some netif.gw
  else some ipaddr

/-- The entry has the hardware address of the next hop. -/
def EtharpEntry.resolves (e : EtharpEntry) (dstAddr : UInt32) : Bool :=
  e.state.geStable && dstAddr == e.ipaddr

/-- The look-up of `etharp_output` for an address of a host. -/
def etharpOutputUnicast (s : Etharp) (netif : Netif) (p : List UInt8) (dstAddr : UInt32)
    (alloc copy : Bool) : Err × Etharp :=
  if (s.table s.cached).resolves dstAddr then
    (.ok, etharpOutputToArpIndex s netif p s.cached alloc)
  else
    match (List.range arpTableSize).find? fun i => (s.table i).resolves dstAddr with
    | some i => (.ok, etharpOutputToArpIndex { s with cached := i } netif p i alloc)
    | none => etharpQuery s netif dstAddr (some p) alloc copy

/-- `etharp_output`. -/
def etharpOutput (s : Etharp) (netif : Netif) (q : List Pbuf) (ipaddr : UInt32)
    (alloc copy : Bool) : Err × Etharp :=
  match pbufHeader 14 q with
  | none => (.buf, s)
  | some _ =>
    if isBroadcast ipaddr netif then
      (.ok, etharpSendIp s netif ipaddr (chainData q) ethbroadcast)
    else if isMulticast ipaddr then
      (.ok, etharpSendIp s netif ipaddr (chainData q) (mcastaddr ipaddr))
    else
      match nextHop netif ipaddr with
      | none => (.rte, s)
      | some dstAddr => etharpOutputUnicast s netif (chainData q) dstAddr alloc copy

end Lwip

end Enc28j60Udp
