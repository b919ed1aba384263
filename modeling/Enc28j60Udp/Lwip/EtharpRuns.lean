import Enc28j60Udp.Foundations.Runs
import Enc28j60Udp.Lwip.EtharpFrames
import Enc28j60Udp.Lwip.EtharpTable

/-!
# Runs of an interface with ARP

Packets go out, frames come in, the timer ticks, and the addresses of the interface are set; in any
order. The ledger of a run has the hardware address that was announced last for each address, and
the packets that `etharp_output` took.
-/

namespace Enc28j60Udp

namespace Lwip

/-! ## Runs -/

/-- The hardware addresses that are known after an announcement. -/
def learn (known : UInt32 → Option (List UInt8)) :
    Option (UInt32 × List UInt8) → UInt32 → Option (List UInt8)
  | none => known
  | some (ipaddr, ethaddr) => Function.update known ipaddr (some ethaddr)

/-- An interface with ARP, and the ledger of its run. -/
structure ArpLink where
  netif : Netif
  etharp : Etharp
  announced : UInt32 → Option (List UInt8)
  accepted : Multiset Parcel

/-- What happens to the interface. -/
inductive ArpEvent
  | output (q : List Pbuf) (ipaddr : UInt32) (alloc copy : Bool)
  | query (ipaddr : UInt32) (alloc : Bool)
  | request (ipaddr : UInt32) (alloc : Bool)
  | frame (q : Pbuf) (p : List Pbuf)
  | tmr
  | cleanup
  | configure (netif : Netif)

/-- The address for which `etharp_output` sends a packet. -/
def hop (netif : Netif) (ipaddr : UInt32) : UInt32 :=
  if isBroadcast ipaddr netif || isMulticast ipaddr then ipaddr
  else (nextHop netif ipaddr).getD ipaddr

/-- One event; `none` when a byte outside a buffer is read. -/
def arpStep (s : Option ArpLink) (e : ArpEvent) : Option ArpLink := do
  let s ← s
  match e with
  | .output q ipaddr alloc copy =>
    let out := etharpOutput s.etharp s.netif q ipaddr alloc copy
    let accepted := s.accepted + taken out.1 (hop s.netif ipaddr, chainData q)
    return { s with etharp := out.2, accepted }
  | .query ipaddr alloc =>
    return { s with etharp := (etharpQuery s.etharp s.netif ipaddr none alloc false).2 }
  | .request ipaddr alloc =>
    return { s with etharp := (etharpRequest s.etharp s.netif ipaddr alloc).2 }
  | .frame q p =>
    match ← ethernetInput (q :: p) with
    | .arp p =>
      let etharp ← etharpArpInput s.etharp s.netif p
      return { s with etharp, announced := learn s.announced (announcement s.netif q) }
    | .ip _ | .drop => return s
  | .tmr => return { s with etharp := etharpTmr s.etharp }
  | .cleanup => return { s with etharp := etharpCleanupNetif s.etharp }
  | .configure netif => return { s with netif }

/-- The interface after the start, with an empty table. -/
def ArpLink.start (netif : Netif) : ArpLink where
  netif := netif
  etharp := ⟨fun _ => ⟨none, 0, false, ethzero, .empty, 0⟩, 0, []⟩
  announced _ := none
  accepted := 0

/-! ## What holds of a run -/

/-- What holds of the interface: an address has one entry, packets wait in pending entries, an entry
with a hardware address has the one that was announced last, and each packet that was taken was
sent, waits, or was freed. -/
structure ArpSound (s : ArpLink) : Prop where
  cached_lt : s.etharp.cached < arpTableSize
  unique : ∀ i < arpTableSize, ∀ j < arpTableSize, (s.etharp.table i).Used →
    (s.etharp.table j).Used → (s.etharp.table i).ipaddr = (s.etharp.table j).ipaddr → i = j
  waits : ∀ i < arpTableSize, (s.etharp.table i).q ≠ none → (s.etharp.table i).state = .pending
  learned : ∀ i < arpTableSize, (s.etharp.table i).state.geStable = true →
    s.announced (s.etharp.table i).ipaddr = some (s.etharp.table i).ethaddr
  conserved : s.accepted = s.etharp.sent + s.etharp.waiting + s.etharp.dropped

/-- The reply to a request for the address of the interface, in the buffers of the request. -/
def replyTo (netif : Netif) (q : Pbuf) (p : List Pbuf) (sipaddr : UInt32) : List UInt8 :=
  etharpPacket netif.hwaddr (q.mac 22) netif.hwaddr netif.ipAddr (q.mac 22) sipaddr 2 ++
    (chainData (q :: p)).drop 42

/-- The frame asks for the address of the interface, on behalf of `sipaddr`. -/
def AsksFor (netif : Netif) (q : Pbuf) (sipaddr : UInt32) : Prop :=
  42 ≤ q.len ∧ ArpFields q (q.mac 22) sipaddr netif.ipAddr 1 ∧ isAny netif.ipAddr = false

/-- The event has to find out the hardware address of `ipaddr`. -/
def Resolves (netif : Netif) (ipaddr : UInt32) : ArpEvent → Prop
  | .output _ dest _ _ => hop netif dest = ipaddr
  | .query dest _ | .request dest _ => dest = ipaddr
  | _ => False

/-- What an event may do, behind which the hardware addresses `known` are known. An IP packet goes
to the hardware address that is known for its address. An ARP packet is a request for an address
that has to be found out, or the reply to a request. A packet is freed by the timer, when the
interface is cleaned up, in favour of another packet for the same address, and when a packet waits
in every entry. -/
def May (s : ArpLink) (e : ArpEvent) (known : UInt32 → Option (List UInt8)) : EtharpAct → Prop
  | .sendIp ipaddr p frame => ∃ dst, frame = ethHdr dst s.netif.hwaddr 0x0800 ++ p ∧
      (known ipaddr = some dst ∨ isBroadcast ipaddr s.netif = true ∧ dst = ethbroadcast ∨
        isMulticast ipaddr = true ∧ dst = mcastaddr ipaddr)
  | .link frame => (∃ ipaddr, Resolves s.netif ipaddr e ∧ frame = requestPacket s.netif ipaddr) ∨
      ∃ q p sipaddr, e = .frame q p ∧ AsksFor s.netif q sipaddr ∧
        frame = replyTo s.netif q p sipaddr
  | .drop ipaddr _ => e = .tmr ∨ e = .cleanup ∨
      (∃ q dest alloc copy, e = .output q dest alloc copy ∧ hop s.netif dest = ipaddr) ∨
      ∀ i < arpTableSize, (s.etharp.table i).q ≠ none

/-- What an event has to do. A packet that `etharp_output` takes is sent, or its address is asked
for when there is a buffer for the request. The packet that waits for an address is sent when the
address is announced, and a request for the address of the interface is replied to. -/
def Must (s : ArpLink) (l : List EtharpAct) : ArpEvent → Prop
  | .output q ipaddr alloc copy =>
    (etharpOutput s.etharp s.netif q ipaddr alloc copy).1 = .ok →
      (∃ frame, .sendIp (hop s.netif ipaddr) (chainData q) frame ∈ l) ∨
        (alloc = true → .link (requestPacket s.netif (hop s.netif ipaddr)) ∈ l)
  | .frame q p =>
    (∀ ipaddr ethaddr, announcement s.netif q = some (ipaddr, ethaddr) →
      ∀ i < arpTableSize, ∀ pkt, (s.etharp.table i).q = some pkt →
        (s.etharp.table i).ipaddr = ipaddr →
        .sendIp ipaddr pkt (ethHdr ethaddr s.netif.hwaddr 0x0800 ++ pkt) ∈ l) ∧
      ∀ sipaddr, AsksFor s.netif q sipaddr → .link (replyTo s.netif q p sipaddr) ∈ l
  | _ => True

/-- An event leaves a sound interface, does what it has to do, and nothing but what it may. -/
def ArpStepOk (s : ArpLink) (e : ArpEvent) (s' : ArpLink) : Prop :=
  ArpSound s' ∧ ∃ l, s'.etharp.acts = s.etharp.acts ++ l ∧ Must s l e ∧
    ∀ a ∈ l, May s e s'.announced a

/-! ## What is done -/

/-- From `s` to `s'`, `a` is done. -/
def Etharp.Adds (s s' : Etharp) (a : EtharpAct) : Prop :=
  ∃ l₁ l₂, s'.acts = s.acts ++ (l₁ ++ a :: l₂)

section Adds

variable {s s₁ s₂ : Etharp} {a : EtharpAct} {i : ℕ} {netif : Netif} {ipaddr : UInt32}
  {p : List UInt8} {alloc copy : Bool}

theorem Etharp.adds_act (h : s.acts <+: s₁.acts) : s.Adds (s₁.act a) a := by
  obtain ⟨l, hl⟩ := h
  exact ⟨l, [], by rw [act_acts, ← hl, List.append_assoc]⟩

theorem Etharp.Adds.trans (h : s.Adds s₁ a) (h' : s₁.acts <+: s₂.acts) : s.Adds s₂ a := by
  obtain ⟨l₁, l₂, hl⟩ := h
  obtain ⟨l, hl'⟩ := h'
  refine ⟨l₁, l₂ ++ l, ?_⟩
  rw [← hl', hl, List.append_assoc, List.append_assoc, List.cons_append]

theorem Etharp.Adds.after (h : s₁.Adds s₂ a) (h' : s.acts <+: s₁.acts) : s.Adds s₂ a := by
  obtain ⟨l₁, l₂, hl⟩ := h
  obtain ⟨l, hl'⟩ := h'
  exact ⟨l ++ l₁, l₂, by rw [hl, ← hl', List.append_assoc, List.append_assoc]⟩

theorem Etharp.Adds.mem {l : List EtharpAct} (h : s.Adds s₁ a) (hl : s₁.acts = s.acts ++ l) :
    a ∈ l := by
  obtain ⟨l₁, l₂, hl'⟩ := h
  rw [hl] at hl'
  rw [List.append_cancel_left hl']
  exact List.mem_append_right l₁ List.mem_cons_self

theorem Etharp.dropQ_grows : s.acts <+: (s.dropQ i).acts := by
  rw [dropQ]
  cases (s.table i).q with
  | none => exact List.prefix_rfl
  | some p => exact List.prefix_append _ _

theorem etharpRequest_grows : s.acts <+: (etharpRequest s netif ipaddr alloc).2.acts := by
  cases alloc with
  | true => exact List.prefix_append _ _
  | false => exact List.prefix_rfl

theorem etharpOutputToArpIndex_adds :
    s.Adds (etharpOutputToArpIndex s netif p i alloc) (.sendIp (s.table i).ipaddr p
      (ethHdr (s.table i).ethaddr netif.hwaddr 0x0800 ++ p)) := by
  rw [etharpOutputToArpIndex]
  dsimp only
  refine Etharp.adds_act ?_
  split_ifs
  · exact etharpRequest_grows
  · exact etharpRequest_grows
  · exact List.prefix_rfl

theorem etharpQueue_adds (hst : (s.table i).state.geStable = true) :
    s.Adds (etharpQueue s netif ipaddr i p copy).2 (.sendIp ipaddr p
      (ethHdr (s.table i).ethaddr netif.hwaddr 0x0800 ++ p)) := by
  rw [etharpQueue, if_pos hst]
  exact Etharp.adds_act List.prefix_rfl

theorem etharpQueue_grows : s.acts <+: (etharpQueue s netif ipaddr i p copy).2.acts := by
  rw [etharpQueue]
  split_ifs
  · exact List.prefix_append _ _
  · exact Etharp.dropQ_grows
  · exact List.prefix_rfl

/-- `etharp_query` sends the packet, or it asks for the address. -/
theorem etharpQuery_adds {known : UInt32 → Option (List UInt8)} {total : Multiset Parcel}
    (h : s.Inv (fun _ => True) known s.acts total)
    (hok : (etharpQuery s netif ipaddr (some p) alloc copy).1 = .ok) :
    (∃ frame, s.Adds (etharpQuery s netif ipaddr (some p) alloc copy).2
      (.sendIp ipaddr p frame)) ∨
      (alloc = true → s.Adds (etharpQuery s netif ipaddr (some p) alloc copy).2
        (.link (requestPacket netif ipaddr))) := by
  rw [etharpQuery] at hok ⊢
  split_ifs at hok ⊢
  obtain ⟨hfind, -⟩ | ⟨i, s', hfind, hinv, hfound⟩ :=
    h.etharpFindEntry ipaddr true fun _ _ _ => trivial
  · rw [hfind] at hok
    cases hok
  rw [hfind]
  obtain ⟨hmarked, -, hused⟩ := hinv.markPending hfound
  have hgrows : s.acts <+: (markPending s' i).acts := by
    obtain ⟨l, hl, -⟩ := hmarked.acts
    exact ⟨l, hl.symm⟩
  dsimp only
  split_ifs with hpending
  · refine .inr ?_
    rintro rfl
    exact (Etharp.adds_act hgrows).trans etharpQueue_grows
  · have hst := EtharpState.geStable_iff.mpr ⟨hused, hpending⟩
    exact .inl ⟨_, (etharpQueue_adds hst).after hgrows⟩

theorem etharpOutputUnicast_adds {known : UInt32 → Option (List UInt8)} {total : Multiset Parcel}
    (h : s.Inv (fun _ => True) known s.acts total)
    (hok : (etharpOutputUnicast s netif p ipaddr alloc copy).1 = .ok) :
    (∃ frame, s.Adds (etharpOutputUnicast s netif p ipaddr alloc copy).2
      (.sendIp ipaddr p frame)) ∨
      (alloc = true → s.Adds (etharpOutputUnicast s netif p ipaddr alloc copy).2
        (.link (requestPacket netif ipaddr))) := by
  have hsend {j : ℕ} (s' : Etharp) (hs' : s'.acts = s.acts) (htable : s'.table = s.table)
      (hr : (s.table j).resolves ipaddr = true) :
      ∃ frame, s.Adds (etharpOutputToArpIndex s' netif p j alloc) (.sendIp ipaddr p frame) := by
    rw [EtharpEntry.resolves, Bool.and_eq_true, beq_iff_eq] at hr
    have hadds : s'.Adds (etharpOutputToArpIndex s' netif p j alloc) _ :=
      etharpOutputToArpIndex_adds
    rw [htable, ← hr.2] at hadds
    exact ⟨_, hadds.after (hs' ▸ List.prefix_rfl)⟩
  rw [etharpOutputUnicast] at hok ⊢
  split_ifs at hok ⊢ with hcached
  · exact .inl (hsend s rfl rfl hcached)
  cases hfind : (List.range arpTableSize).find? fun i => (s.table i).resolves ipaddr with
  | none =>
    rw [hfind] at hok
    exact etharpQuery_adds h hok
  | some i => exact .inl (hsend _ rfl rfl
      (List.find?_some (p := fun i => (s.table i).resolves ipaddr) hfind))

end Adds

/-! ## One event -/

section Step

variable {s : ArpLink} {e : ArpEvent} {A : EtharpAct → Prop}
  {known : UInt32 → Option (List UInt8)}

theorem ArpSound.inv (h : ArpSound s) (A : EtharpAct → Prop) :
    s.etharp.Inv A s.announced s.etharp.acts s.accepted :=
  ⟨h.cached_lt, h.unique, h.waits, h.learned, ⟨[], (List.append_nil _).symm,
    fun _ ha => absurd ha List.not_mem_nil⟩, h.conserved.symm⟩

theorem ArpStepOk.of_inv {netif : Netif} {etharp : Etharp} {accepted : Multiset Parcel}
    (h : etharp.Inv (May s e known) known s.etharp.acts accepted)
    (hmust : ∀ l, etharp.acts = s.etharp.acts ++ l → Must s l e) :
    ArpStepOk s e ⟨netif, etharp, known, accepted⟩ := by
  obtain ⟨l, hl, hmay⟩ := h.acts
  exact ⟨⟨h.cached_lt, h.unique, h.waits, h.learned, h.ledger.symm⟩, l, hl, hmust l hl, hmay⟩

theorem allows_may (known : UInt32 → Option (List UInt8)) {ipaddr : UInt32}
    (h : Resolves s.netif ipaddr e) :
    Allows (May s e known) known s.netif s.etharp ipaddr where
  full h _ _ := .inr (.inr (.inr h))
  request := .inl ⟨ipaddr, h, rfl⟩
  send _ _ dst h := ⟨dst, rfl, .inl h⟩

theorem hop_of_broadcast {netif : Netif} {ipaddr : UInt32} (h : isBroadcast ipaddr netif = true) :
    hop netif ipaddr = ipaddr := by
  rw [hop, h, Bool.true_or, if_pos rfl]

theorem hop_of_multicast {netif : Netif} {ipaddr : UInt32} (h : isMulticast ipaddr = true) :
    hop netif ipaddr = ipaddr := by
  rw [hop, h, Bool.or_true, if_pos rfl]

theorem hop_of_nextHop {netif : Netif} {ipaddr dstAddr : UInt32}
    (hbroadcast : ¬isBroadcast ipaddr netif = true) (hmulticast : ¬isMulticast ipaddr = true)
    (h : nextHop netif ipaddr = some dstAddr) : hop netif ipaddr = dstAddr := by
  rw [hop, Bool.eq_false_of_not_eq_true hbroadcast, Bool.eq_false_of_not_eq_true hmulticast,
    Bool.or_self, if_neg Bool.false_ne_true, h, Option.getD_some]

/-- `etharp_output` keeps the invariant, and takes the packet when it returns `ERR_OK`. -/
theorem ArpSound.output (h : ArpSound s) (q : List Pbuf) (ipaddr : UInt32) (alloc copy : Bool) :
    (etharpOutput s.etharp s.netif q ipaddr alloc copy).2.Inv
      (May s (.output q ipaddr alloc copy) s.announced) s.announced s.etharp.acts
      (s.accepted + taken (etharpOutput s.etharp s.netif q ipaddr alloc copy).1
        (hop s.netif ipaddr, chainData q)) := by
  have hinv := h.inv (May s (.output q ipaddr alloc copy) s.announced)
  have hnot : s.etharp.Inv (May s (.output q ipaddr alloc copy) s.announced) s.announced
      s.etharp.acts (s.accepted + 0) := (add_zero s.accepted).symm ▸ hinv
  rw [etharpOutput]
  cases pbufHeader 14 q with
  | none => exact hnot
  | some _ =>
    dsimp only
    split_ifs with hbroadcast hmulticast
    · rw [hop_of_broadcast hbroadcast]
      exact hinv.sendIp ⟨_, rfl, .inr (.inl ⟨hbroadcast, rfl⟩)⟩
    · rw [hop_of_multicast hmulticast]
      exact hinv.sendIp ⟨_, rfl, .inr (.inr ⟨hmulticast, rfl⟩)⟩
    · cases hnext : nextHop s.netif ipaddr with
      | none => exact hnot
      | some dstAddr =>
        have hhop := hop_of_nextHop hbroadcast hmulticast hnext
        rw [hhop]
        have hresolves : Resolves s.netif dstAddr (.output q ipaddr alloc copy) := hhop
        refine hinv.etharpOutputUnicast (allows_may s.announced hresolves) fun _ => ?_
        exact .inr (.inr (.inl ⟨q, ipaddr, alloc, copy, rfl, hhop⟩))

/-- `etharp_output` sends the packet that it takes, or it asks for its address. -/
theorem ArpSound.output_must (h : ArpSound s) {q : List Pbuf} {ipaddr : UInt32} {alloc copy : Bool}
    {l : List EtharpAct}
    (hl : (etharpOutput s.etharp s.netif q ipaddr alloc copy).2.acts = s.etharp.acts ++ l) :
    Must s l (.output q ipaddr alloc copy) := by
  intro hok
  rw [etharpOutput] at hok hl
  cases hroom : pbufHeader 14 q with
  | none =>
    rw [hroom] at hok
    cases hok
  | some q' =>
    rw [hroom] at hok hl
    dsimp only at hok hl
    split_ifs at hok hl with hbroadcast hmulticast
    · rw [hop_of_broadcast hbroadcast]
      exact .inl ⟨_, (Etharp.adds_act List.prefix_rfl).mem hl⟩
    · rw [hop_of_multicast hmulticast]
      exact .inl ⟨_, (Etharp.adds_act List.prefix_rfl).mem hl⟩
    · cases hnext : nextHop s.netif ipaddr with
      | none =>
        rw [hnext] at hok
        cases hok
      | some dstAddr =>
        rw [hnext] at hok hl
        rw [hop_of_nextHop hbroadcast hmulticast hnext]
        obtain ⟨frame, hadds⟩ | hadds := etharpOutputUnicast_adds (h.inv _) hok
        · exact .inl ⟨frame, hadds.mem hl⟩
        · exact .inr fun halloc => (hadds halloc).mem hl

section Input

variable {netif : Netif} {q : Pbuf} {p : List Pbuf} {etharp etharp' : Etharp}
  {total : Multiset Parcel} {base : List EtharpAct} {shwaddr : List UInt8}
  {sipaddr dipaddr : UInt32} {opcode i : ℕ}

/-- The packet that waits for an address that is announced is sent. -/
theorem etharpArpInput_adds (h : etharp.Inv A known base total)
    (hfields : ArpFields q shwaddr sipaddr dipaddr opcode) (hlen : 42 ≤ q.len)
    (hunicast : nonUnicast sipaddr netif = false)
    (hinput : etharpArpInput etharp netif (q :: p) = some etharp') (hi : i < arpTableSize)
    {pkt : List UInt8} (hq : (etharp.table i).q = some pkt)
    (hip : (etharp.table i).ipaddr = sipaddr) :
    etharp.Adds etharp' (.sendIp sipaddr pkt (ethHdr shwaddr netif.hwaddr 0x0800 ++ pkt)) := by
  have hacts (forUs : Bool) := h.etharpUpdateArpEntry_acts shwaddr forUs hunicast hi hq hip
  have hadds (forUs : Bool) : etharp.Adds
      (etharpUpdateArpEntry etharp netif sipaddr shwaddr forUs)
      (.sendIp sipaddr pkt (ethHdr shwaddr netif.hwaddr 0x0800 ++ pkt)) := ⟨[], [], hacts forUs⟩
  rw [hfields.arpInput hlen, Option.some.injEq] at hinput
  rw [← hinput]
  split_ifs
  · exact (hadds _).trans (List.prefix_append _ _)
  · exact hadds _

/-- A request for the address of the interface is replied to. -/
theorem etharpArpInput_reply (h : etharp.Inv (fun _ => True) known etharp.acts total)
    (hasks : AsksFor netif q sipaddr)
    (hinput : etharpArpInput etharp netif (q :: p) = some etharp') :
    etharp.Adds etharp' (.link (replyTo netif q p sipaddr)) := by
  obtain ⟨hlen, hfields, hany⟩ := hasks
  have hgrows (forUs : Bool) : etharp.acts <+:
      (etharpUpdateArpEntry etharp netif sipaddr (q.mac 22) forUs).acts := by
    cases hunicast : nonUnicast sipaddr netif with
    | true =>
      rw [etharpUpdateArpEntry, hunicast, if_pos rfl]
    | false =>
      obtain ⟨l, hl, -⟩ := (h.etharpUpdateArpEntry (q.mac 22) forUs hunicast
        (fun _ _ _ => trivial) fun _ => trivial).acts
      exact ⟨l, hl.symm⟩
  rw [hfields.arpInput hlen, Option.some.injEq] at hinput
  rw [← hinput, hany, Bool.not_false, Bool.true_and, beq_self_eq_true, if_pos ⟨rfl, rfl⟩,
    hfields.arpReply_eq hlen]
  exact Etharp.adds_act (hgrows true)

end Input

/-- `etharp_arp_input` keeps the invariant, reads within the buffer, and learns what is
announced. -/
theorem ArpSound.arpInput (h : ArpSound s) {q : Pbuf} (p : List Pbuf)
    (htype : q.ntohs 12 = some 0x0806) :
    let known := learn s.announced (announcement s.netif q)
    ∃ etharp, etharpArpInput s.etharp s.netif (q :: p) = some etharp ∧
      etharp.Inv (May s (.frame q p) known) known s.etharp.acts s.accepted := by
  intro known
  have hinv := h.inv (May s (.frame q p) known)
  obtain ⟨hnone, hinput⟩ | ⟨hlen, sipaddr, dipaddr, opcode, hfields⟩ :=
    arpFields_cases s.netif p htype
  · have hknown : known = s.announced := congrArg (learn s.announced) hnone
    refine ⟨s.etharp, hinput s.etharp, ?_⟩
    rw [hknown] at hinv ⊢
    exact hinv
  have hsome := hfields.announcement_eq hlen s.netif
  have hupdate (forUs : Bool) :
      (etharpUpdateArpEntry s.etharp s.netif sipaddr (q.mac 22) forUs).Inv
        (May s (.frame q p) known) known s.etharp.acts s.accepted := by
    cases hunicast : nonUnicast sipaddr s.netif with
    | true =>
      rw [hunicast, if_neg nofun] at hsome
      have hknown : known = s.announced := congrArg (learn s.announced) hsome
      rw [etharpUpdateArpEntry, hunicast, if_pos rfl, hknown]
      exact h.inv _
    | false =>
      rw [hunicast, if_pos rfl] at hsome
      have hknown : known = Function.update s.announced sipaddr (some (q.mac 22)) :=
        congrArg (learn s.announced) hsome
      have h' := hinv.etharpUpdateArpEntry (q.mac 22) forUs hunicast
        (fun hfull _ _ => .inr (.inr (.inr hfull)))
        fun p => ⟨q.mac 22, rfl, .inl (hknown ▸ Function.update_self ..)⟩
      rw [← hknown] at h'
      exact h'
  refine ⟨_, hfields.arpInput hlen s.etharp p, ?_⟩
  split_ifs with hreply
  · obtain ⟨rfl, hus⟩ := hreply
    rw [Bool.and_eq_true, Bool.not_eq_true', beq_iff_eq] at hus
    obtain ⟨hany, rfl⟩ := hus
    refine (hupdate _).link (.inr ⟨q, p, sipaddr, rfl, ⟨hlen, hfields, hany⟩, ?_⟩)
    exact hfields.arpReply_eq hlen p
  · exact hupdate _

/-- Every event has a result, and is as it should be. -/
theorem ArpSound.step (h : ArpSound s) (e : ArpEvent) :
    ∃ s', arpStep (some s) e = some s' ∧ ArpStepOk s e s' := by
  cases e with
  | output q ipaddr alloc copy =>
    exact ⟨_, rfl, .of_inv (h.output q ipaddr alloc copy) fun _ hl => h.output_must hl⟩
  | query ipaddr alloc =>
    exact ⟨_, rfl, .of_inv ((h.inv _).etharpQuery_none (allows_may _ rfl)) fun _ _ => trivial⟩
  | request ipaddr alloc =>
    exact ⟨_, rfl, .of_inv ((h.inv _).etharpRequest alloc (.inl ⟨ipaddr, rfl, rfl⟩)).1
      fun _ _ => trivial⟩
  | frame q p =>
    simp only [arpStep, Option.bind_eq_bind, Option.bind_some]
    obtain ⟨r, hinput, hother, hshort⟩ | ⟨hinput, htype⟩ := ethernetInput_cases q p
    · have hmust (l : List EtharpAct) : Must s l (.frame q p) := by
        constructor
        · intro ipaddr ethaddr hannounced
          obtain ⟨hlen, -, _, _, hfields⟩ := arpFields_of_announcement hannounced
          have hlen' := hshort hfields.type
          omega
        · rintro sipaddr ⟨hlen, hfields, -⟩
          have hlen' := hshort hfields.type
          omega
      rw [hinput, Option.bind_some]
      cases r with
      | drop => exact ⟨s, rfl, .of_inv (h.inv _) fun l _ => hmust l⟩
      | ip p' => exact ⟨s, rfl, .of_inv (h.inv _) fun l _ => hmust l⟩
      | arp p' => exact absurd rfl (hother p')
    · obtain ⟨etharp, harpInput, hinv⟩ := h.arpInput p htype
      simp only [hinput, harpInput, Option.bind_some]
      refine ⟨_, rfl, .of_inv hinv fun l hl => ⟨?_, ?_⟩⟩
      · intro ipaddr ethaddr hannounced i hi pkt hq hip
        obtain ⟨hlen, hunicast, _, _, hfields⟩ := arpFields_of_announcement hannounced
        exact (etharpArpInput_adds (h.inv (fun _ => True)) hfields hlen hunicast harpInput hi hq
          hip).mem hl
      · intro sipaddr hasks
        exact (etharpArpInput_reply (h.inv _) hasks harpInput).mem hl
  | tmr => exact ⟨_, rfl, .of_inv ((h.inv _).etharpTmr fun _ _ => .inl rfl) fun _ _ => trivial⟩
  | cleanup =>
    exact ⟨_, rfl, .of_inv ((h.inv _).etharpCleanupNetif fun _ _ => .inr (.inl rfl))
      fun _ _ => trivial⟩
  | configure netif => exact ⟨_, rfl, .of_inv (h.inv _) fun _ _ => trivial⟩

end Step

theorem arpSound_start (netif : Netif) : ArpSound (.start netif) where
  cached_lt := (by decide : 0 < arpTableSize)
  unique _ _ _ _ hused := absurd rfl hused
  waits _ _ hq := absurd rfl hq
  learned _ _ hstable := absurd hstable Bool.false_ne_true
  conserved := by
    have hwaiting : (ArpLink.start netif).etharp.waiting = 0 := Finset.sum_const_zero
    rw [hwaiting]
    rfl

/-- A state that is reached is sound. -/
theorem ArpSound.of_exec {netif : Netif} {es : List ArpEvent} {s : ArpLink}
    (h : Runs.exec arpStep (some (.start netif)) es = some s) : ArpSound s := by
  have halways : Runs.Always arpStep (fun o => ∃ s, o = some s ∧ ArpSound s)
      (some (.start netif)) es := by
    refine Runs.always_of_inv ?_ ⟨_, rfl, arpSound_start netif⟩ es
    rintro _ e ⟨s, rfl, hs⟩
    obtain ⟨s', hs', hok⟩ := hs.step e
    exact ⟨s', hs', hok.1⟩
  obtain ⟨s', hs', hsound⟩ := halways es [] (List.append_nil es).symm
  rw [h] at hs'
  exact Option.some.inj hs' ▸ hsound

/-- In every run, each event has a result, leaves a sound interface, does what it has to do, and
nothing but what it may. -/
theorem arp_sound (netif : Netif) (es : List ArpEvent) :
    Runs.Along arpStep (fun o e => ∃ s s', o = some s ∧ arpStep o e = some s' ∧ ArpStepOk s e s')
      (some (.start netif)) es := by
  have hstep (o : Option ArpLink) (e : ArpEvent) (h : ∃ s, o = some s ∧ ArpSound s) :
      ∃ s s', o = some s ∧ arpStep o e = some s' ∧ ArpStepOk s e s' := by
    obtain ⟨s, rfl, hs⟩ := h
    obtain ⟨s', hs', hok⟩ := hs.step e
    exact ⟨s, s', rfl, hs', hok⟩
  refine Runs.along_of_inv (P := fun o => ∃ s, o = some s ∧ ArpSound s) (fun o e h => ?_) hstep
    ⟨_, rfl, arpSound_start netif⟩ es
  obtain ⟨s, s', -, hs', hok⟩ := hstep o e h
  exact ⟨s', hs', hok.1⟩

end Lwip

end Enc28j60Udp
