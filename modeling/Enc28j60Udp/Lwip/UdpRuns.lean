import Enc28j60Udp.Foundations.Runs
import Enc28j60Udp.Lwip.UdpPcbs

/-!
# Runs of the UDP layer

The clients take PCBs from the pool, bind, connect and remove those they hold, and send with them,
while datagrams arrive, in any order. In every state of a run `udp_bind` fails exactly when the
address is taken (`udpBind_outcome`), and a datagram goes to the one PCB that is bound to its
destination and not connected to another source (`udp_delivery`).
-/

namespace Enc28j60Udp

namespace Lwip

/-- The UDP layer, and the PCBs that are held. -/
structure Sockets where
  udp : Udp
  live : List ℕ

/-- What clients do, and what arrives. -/
inductive UdpOp
  | new (pcb : ℕ)
  | bind (pcb : ℕ) (ipaddr : UInt32) (port : ℕ)
  | connect (pcb : ℕ) (ipaddr : UInt32) (port : ℕ)
  | disconnect (pcb : ℕ)
  | recv (pcb : ℕ) (recv : Bool)
  | remove (pcb : ℕ)
  | sendto (ipId pcb : ℕ) (p : List Pbuf) (hdr : Option Pbuf) (dstIp : UInt32) (dstPort : ℕ)
      (netif : Netif)
  | input (dhcp : Option ℕ) (inp : Netif) (ip : List Pbuf) (srcIp destIp : UInt32)

/-- One operation; `none` when a byte outside a buffer is read. -/
def udpStep (s : Option Sockets) (op : UdpOp) : Option Sockets := do
  let ⟨s, live⟩ ← s
  match op with
  | .new pcb => some ⟨udpNew s pcb, pcb :: live⟩
  | .bind pcb ipaddr port => some ⟨(udpBind s pcb ipaddr port).2, live⟩
  | .connect pcb ipaddr port => some ⟨(udpConnect s pcb ipaddr port).2, live⟩
  | .disconnect pcb => some ⟨udpDisconnect s pcb, live⟩
  | .recv pcb recv => some ⟨udpRecv s pcb recv, live⟩
  | .remove pcb => some ⟨udpRemove s pcb, live.erase pcb⟩
  | .sendto ipId pcb p hdr dstIp dstPort netif =>
    some ⟨(udpSendto s ipId pcb p hdr dstIp dstPort netif).2.1, live⟩
  | .input dhcp inp ip srcIp destIp => do
    let (_, s) ← udpInput s dhcp inp ip srcIp destIp
    some ⟨s, live⟩

/-- The headers of a packet are in its first buffer, as `pbuf_alloc` puts them there. -/
def HeadersFirst : List Pbuf → Prop
  | [] => False
  | q :: p => 20 ≤ (chainData (q :: p)).length ∧ (chainData (q :: p)).length < 2 ^ 16 ∧
      min 68 (chainData (q :: p)).length ≤ q.len

instance : DecidablePred HeadersFirst
  | [] => inferInstanceAs (Decidable False)
  | _ :: _ => inferInstanceAs (Decidable (_ ∧ _ ∧ _))

/-- The pool of six PCBs gives one that is not held, clients keep to those they hold, and the
arguments fit in their types. -/
def Sockets.Allowed (s : Sockets) : UdpOp → Prop
  | .new pcb => pcb ∉ s.live ∧ s.live.length < 6
  | .bind pcb _ port => pcb ∈ s.live ∧ port < 2 ^ 16
  | .connect pcb _ _ => pcb ∈ s.live
  | .disconnect pcb => pcb ∈ s.live
  | .recv pcb _ => pcb ∈ s.live
  | .remove pcb => pcb ∈ s.live
  | .sendto _ pcb _ _ _ _ _ => pcb ∈ s.live
  | .input _ _ ip _ _ => HeadersFirst ip

instance (s : Sockets) : DecidablePred s.Allowed
  | .new pcb => inferInstanceAs (Decidable (pcb ∉ s.live ∧ s.live.length < 6))
  | .bind pcb _ port => inferInstanceAs (Decidable (pcb ∈ s.live ∧ port < 2 ^ 16))
  | .connect pcb _ _ => inferInstanceAs (Decidable (pcb ∈ s.live))
  | .disconnect pcb => inferInstanceAs (Decidable (pcb ∈ s.live))
  | .recv pcb _ => inferInstanceAs (Decidable (pcb ∈ s.live))
  | .remove pcb => inferInstanceAs (Decidable (pcb ∈ s.live))
  | .sendto _ pcb _ _ _ _ _ => inferInstanceAs (Decidable (pcb ∈ s.live))
  | .input _ _ ip _ _ => inferInstanceAs (Decidable (HeadersFirst ip))

/-- The UDP layer after the start, with anything in the memory of the pool. -/
def Sockets.start (memory : ℕ → UdpPcb) : Sockets := ⟨⟨memory, [], 0xc000⟩, []⟩

/-- A run in which the clients keep to the PCBs they hold. -/
def Users (memory : ℕ → UdpPcb) (ops : List UdpOp) : Prop :=
  Runs.Along udpStep (fun s op => ∀ c ∈ s, c.Allowed op) (some (.start memory)) ops

section Run

variable {memory : ℕ → UdpPcb} {ops : List UdpOp} {s : Sockets}

theorem inv_start (memory : ℕ → UdpPcb) : (Sockets.start memory).udp.Inv [] where
  nodup := List.nodup_nil
  nodup_live := List.nodup_nil
  length_le := Nat.zero_le 6
  mem_iff c := iff_of_false List.not_mem_nil fun h => List.not_mem_nil h.1
  localPort_lt _ h := absurd h List.not_mem_nil
  apart _ h := absurd h List.not_mem_nil
  port_mem := ⟨Nat.le_refl _, (by decide : 0xc000 ≤ 0xffff)⟩

/-- Every operation keeps the invariant, and reads within the buffers. -/
theorem inv_udpStep {op : UdpOp} (hs : s.udp.Inv s.live) (hop : s.Allowed op) :
    ∃ s', udpStep (some s) op = some s' ∧ s'.udp.Inv s'.live := by
  cases op with
  | new pcb => exact ⟨_, rfl, hs.udpNew hop.1 hop.2⟩
  | bind pcb ipaddr port => exact ⟨_, rfl, hs.udpBind hop.1 hop.2⟩
  | connect pcb ipaddr port => exact ⟨_, rfl, hs.udpConnect hop⟩
  | disconnect pcb => exact ⟨_, rfl, hs.udpDisconnect⟩
  | recv pcb recv => exact ⟨_, rfl, hs.udpRecv⟩
  | remove pcb => exact ⟨_, rfl, hs.udpRemove⟩
  | sendto ipId pcb p hdr dstIp dstPort netif => exact ⟨_, rfl, hs.udpSendto hop⟩
  | input dhcp inp ip srcIp destIp =>
    cases ip with
    | nil => exact hop.elim
    | cons q p =>
      obtain ⟨hlen, htot, hq⟩ := hop
      obtain ⟨r, pcbs, hinput, hperm⟩ :=
        udpInput_pcbs (s := s.udp) dhcp inp srcIp destIp hlen htot hq
      refine ⟨⟨{ s.udp with pcbs := pcbs }, s.live⟩, ?_, hs.perm hperm⟩
      rw [udpStep, Option.bind_eq_bind, Option.bind_some]
      dsimp only
      rw [hinput]
      rfl

/-- The run lemma. -/
theorem inv_of_users (h : Users memory ops)
    (hrun : Runs.exec udpStep (some (.start memory)) ops = some s) : s.udp.Inv s.live := by
  have hstep (o : Option Sockets) (op : UdpOp) (ho : ∃ c, o = some c ∧ c.udp.Inv c.live)
      (hop : ∀ c ∈ o, c.Allowed op) : ∃ c, udpStep o op = some c ∧ c.udp.Inv c.live := by
    obtain ⟨c, rfl, hc⟩ := ho
    exact inv_udpStep hc (hop c rfl)
  obtain ⟨c, hc, hinv⟩ := (Runs.always_of_along hstep ⟨_, rfl, inv_start memory⟩ h).last
  obtain rfl : c = s := Option.some.inj (hc.symm.trans hrun)
  exact hinv

/-- **Delivery.** In every state of a run a datagram goes to the one PCB that is bound to its
destination and not connected to another source; what was sent, received and bound before does not
matter otherwise. -/
theorem udp_delivery (h : Users memory ops)
    (hrun : Runs.exec udpStep (some (.start memory)) ops = some s) {dhcp : Option ℕ} {inp : Netif}
    {srcIp destIp : UInt32} {src dest c : ℕ} (hunicast : isBroadcast destIp inp = false)
    (hdest : dest ≠ 68) :
    (demux s.udp dhcp inp srcIp destIp src dest).1 = some c ↔
      c ∈ s.live ∧ (s.udp.pcb c).Receives srcIp destIp src dest :=
  demux_unicast (inv_of_users h hrun) hunicast hdest

/-- An interface with the address 10.0.0.2. -/
def sampleNetif : Netif :=
  ⟨0x0200000a, 0x00ffffff, 0x0100000a, [2, 0, 0, 0, 0, 1], 1500, true, true⟩

/-- The memory of the pool. -/
def sampleMemory (_ : ℕ) : UdpPcb := ⟨0, 0, 0, 0, 0, 0, false, false, false⟩

/-- One PCB is bound to a port, another is connected, and a datagram for the first arrives. -/
def sampleUdpOps : List UdpOp :=
  [.new 1, .bind 1 0 8099, .recv 1 true, .new 2, .connect 2 0x0100000a 7,
    .input none sampleNetif [⟨0, [], 0x45 :: List.replicate 19 0 ++ udpHdr 9 8099 8 0, []⟩]
      0x0100000a 0x0200000a]

theorem users_sampleUdpOps : Users sampleMemory sampleUdpOps := by
  refine Runs.along_cons.mpr ⟨?_, Runs.along_cons.mpr ⟨?_, Runs.along_cons.mpr ⟨?_,
    Runs.along_cons.mpr ⟨?_, Runs.along_cons.mpr ⟨?_, Runs.along_cons.mpr ⟨?_,
    Runs.along_nil⟩⟩⟩⟩⟩⟩
  all_goals decide +kernel

theorem isSome_sampleUdpOps :
    (Runs.exec udpStep (some (.start sampleMemory)) sampleUdpOps).isSome := by
  decide +kernel

theorem udp_delivery_sampleUdpOps :
    ∃ s, Runs.exec udpStep (some (.start sampleMemory)) sampleUdpOps = some s ∧
      (demux s.udp none sampleNetif 0x0100000a 0x0200000a 7 0xc001).1 = some 2 :=
  ⟨_, (Option.some_get isSome_sampleUdpOps).symm,
    (udp_delivery users_sampleUdpOps (Option.some_get isSome_sampleUdpOps).symm (by decide)
      (by decide)).mpr ⟨by decide +kernel, by decide +kernel, by decide +kernel,
        by decide +kernel, by decide +kernel⟩⟩

/-- **Binding.** In every state of a run `udp_bind` fails, and changes nothing, when another PCB has
the port at an address that overlaps, and only then; without a port it never fails, and takes one
that no PCB has. -/
theorem udpBind_outcome (h : Users memory ops)
    (hrun : Runs.exec udpStep (some (.start memory)) ops = some s) {pcb : ℕ} {ipaddr : UInt32}
    {port : ℕ} (hport : port < 2 ^ 16) :
    ((∃ c ∈ s.live, c ≠ pcb ∧ 0 < (s.udp.pcb c).localPort ∧
        (s.udp.pcb c).Overlaps ipaddr port) →
      udpBind s.udp pcb ipaddr port = (.use, s.udp)) ∧
    ((∀ c ∈ s.live, c ≠ pcb → 0 < (s.udp.pcb c).localPort →
        ¬(s.udp.pcb c).Overlaps ipaddr port) →
      ∃ localPort udpPort,
        udpBind s.udp pcb ipaddr port = (.ok, s.udp.bound pcb ipaddr localPort udpPort) ∧
          0 < localPort ∧ (port ≠ 0 → localPort = port) ∧
          (port = 0 → 0xc000 ≤ localPort ∧ localPort ≤ 0xffff ∧
            ∀ c ∈ s.live, (s.udp.pcb c).localPort ≠ localPort)) := by
  have hs := inv_of_users h hrun
  have hiff : (∃ c ∈ s.live, c ≠ pcb ∧ 0 < (s.udp.pcb c).localPort ∧
      (s.udp.pcb c).Overlaps ipaddr port) ↔
        ∃ c ∈ s.udp.pcbs, c ≠ pcb ∧ (s.udp.pcb c).Overlaps ipaddr port := by
    refine exists_congr fun c => ?_
    rw [hs.mem_iff, Nat.pos_iff_ne_zero]
    tauto
  rcases @udpBind_spec _ _ pcb ipaddr _ hs hport with ⟨hover, hbind⟩ |
    ⟨hfree, localPort, udpPort, hbind, -, hlocalPort, hnew⟩
  · refine ⟨fun _ => hbind, fun hnone => ?_⟩
    obtain ⟨c, hc, hne, hpos, hover⟩ := hiff.mpr hover
    exact absurd hover (hnone c hc hne hpos)
  · refine ⟨fun hover => absurd (hiff.mp hover) hfree, fun _ =>
      ⟨localPort, udpPort, hbind, hlocalPort.1, fun hne => ?_, fun hzero => ?_⟩⟩
    · exact hnew.resolve_right fun h => hne h.1
    · rcases hnew with heq | ⟨-, hge, hnew⟩
      · exact absurd (heq.trans hzero) hlocalPort.1.ne'
      · refine ⟨hge, by omega, fun c hc heq => ?_⟩
        exact hnew c ((hs.mem_iff c).mpr ⟨hc, fun h => hlocalPort.1.ne (h.symm.trans heq)⟩) heq

theorem udpBind_outcome_sampleUdpOps :
    ∃ s, Runs.exec udpStep (some (.start sampleMemory)) sampleUdpOps = some s ∧
      udpBind s.udp 2 0x0200000a 8099 = (.use, s.udp) :=
  ⟨_, (Option.some_get isSome_sampleUdpOps).symm,
    (udpBind_outcome users_sampleUdpOps (Option.some_get isSome_sampleUdpOps).symm
      (by decide)).1 (by decide +kernel)⟩

end Run

end Lwip

end Enc28j60Udp
