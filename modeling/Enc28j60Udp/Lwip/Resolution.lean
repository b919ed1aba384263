import Enc28j60Udp.Lwip.Datagram
import Enc28j60Udp.Lwip.EtharpRuns

/-!
# Address resolution

Two interfaces with ARP on one Ethernet. The request of the first is answered by the second, and the
answer makes the first send the packet that waits, which comes to the IP layer of the second.

Behind a frame there may be padding, and the request is answered in its own buffer: the answer is
the packet of `etharp_raw` with the padding of the request behind it.
-/

namespace Enc28j60Udp

namespace Lwip

/-- A request for the address of an interface is answered, and the answer makes any interface with
the address of the asker send the packet that waits for this address. It arrives as it was. -/
theorem arp_resolves {net peer : Netif} {es : List ArpEvent} {t : ArpLink} {q : Pbuf}
    {p : List Pbuf} (ht : Runs.exec arpStep (some (.start peer)) es = some t)
    (hrequest : Arrives (requestPacket net t.netif.ipAddr) q p)
    (hhwaddr : net.hwaddr.length = 6) (hhwaddr' : t.netif.hwaddr.length = 6)
    (hunicast : nonUnicast t.netif.ipAddr net = false) :
    ∃ t' l, arpStep (some t) (.frame q p) = some t' ∧ t'.etharp.acts = t.etharp.acts ++ l ∧
      .link (replyTo t.netif q p net.ipAddr) ∈ l ∧
      ∀ (start : Netif) (es' : List ArpEvent) (s : ArpLink),
        Runs.exec arpStep (some (.start start)) es' = some s → s.netif = net →
        ∀ i < arpTableSize, ∀ pkt, (s.etharp.table i).q = some pkt →
          (s.etharp.table i).ipaddr = t.netif.ipAddr →
        ∀ q' p', Arrives (replyTo t.netif q p net.ipAddr) q' p' →
        ∃ s' l', arpStep (some s) (.frame q' p') = some s' ∧
          s'.etharp.acts = s.etharp.acts ++ l' ∧
          .sendIp t.netif.ipAddr pkt
            (ethHdr t.netif.hwaddr net.hwaddr 0x0800 ++ pkt) ∈ l' ∧
          ∀ (r : Pbuf) (rest : List Pbuf) (padding : List UInt8), 14 < r.len →
            chainData (r :: rest) = ethHdr t.netif.hwaddr net.hwaddr 0x0800 ++ pkt ++ padding →
            ∃ packet, ethernetInput (r :: rest) = some (.ip packet) ∧
              chainData packet = pkt ++ padding := by
  have hasked : ArpFields q net.hwaddr net.ipAddr t.netif.ipAddr 1 := by
    rw [requestPacket, ← List.append_nil (etharpPacket _ _ _ _ _ _ _)] at hrequest
    exact arpFields_of_arrives hrequest hhwaddr rfl hhwaddr rfl (by decide)
  have hany : isAny t.netif.ipAddr = false := by
    rw [nonUnicast, Bool.or_eq_false_iff, Bool.or_eq_false_iff] at hunicast
    exact hunicast.1.1
  have hmac : q.mac 22 = net.hwaddr := hasked.shwaddr
  obtain ⟨t', ht', -, l, hl, ⟨-, hreply⟩, -⟩ := (ArpSound.of_exec ht).step (.frame q p)
  refine ⟨t', l, ht', hl, hreply net.ipAddr ⟨hrequest.1, hmac.symm ▸ hasked, hany⟩, ?_⟩
  rintro start es' s hs rfl i hi pkt hq hip q' p' hanswer
  rw [replyTo, hmac] at hanswer
  have hanswered : ArpFields q' t.netif.hwaddr t.netif.ipAddr s.netif.ipAddr 2 :=
    arpFields_of_arrives hanswer hhwaddr' hhwaddr hhwaddr' hhwaddr (by decide)
  have hannounced : announcement s.netif q' = some (t.netif.ipAddr, t.netif.hwaddr) := by
    rw [hanswered.announcement_eq hanswer.1, if_pos hunicast]
  obtain ⟨s', hs', -, l', hl', ⟨hreleased, -⟩, -⟩ := (ArpSound.of_exec hs).step (.frame q' p')
  refine ⟨s', l', hs', hl', hreleased _ _ hannounced i hi pkt hq hip, ?_⟩
  intro r rest padding hr hframe
  exact ethernetInput_ethHdr hhwaddr' hhwaddr hr hframe

/-- The frame in which a host asks for the address of `samplePeer`. -/
def sampleRequest : Pbuf := ⟨0x20000000, [], requestPacket sampleNetif 0x0300000a, []⟩

theorem arp_resolves_sampleRequest :
    ∃ t' l s s' l', arpStep (some (.start samplePeer)) (.frame sampleRequest []) = some t' ∧
      t'.etharp.acts = l ∧ .link (replyTo samplePeer sampleRequest [] 0x0200000a) ∈ l ∧
      arpStep (some (.start sampleNetif)) (.output sampleData 0x0300000a true true) = some s ∧
      arpStep (some s) (.frame ⟨0x20000000, [],
        replyTo samplePeer sampleRequest [] 0x0200000a, []⟩ []) = some s' ∧
      s'.etharp.acts = s.etharp.acts ++ l' ∧
      .sendIp 0x0300000a [1, 2, 3] (ethHdr [2, 0, 0, 0, 0, 2] [2, 0, 0, 0, 0, 1] 0x0800 ++
        [1, 2, 3]) ∈ l' ∧
      ∃ packet, ethernetInput [⟨0x20000000, [],
        [2, 0, 0, 0, 0, 2, 2, 0, 0, 0, 0, 1, 8, 0, 1, 2, 3, 0, 0], []⟩] = some (.ip packet) ∧
          chainData packet = [1, 2, 3, 0, 0] := by
  have ht : Runs.exec arpStep (some (.start samplePeer)) [] = some (.start samplePeer) := rfl
  have hrequest : Arrives (requestPacket sampleNetif (ArpLink.start samplePeer).netif.ipAddr)
      sampleRequest [] := ⟨by decide, [], rfl⟩
  obtain ⟨t', l, ht', hl, hreply, hresolved⟩ :=
    arp_resolves ht hrequest rfl rfl (by decide +kernel)
  obtain ⟨s', l', hs', hl', hsent, harrived⟩ := hresolved sampleNetif
    [.output sampleData 0x0300000a true true] _ rfl rfl 0 (by decide) [1, 2, 3] rfl rfl ⟨0x20000000, [],
      replyTo samplePeer sampleRequest [] 0x0200000a, []⟩ [] ⟨by decide +kernel, [], rfl⟩
  exact ⟨t', l, _, s', l', ht', hl, hreply, rfl, hs', hl', hsent,
    harrived _ [] [0, 0] (by decide) rfl⟩

end Lwip

end Enc28j60Udp
