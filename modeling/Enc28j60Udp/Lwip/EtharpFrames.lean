import Enc28j60Udp.Lwip.Etharp

/-!
# ARP packets

What `etharp_arp_input` reads of a frame (`ArpFields`), and where it stands among the bytes. The
packets of `etharp_raw` are read back (`arpFields_of_arrives`), and a reply, which is written over
the request, is such a packet (`ArpFields.arpReply_eq`). Nothing outside the buffer is read. An IP
packet of `etharp_send_ip` is handed to the IP layer (`ethernetInput_ethHdr`).
-/

namespace Enc28j60Udp

namespace Lwip

/-- The fields of an ARP packet in a frame. -/
structure ArpFields (q : Pbuf) (shwaddr : List UInt8) (sipaddr dipaddr : UInt32) (opcode : ℕ) :
    Prop where
  type : q.ntohs 12 = some 0x0806
  types : q.arpTypes = some true
  opcode : q.ntohs 20 = some opcode
  shwaddr : q.mac 22 = shwaddr
  sipaddr : q.addr 28 = some sipaddr
  dipaddr : q.addr 38 = some dipaddr

/-- The address and the hardware address of the sender of an ARP packet in a frame, if it is a
host. -/
def announcement (netif : Netif) (q : Pbuf) : Option (UInt32 × List UInt8) :=
  if q.len < 42 then none
  else do
    let type ← q.ntohs 12
    let types ← q.arpTypes
    let sipaddr ← q.addr 28
    if type = 0x0806 ∧ types = true ∧ nonUnicast sipaddr netif = false then
      some (sipaddr, q.mac 22)
    else none

section Read

variable {netif : Netif} {q : Pbuf} {p : List Pbuf} {i : ℕ}

/-! ## Reads in the buffer -/

theorem Pbuf.addr_isSome (hi : i + 3 < q.len) : ∃ a, q.addr i = some a := by
  obtain ⟨b₀, h₀⟩ := Pbuf.byte_isSome (q := q) (n := i) (by omega)
  obtain ⟨b₁, h₁⟩ := Pbuf.byte_isSome (q := q) (n := i + 1) (by omega)
  obtain ⟨b₂, h₂⟩ := Pbuf.byte_isSome (q := q) (n := i + 2) (by omega)
  obtain ⟨b₃, h₃⟩ := Pbuf.byte_isSome hi
  rw [Pbuf.addr, h₀, h₁, h₂, h₃]
  exact ⟨_, rfl⟩

theorem Pbuf.arpTypes_isSome (hq : 42 ≤ q.len) : ∃ types, q.arpTypes = some types := by
  obtain ⟨hwtype, h₁⟩ := Pbuf.ntohs_isSome (q := q) (n := 14) (by omega)
  obtain ⟨hwlen, h₂⟩ := Pbuf.byte_isSome (q := q) (n := 18) (by omega)
  obtain ⟨protolen, h₃⟩ := Pbuf.byte_isSome (q := q) (n := 19) (by omega)
  obtain ⟨proto, h₄⟩ := Pbuf.ntohs_isSome (q := q) (n := 16) (by omega)
  rw [Pbuf.arpTypes, h₁, h₂, h₃, h₄]
  exact ⟨_, rfl⟩

theorem Pbuf.arpTypes_eq_true (h : q.arpTypes = some true) :
    q.ntohs 14 = some 1 ∧ q.byte 18 = some 6 ∧ q.byte 19 = some 4 ∧ q.ntohs 16 = some 0x0800 := by
  rw [Pbuf.arpTypes] at h
  simp only [Option.bind_eq_bind, Option.bind_eq_some_iff, Option.some.injEq, Bool.and_eq_true,
    decide_eq_true_eq, Option.pure_def] at h
  obtain ⟨hwtype, h₁, hwlen, h₂, protolen, h₃, proto, h₄, ⟨⟨rfl, rfl⟩, rfl⟩, rfl⟩ := h
  exact ⟨h₁, h₂, h₃, h₄⟩

/-- What is read is at its place among the bytes of the packet. -/
theorem Pbuf.drop_of_byte {b : UInt8} (h : q.byte i = some b) (hi : i < q.len) :
    (chainData (q :: p)).drop i = b :: (chainData (q :: p)).drop (i + 1) := by
  rw [Pbuf.byte_eq (p := p) hi] at h
  obtain ⟨hlt, rfl⟩ := List.getElem?_eq_some_iff.mp h
  exact List.drop_eq_getElem_cons hlt

theorem Pbuf.drop_of_ntohs {n : ℕ} (h : q.ntohs i = some n) (hi : i + 1 < q.len) :
    (chainData (q :: p)).drop i = be16 n ++ (chainData (q :: p)).drop (i + 2) := by
  obtain ⟨high, hhigh⟩ := Pbuf.byte_isSome (q := q) (n := i) (by omega)
  obtain ⟨low, hlow⟩ := Pbuf.byte_isSome hi
  rw [Pbuf.ntohs, hhigh, hlow] at h
  have hn : 256 * high.toNat + low.toNat = n := Option.some.inj h
  have hlt := low.toNat_lt
  have hbytes : be16 n = [high, low] := by
    have hdiv : n / 256 = high.toNat := by omega
    rw [be16, hdiv, UInt8.ofNat_toNat, ← hn]
    congr 2
    apply UInt8.toNat_inj.mp
    rw [UInt8.toNat_ofNat']
    omega
  rw [Pbuf.drop_of_byte hhigh (by omega), Pbuf.drop_of_byte hlow hi, hbytes]
  rfl

theorem Pbuf.drop_of_addr {a : UInt32} (h : q.addr i = some a) (hi : i + 3 < q.len) :
    (chainData (q :: p)).drop i = addrBytes a ++ (chainData (q :: p)).drop (i + 4) := by
  obtain ⟨b₀, h₀⟩ := Pbuf.byte_isSome (q := q) (n := i) (by omega)
  obtain ⟨b₁, h₁⟩ := Pbuf.byte_isSome (q := q) (n := i + 1) (by omega)
  obtain ⟨b₂, h₂⟩ := Pbuf.byte_isSome (q := q) (n := i + 2) (by omega)
  obtain ⟨b₃, h₃⟩ := Pbuf.byte_isSome hi
  rw [Pbuf.addr, h₀, h₁, h₂, h₃] at h
  have hbytes : addrBytes a = [b₀, b₁, b₂, b₃] := Option.some.inj h ▸ bytes_word32 b₀ b₁ b₂ b₃
  rw [Pbuf.drop_of_byte h₀ (by omega), Pbuf.drop_of_byte h₁ (by omega),
    Pbuf.drop_of_byte h₂ (by omega), Pbuf.drop_of_byte h₃ hi, hbytes]
  rfl

/-! ## Input -/

/-- `ethernet_input` reads the type only, and hands an ARP packet on as it is. -/
theorem ethernetInput_cases (q : Pbuf) (p : List Pbuf) :
    (∃ r, ethernetInput (q :: p) = some r ∧ (∀ p', r ≠ .arp p') ∧
      (q.ntohs 12 = some 0x0806 → q.len ≤ 14)) ∨
      ethernetInput (q :: p) = some (.arp (q :: p)) ∧ q.ntohs 12 = some 0x0806 := by
  rw [ethernetInput, List.head?_cons]
  dsimp only [Option.bind_eq_bind, Option.bind_some]
  split_ifs with hshort
  · exact .inl ⟨.drop, rfl, nofun, fun _ => hshort⟩
  obtain ⟨type, htype⟩ := Pbuf.ntohs_isSome (q := q) (n := 12) (by omega)
  rw [htype, Option.bind_some, Option.some.injEq]
  split_ifs with hip harp
  · have hother : type = 0x0806 → q.len ≤ 14 := by omega
    cases pbufHeader (-14) (q :: p) with
    | none => exact .inl ⟨.drop, rfl, nofun, hother⟩
    | some p' => exact .inl ⟨.ip p', rfl, nofun, hother⟩
  · exact .inr ⟨rfl, harp⟩
  · exact .inl ⟨.drop, rfl, nofun, fun h => absurd h harp⟩

/-- A packet has the fields, or `etharp_arp_input` drops it. -/
theorem arpFields_cases (netif : Netif) (p : List Pbuf) (htype : q.ntohs 12 = some 0x0806) :
    (announcement netif q = none ∧ ∀ s, etharpArpInput s netif (q :: p) = some s) ∨
      42 ≤ q.len ∧ ∃ sipaddr dipaddr opcode, ArpFields q (q.mac 22) sipaddr dipaddr opcode := by
  by_cases hshort : q.len < 42
  · refine .inl ⟨by rw [announcement, if_pos hshort], fun s => ?_⟩
    rw [etharpArpInput, List.head?_cons, Option.bind_eq_bind, Option.bind_some, if_pos hshort]
    rfl
  obtain ⟨types, htypes⟩ := Pbuf.arpTypes_isSome (q := q) (by omega)
  cases types with
  | false =>
    refine .inl ⟨?_, fun s => ?_⟩
    · rw [announcement, if_neg hshort, htype, htypes]
      cases q.addr 28 <;> rfl
    · rw [etharpArpInput, List.head?_cons, Option.bind_eq_bind, Option.bind_some,
        if_neg hshort, htypes]
      rfl
  | true =>
    obtain ⟨sipaddr, hsipaddr⟩ := Pbuf.addr_isSome (q := q) (i := 28) (by omega)
    obtain ⟨dipaddr, hdipaddr⟩ := Pbuf.addr_isSome (q := q) (i := 38) (by omega)
    obtain ⟨opcode, hopcode⟩ := Pbuf.ntohs_isSome (q := q) (n := 20) (by omega)
    exact .inr ⟨by omega, sipaddr, dipaddr, opcode, htype, htypes, hopcode, rfl, hsipaddr, hdipaddr⟩

/-- What is announced is in the fields. -/
theorem arpFields_of_announcement {ipaddr : UInt32} {ethaddr : List UInt8}
    (h : announcement netif q = some (ipaddr, ethaddr)) :
    42 ≤ q.len ∧ nonUnicast ipaddr netif = false ∧
      ∃ dipaddr opcode, ArpFields q ethaddr ipaddr dipaddr opcode := by
  rw [announcement] at h
  split_ifs at h with hshort
  simp only [Option.bind_eq_bind, Option.bind_eq_some_iff] at h
  obtain ⟨type, htype, types, htypes, sipaddr, hsipaddr, h⟩ := h
  split_ifs at h with hhost
  obtain ⟨rfl, rfl, hunicast⟩ := hhost
  obtain ⟨rfl, rfl⟩ := Prod.mk.inj (Option.some.inj h)
  obtain ⟨dipaddr, hdipaddr⟩ := Pbuf.addr_isSome (q := q) (i := 38) (by omega)
  obtain ⟨opcode, hopcode⟩ := Pbuf.ntohs_isSome (q := q) (n := 20) (by omega)
  exact ⟨by omega, hunicast, dipaddr, opcode, htype, htypes, hopcode, rfl, hsipaddr, hdipaddr⟩

namespace ArpFields

variable {shwaddr : List UInt8} {sipaddr dipaddr : UInt32} {opcode : ℕ}
  (h : ArpFields q shwaddr sipaddr dipaddr opcode) (hq : 42 ≤ q.len)

include h hq

theorem announcement_eq (netif : Netif) : announcement netif q =
    if nonUnicast sipaddr netif = false then some (sipaddr, shwaddr) else none := by
  rw [announcement, if_neg (Nat.not_lt.mpr hq), h.type, h.types, h.sipaddr, h.shwaddr]
  simp only [Option.bind_eq_bind, Option.bind_some, true_and]

/-- `etharp_arp_input` updates the entry of the sender, and replies to a request for the address of
the interface. -/
theorem arpInput (s : Etharp) (p : List Pbuf) : etharpArpInput s netif (q :: p) =
    let forUs := !isAny netif.ipAddr && dipaddr == netif.ipAddr
    let s' := etharpUpdateArpEntry s netif sipaddr shwaddr forUs
    some (if opcode = 1 ∧ forUs then s'.act (.link (arpReply netif (q :: p) shwaddr)) else s') := by
  rw [etharpArpInput, List.head?_cons, Option.bind_eq_bind, Option.bind_some,
    if_neg (Nat.not_lt.mpr hq), h.types, h.sipaddr, h.dipaddr, h.opcode, h.shwaddr]
  dsimp only [Option.bind_eq_bind, Option.bind_some]
  rw [if_neg nofun]
  split_ifs <;> rfl

/-- The reply is what `etharp_raw` would send. -/
theorem arpReply_eq (p : List Pbuf) : arpReply netif (q :: p) shwaddr =
    etharpPacket netif.hwaddr shwaddr netif.hwaddr netif.ipAddr shwaddr sipaddr 2 ++
      (chainData (q :: p)).drop 42 := by
  obtain ⟨hhwtype, hhwlen, hprotolen, hproto⟩ := Pbuf.arpTypes_eq_true h.types
  have hhead : ((chainData (q :: p)).drop 12).take 8 =
      be16 0x0806 ++ be16 1 ++ be16 0x0800 ++ [6, 4] := by
    rw [Pbuf.drop_of_ntohs h.type (by omega), Pbuf.drop_of_ntohs hhwtype (by omega),
      Pbuf.drop_of_ntohs hproto (by omega), Pbuf.drop_of_byte hhwlen (by omega),
      Pbuf.drop_of_byte hprotolen (by omega)]
    rfl
  have hsender : ((chainData (q :: p)).drop 28).take 4 = addrBytes sipaddr := by
    rw [Pbuf.drop_of_addr h.sipaddr (by omega)]
    rfl
  simp only [arpReply, hhead, hsender, etharpPacket, ethHdr, List.append_assoc]

end ArpFields

end Read

/-! ## Frames that were sent -/

/-- A frame arrives: its bytes with padding behind them, and an ARP packet in the first buffer. -/
def Arrives (frame : List UInt8) (q : Pbuf) (p : List Pbuf) : Prop :=
  42 ≤ q.len ∧ ∃ padding, chainData (q :: p) = frame ++ padding

section Arrives

variable {frame : List UInt8} {q : Pbuf} {p : List Pbuf} {i : ℕ}

theorem Arrives.byte (h : Arrives frame q p) (hi : i < 42) {b : UInt8} (hb : frame[i]? = some b) :
    q.byte i = some b := by
  obtain ⟨hq, padding, hdata⟩ := h
  obtain ⟨hlt, -⟩ := List.getElem?_eq_some_iff.mp hb
  rw [Pbuf.byte_eq (p := p) (hi.trans_le hq), hdata, List.getElem?_append_left hlt, hb]

theorem Arrives.ntohs (h : Arrives frame q p) (hi : i + 1 < 42) {n : ℕ} (hn : n < 2 ^ 16)
    (hhigh : frame[i]? = some (UInt8.ofNat (n / 256)))
    (hlow : frame[i + 1]? = some (UInt8.ofNat n)) : q.ntohs i = some n :=
  Pbuf.ntohs_of_byte (h.byte (Nat.lt_of_succ_lt hi) hhigh) (h.byte hi hlow) hn

theorem Arrives.mac (h : Arrives frame q p) (hi : i + 6 ≤ 42) (hlen : i + 6 ≤ frame.length) :
    q.mac i = (frame.drop i).take 6 := by
  obtain ⟨hq, padding, hdata⟩ := h
  have hdrop (l₁ l₂ : List UInt8) (hl : i + 6 ≤ l₁.length) :
      ((l₁ ++ l₂).drop i).take 6 = (l₁.drop i).take 6 := by
    have hsix : 6 ≤ (l₁.drop i).length := by
      rw [List.length_drop]
      omega
    rw [List.drop_append_of_le_length (by omega), List.take_append_of_le_length hsix]
  have hchain := hdrop q.data (chainData p) (hi.trans hq)
  rw [← chainData_cons, hdata, hdrop frame padding hlen] at hchain
  rw [Pbuf.mac, hdrop q.data q.behind (hi.trans hq), hchain]

theorem exists_bytes {l : List UInt8} (hl : l.length = 6) :
    ∃ a b c d e f, l = [a, b, c, d, e, f] := by
  match l, hl with
  | [a, b, c, d, e, f], _ => exact ⟨a, b, c, d, e, f, rfl⟩

/-- What `etharp_raw` writes is read back. -/
theorem arpFields_of_arrives {ethsrc ethdst hwsrc hwdst rest : List UInt8} {ipsrc ipdst : UInt32}
    {opcode : ℕ}
    (h : Arrives (etharpPacket ethsrc ethdst hwsrc ipsrc hwdst ipdst opcode ++ rest) q p)
    (hethsrc : ethsrc.length = 6) (hethdst : ethdst.length = 6) (hhwsrc : hwsrc.length = 6)
    (hhwdst : hwdst.length = 6) (hopcode : opcode < 2 ^ 16) :
    ArpFields q hwsrc ipsrc ipdst opcode := by
  obtain ⟨a₁, b₁, c₁, d₁, e₁, f₁, rfl⟩ := exists_bytes hethsrc
  obtain ⟨a₂, b₂, c₂, d₂, e₂, f₂, rfl⟩ := exists_bytes hethdst
  obtain ⟨a₃, b₃, c₃, d₃, e₃, f₃, rfl⟩ := exists_bytes hhwsrc
  obtain ⟨a₄, b₄, c₄, d₄, e₄, f₄, rfl⟩ := exists_bytes hhwdst
  refine ⟨?_, ?_, ?_, ?_, ?_, ?_⟩
  · exact h.ntohs (by decide) (by decide) rfl rfl
  · rw [Pbuf.arpTypes, h.ntohs (n := 1) (by decide) (by decide) rfl rfl,
      h.byte (b := 6) (by decide) rfl, h.byte (b := 4) (by decide) rfl,
      h.ntohs (n := 0x0800) (by decide) (by decide) rfl rfl]
    rfl
  · exact h.ntohs (by decide) hopcode rfl rfl
  · rw [h.mac (by decide) (by omega : 28 ≤ rest.length + 42)]
    rfl
  · exact Pbuf.addr_of_byte (h.byte (by decide) rfl) (h.byte (by decide) rfl)
      (h.byte (by decide) rfl) (h.byte (by decide) rfl)
  · exact Pbuf.addr_of_byte (h.byte (by decide) rfl) (h.byte (by decide) rfl)
      (h.byte (by decide) rfl) (h.byte (by decide) rfl)

/-- What `etharp_send_ip` sends is handed to the IP layer. -/
theorem ethernetInput_ethHdr {dest src packet padding : List UInt8} (hdest : dest.length = 6)
    (hsrc : src.length = 6) (hq : 14 < q.len)
    (hdata : chainData (q :: p) = ethHdr dest src 0x0800 ++ packet ++ padding) :
    ∃ p', ethernetInput (q :: p) = some (.ip p') ∧ chainData p' = packet ++ padding := by
  obtain ⟨a₁, b₁, c₁, d₁, e₁, f₁, rfl⟩ := exists_bytes hdest
  obtain ⟨a₂, b₂, c₂, d₂, e₂, f₂, rfl⟩ := exists_bytes hsrc
  have htype : q.ntohs 12 = some 0x0800 := by
    refine Pbuf.ntohs_of_byte (n := 0x0800) ?_ ?_ (by decide)
    · rw [Pbuf.byte_eq (p := p) (by omega), hdata]
      rfl
    · rw [Pbuf.byte_eq (p := p) (by omega), hdata]
      rfl
  obtain ⟨q', hheader, hq'⟩ := pbufHeader_neg (p := p) hq.le
  refine ⟨q' :: p, ?_, ?_⟩
  · have hheader : pbufHeader (-14) (q :: p) = some (q' :: p) := hheader
    rw [ethernetInput, List.head?_cons, Option.bind_eq_bind, Option.bind_some,
      if_neg (Nat.not_le.mpr hq), htype, hheader]
    rfl
  · have hdrop : (chainData (q :: p)).drop 14 = chainData (q' :: p) := by
      rw [chainData_cons, chainData_cons, hq', List.drop_append_of_le_length hq.le]
    rw [← hdrop, hdata]
    rfl

end Arrives

end Lwip

end Enc28j60Udp
