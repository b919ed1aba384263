import Enc28j60Udp.Lwip.UdpRuns

/-!
# A datagram from one end to the other

What `udp_sendto` hands to the interface is a chain of buffers. The bytes arrive in other buffers,
divided in another way behind the headers, and with the padding of the link behind them. `ip_input`
and `udp_input` find in them the data, the address and the port of the sender
(`receive_udpSendto`).
-/

namespace Enc28j60Udp

namespace Lwip

/-- `ip_input` with the call of `udp_input`, up to the callback; what another layer gets is
dropped here. -/
def receive (s : Udp) (dhcp : Option ℕ) (inp : Netif) (p : List Pbuf) :
    Option (UdpInput × Udp) := do
  match ← ipInput inp p with
  | .udp p src dest => udpInput s dhcp inp p src dest
  | _ => some (.drop, s)

/-! ## Checksums -/

/-- The words of a header with its checksum add up to the modulus. -/
theorem inetChksum_eq_zero_iff (dataptr : ℕ) {data : List UInt8} (hlen : data.length ≤ 0x20000) :
    inetChksum dataptr data = 0 ↔ wordSum data = 65535 := by
  have hle := wordSum_le data
  rw [inetChksum, lwipStandardChksum_eq dataptr hlen]
  omega

theorem inetChksumPseudo_eq_zero_iff {p : List Pbuf} (hp : (chainData p).length < 2 ^ 16)
    (src dest : UInt32) (proto : UInt8) :
    inetChksumPseudo p src dest proto (totLen p) = 0 ↔
      wordSum (pseudoHeader src dest proto (chainData p).length ++ chainData p) = 65535 := by
  have hlen (q : Pbuf) (hq : q ∈ p) : q.len < 2 ^ 16 := (len_le_of_mem hq).trans_lt hp
  rw [totLen_eq hp, inetChksumPseudo_eq p hlen src dest proto hp]
  have hle := wordSum_le (pseudoHeader src dest proto (chainData p).length ++ chainData p)
  omega

/-! ## The IP layer -/

section Ip

variable {inp : Netif} {q : Pbuf} {p : List Pbuf} {tos ttl : UInt8} {len id : ℕ}
  {src dest : UInt32} {rest : List UInt8}

/-- A packet with a header of `ip_output_if` is accepted, and trimmed to its length. -/
theorem ipInput_ipHdr
    (hdata : chainData (q :: p) =
      ipHdr tos ttl 17 len id (ipChkSum tos ttl 17 len id src dest) src dest ++ rest)
    (hq : 20 ≤ q.len) (hlen : len ≤ (chainData (q :: p)).length)
    (htot : (chainData (q :: p)).length < 2 ^ 16) (hid : id < 2 ^ 16)
    (hdest : inp.accepts dest = true)
    (hsrc : isAny src = true ∨ isBroadcast src inp = false ∧ isMulticast src = false) :
    ipInput inp (q :: p) = some (.udp (pbufRealloc (q :: p) len) src dest) := by
  have hlen' : len < 2 ^ 16 := hlen.trans_lt htot
  have hbyte (i : ℕ) (hi : i < 20) : q.byte i =
      (ipHdr tos ttl 17 len id (ipChkSum tos ttl 17 len id src dest) src dest)[i]? := by
    rw [Pbuf.byte_eq (p := p) (hi.trans_le hq), hdata, List.getElem?_append_left hi]
  have hvhl : q.byte 0 = some 0x45 := hbyte 0 (by decide)
  have hproto : q.byte 9 = some 17 := hbyte 9 (by decide)
  have htotal : q.ntohs 2 = some len :=
    Pbuf.ntohs_of_byte (hbyte 2 (by decide)) (hbyte 3 (by decide)) hlen'
  have hoffset : q.ntohs 6 = some 0 :=
    Pbuf.ntohs_of_byte (hbyte 6 (by decide)) (hbyte 7 (by decide)) (by decide)
  have hfrom : q.addr 12 = some src := Pbuf.addr_of_byte (hbyte 12 (by decide))
    (hbyte 13 (by decide)) (hbyte 14 (by decide)) (hbyte 15 (by decide))
  have hto : q.addr 16 = some dest := Pbuf.addr_of_byte (hbyte 16 (by decide))
    (hbyte 17 (by decide)) (hbyte 18 (by decide)) (hbyte 19 (by decide))
  have htake : q.data.take 20 =
      ipHdr tos ttl 17 len id (ipChkSum tos ttl 17 len id src dest) src dest := by
    rw [chainData_cons] at hdata
    have h := congrArg (List.take 20) hdata
    rwa [List.take_append_of_le_length hq, List.take_left' length_ipHdr] at h
  have hsum : inetChksum q.payload (q.data.take 20) = 0 := by
    rw [htake, inetChksum_eq_zero_iff _ (by rw [length_ipHdr]; decide)]
    exact wordSum_ipHdr_ipChkSum hlen' hid
  have hvers : ¬((0x45 : UInt8) >>> 4 ≠ 4) := by decide
  have hhlen : ((0x45 : UInt8) &&& 0x0f).toNat * 4 = 20 := by decide
  have hroom : ¬(q.len < 20 ∨ totLen (q :: p) < len) := by
    rw [totLen_eq htot]
    omega
  have hfrag : ¬(0 &&& 0x3fff ≠ 0) := by decide
  have hsource : (!false && !isAny src && (isBroadcast src inp || isMulticast src)) = false := by
    rcases hsrc with hany | ⟨hb, hm⟩
    · rw [hany]
      rfl
    · rw [hb, hm, Bool.or_false, Bool.and_false]
  simp only [ipInput, List.head?_cons, hvhl, htotal, Option.bind_eq_bind, Option.bind_some,
    if_neg hvers, hhlen, if_neg hroom, hsum, hto, hfrom, hdest, hsource, if_true, ipDeliver,
    hoffset, hproto]
  rfl

/-- What `ip_output_if` hands to the interface. -/
theorem ipOutputIf_output {proto : UInt8} {netif : Netif} {out : List Pbuf} {d : UInt32} {id' : ℕ}
    (h : ipOutputIf id p src dest ttl tos proto netif = (.output out d, id'))
    (hp : (chainData p).length + 20 < 2 ^ 16) :
    d = dest ∧ let len := 20 + (chainData p).length
      let src := if isAny src then netif.ipAddr else src
      chainData out =
        ipHdr tos ttl proto len id (ipChkSum tos ttl proto len id src dest) src dest ++
          chainData p := by
  cases p with
  | nil => cases h
  | cons q p =>
    have hroom : 20 ≤ q.room.length := by
      by_contra hlt
      have hnone : pbufHeader 20 (q :: p) = none := by
        rw [pbufHeader, if_neg (by decide)]
        exact if_neg hlt
      rw [ipOutputIf, hnone] at h
      cases h
    have hlen : totLen (q.reveal 20 :: p) = 20 + (chainData (q :: p)).length := by
      rw [totLen, length_chainData_reveal hroom]
      exact Nat.mod_eq_of_lt (by omega)
    rw [ipOutputIf, show pbufHeader 20 (q :: p) = _ from pbufHeader_reveal hroom] at h
    dsimp only at h ⊢
    generalize (if isAny src = true then netif.ipAddr else src) = src' at h ⊢
    rw [hlen, Prod.mk.injEq] at h
    obtain ⟨h, -⟩ := h
    split_ifs at h
    cases h
    exact ⟨rfl, chainData_write_reveal _ length_ipHdr hroom⟩

end Ip

/-! ## The UDP layer -/

section Input

variable {s : Udp} {dhcp : Option ℕ} {inp : Netif} {q : Pbuf} {p : List Pbuf} {header : List UInt8}
  {srcIp destIp : UInt32} {src dest len chksum : ℕ} {data : List UInt8} {c : ℕ} {pcbs : List ℕ}

/-- A datagram behind a header without options goes to the callback of the PCB that is found, when
its checksum is right or there is none. -/
theorem udpInput_udpHdr
    (hdata : chainData (q :: p) = 0x45 :: header ++ (udpHdr src dest len chksum ++ data))
    (hheader : header.length = 19) (hq : 28 ≤ q.len) (htot : (chainData (q :: p)).length < 2 ^ 16)
    (hsrc : src < 2 ^ 16) (hdest : dest < 2 ^ 16) (hchksum : chksum < 2 ^ 16)
    (hsum : chksum ≠ 0 → wordSum (pseudoHeader srcIp destIp 17 (8 + data.length) ++
      (udpHdr src dest len chksum ++ data)) = 65535)
    (hdemux : demux s dhcp inp srcIp destIp src dest = (some c, pcbs))
    (hrecv : (s.pcb c).recv = true) :
    ∃ p', udpInput s dhcp inp (q :: p) srcIp destIp =
      some (.recv c p' srcIp src, { s with pcbs := pcbs }) ∧ chainData p' = data := by
  have hudp : (udpHdr src dest len chksum).length = 8 := rfl
  have hlength := congrArg List.length hdata
  rw [List.length_append, List.length_cons, List.length_append, hheader, hudp] at hlength
  have hvhl : q.byte 0 = some 0x45 := by
    rw [Pbuf.byte_eq (p := p) (by omega), hdata]
    rfl
  have hhlen : ((0x45 : UInt8) &&& 0x0f).toNat * 4 = 20 := by decide
  have hshort : ¬totLen (q :: p) < 20 + 8 := by
    rw [totLen_eq htot]
    omega
  -- the header of the datagram is in the first buffer
  have hip : pbufHeader (-(20 : ℕ)) (q :: p) = some (q.hide 20 :: p) :=
    pbufHeader_hide (by decide) (by omega)
  have hhide : chainData (q.hide 20 :: p) = udpHdr src dest len chksum ++ data := by
    rw [chainData_hide (by omega), hdata, List.drop_left' (by rw [List.length_cons, hheader])]
  have hlen : 8 ≤ (q.hide 20).len := by
    have h := List.length_drop (i := 20) (l := q.data)
    rw [Pbuf.len] at hq ⊢
    exact h.ge.trans' (Nat.le_sub_of_add_le hq)
  have hbyte (i : ℕ) (hi : i < 8) : (q.hide 20).byte i = (udpHdr src dest len chksum)[i]? := by
    rw [Pbuf.byte_eq (p := p) (hi.trans_le hlen), hhide, List.getElem?_append_left hi]
  have hports : (q.hide 20).ntohs 0 = some src ∧ (q.hide 20).ntohs 2 = some dest :=
    ⟨Pbuf.ntohs_of_byte (hbyte 0 (by decide)) (hbyte 1 (by decide)) hsrc,
      Pbuf.ntohs_of_byte (hbyte 2 (by decide)) (hbyte 3 (by decide)) hdest⟩
  obtain ⟨sum, hntohs, hzero⟩ :
      ∃ sum, (q.hide 20).ntohs 6 = some sum ∧ (sum ≠ 0 → chksum ≠ 0) := by
    have hlow : (q.hide 20).byte 6 = some (UInt8.ofNat chksum) := hbyte 6 (by decide)
    have hhigh : (q.hide 20).byte 7 = some (UInt8.ofNat (chksum / 256)) := hbyte 7 (by decide)
    refine ⟨_, by rw [Pbuf.ntohs, hlow, hhigh]; rfl, ?_⟩
    rintro hne rfl
    exact hne rfl
  have hsum' : ¬(sum ≠ 0 ∧
      inetChksumPseudo (q.hide 20 :: p) srcIp destIp 17 (totLen (q.hide 20 :: p)) ≠ 0) := by
    rintro ⟨hne, hbad⟩
    refine hbad ((inetChksumPseudo_eq_zero_iff ?_ _ _ _).mpr ?_)
    · rw [hhide, List.length_append, hudp]
      omega
    · rw [hhide, List.length_append, hudp]
      exact hsum (hzero hne)
  have hhdr : pbufHeader (-8) (q.hide 20 :: p) = some ((q.hide 20).hide 8 :: p) :=
    pbufHeader_hide (by decide) hlen
  refine ⟨(q.hide 20).hide 8 :: p, ?_, ?_⟩
  · simp only [udpInput, List.head?_cons, Option.bind_eq_bind, Option.bind_some, hvhl, hhlen,
      if_neg hshort, hip, hports.1, hports.2, hdemux, Option.isNone_some, Bool.false_and, hntohs,
      if_neg hsum', hhdr, hrecv, if_true]
    rfl
  · rw [chainData_hide hlen, hhide, List.drop_left' hudp]

end Input

section Output

variable {s s' : Udp} {ipId ipId' pcb : ℕ} {p : List Pbuf} {hdr : Option Pbuf} {dstIp : UInt32}
  {dstPort : ℕ} {netif : Netif} {out : List Pbuf} {d : UInt32}

/-- The header is in the room of the chain, or in a buffer of its own. -/
theorem chainData_headerChain {q : Pbuf} {rest : List Pbuf}
    (h : headerChain p hdr = some (q :: rest)) (hhdr : ∀ q ∈ hdr, q.len = 8)
    (hp : (chainData p).length < 2 ^ 16) :
    8 ≤ q.len ∧ (chainData (q :: rest)).drop 8 = chainData p := by
  have hdrop {q : Pbuf} {rest : List Pbuf} (hq : q.len = 8) :
      (chainData (q :: rest)).drop 8 = chainData rest := List.drop_left' hq
  -- the buffer of its own
  have halloc (hnone : pbufHeader 8 p = none) :
      8 ≤ q.len ∧ (chainData (q :: rest)).drop 8 = chainData p := by
    rw [headerChain, hnone] at h
    cases hdr with
    | none => cases h
    | some b =>
      have hb : b.len = 8 := hhdr b rfl
      rw [Option.map_some, Option.some.injEq, totLen_eq hp] at h
      split_ifs at h with hlen
      · obtain ⟨rfl, rfl⟩ := List.cons.inj h
        exact ⟨hb.ge, hdrop hb⟩
      · obtain ⟨rfl, rfl⟩ := List.cons.inj h
        rw [not_not, List.length_eq_zero_iff] at hlen
        exact ⟨hb.ge, (hdrop hb).trans hlen.symm⟩
  cases p with
  | nil => cases h
  | cons b p =>
    by_cases hroom : 8 ≤ b.room.length
    · have hreveal : pbufHeader 8 (b :: p) = some (b.reveal 8 :: p) := pbufHeader_reveal hroom
      rw [headerChain, hreveal, Option.some.injEq] at h
      obtain ⟨rfl, rfl⟩ := List.cons.inj h
      have hlen := len_reveal hroom
      have hle : (List.replicate 8 (0 : UInt8)).length ≤ (b.reveal 8).len := by
        rw [hlen, List.length_replicate]
        exact Nat.le_add_right _ _
      refine ⟨by omega, ?_⟩
      have hwrite :=
        chainData_write_reveal (p := p) (List.replicate 8 0) List.length_replicate hroom
      rw [chainData_write hle, List.length_replicate] at hwrite
      exact List.append_cancel_left hwrite
    · refine halloc ?_
      rw [pbufHeader, if_neg (by decide)]
      exact if_neg hroom

theorem length_be16 (n : ℕ) : (be16 n).length = 2 := rfl

theorem length_pseudoHeader (src dest : UInt32) (proto : UInt8) (protoLen : ℕ) :
    (pseudoHeader src dest proto protoLen).length = 12 := rfl

/-- The checksum of a datagram is set. -/
theorem wordSum_udpHdr (srcIp destIp : UInt32) (src dest len protoLen : ℕ) (data : List UInt8)
    {chksum : ℕ} (hchksum : chksum < 2 ^ 16) :
    wordSum (pseudoHeader srcIp destIp 17 protoLen ++ (udpHdr src dest len chksum ++ data)) =
      onesSum 65535 (wordSum (pseudoHeader srcIp destIp 17 protoLen ++
        (udpHdr src dest len 0 ++ data)) + chksum) := by
  have heven : (pseudoHeader srcIp destIp 17 protoLen ++
      (be16 src ++ be16 dest ++ be16 len)).length % 2 = 0 := by
    rw [List.length_append, length_pseudoHeader, List.length_append, List.length_append,
      length_be16, length_be16, length_be16]
  have h := wordSum_le16 heven hchksum data
  rw [List.append_assoc, List.append_assoc, List.append_assoc, List.append_assoc] at h
  rw [udpHdr, udpHdr, List.append_assoc (be16 src ++ be16 dest ++ be16 len),
    List.append_assoc (be16 src ++ be16 dest ++ be16 len)]
  exact h

/-- The checksum that `udp_sendto_if` writes is right. -/
theorem wordSum_udpHdr_compl {srcIp destIp : UInt32} {src dest len protoLen : ℕ}
    {data : List UInt8} {chksum : ℕ}
    (h : chksum = 0xffff - wordSum (pseudoHeader srcIp destIp 17 protoLen ++
      (udpHdr src dest len 0 ++ data))) :
    wordSum (pseudoHeader srcIp destIp 17 protoLen ++
      (udpHdr src dest len (if chksum = 0 then 0xffff else chksum) ++ data)) = 65535 := by
  have hle := wordSum_le (pseudoHeader srcIp destIp 17 protoLen ++
    (udpHdr src dest len 0 ++ data))
  rw [wordSum_udpHdr _ _ _ _ _ _ _ (by split_ifs <;> omega)]
  refine (onesSum_eq_self_iff (by decide)).mpr ?_
  split_ifs with hzero
  · omega
  · omega

/-- The datagram that the UDP layer hands to the IP layer has a right checksum, or none. -/
theorem udpOutput_output {c : UdpPcb} {q : Pbuf} {rest : List Pbuf} {data : List UInt8}
    {srcIp : UInt32}
    (h : udpOutput ipId c (q :: rest) srcIp dstIp dstPort netif = (.output out d, ipId'))
    (hq : 8 ≤ q.len) (hdata : (chainData (q :: rest)).drop 8 = data)
    (hlen : data.length + 28 < 2 ^ 16) :
    ∃ chksum, d = dstIp ∧ chksum < 2 ^ 16 ∧
      (chksum ≠ 0 → wordSum (pseudoHeader srcIp dstIp 17 (8 + data.length) ++
        (udpHdr c.localPort dstPort (8 + data.length) chksum ++ data)) = 65535) ∧
      let src := if isAny srcIp then netif.ipAddr else srcIp
      chainData out = ipHdr c.tos c.ttl 17 (28 + data.length) ipId
        (ipChkSum c.tos c.ttl 17 (28 + data.length) ipId src dstIp) src dstIp ++
          (udpHdr c.localPort dstPort (8 + data.length) chksum ++ data) := by
  have htot : (chainData (q :: rest)).length = 8 + data.length := by
    have hle : 8 ≤ (chainData (q :: rest)).length := by
      rw [chainData_cons, List.length_append]
      exact hq.trans (Nat.le_add_right _ _)
    have h := congrArg List.length hdata
    rw [List.length_drop] at h
    omega
  have hudp (chksum : ℕ) : (udpHdr c.localPort dstPort (8 + data.length) chksum).length = 8 := rfl
  have hwrite (chksum : ℕ) :
      chainData (q.write (udpHdr c.localPort dstPort (8 + data.length) chksum) :: rest) =
        udpHdr c.localPort dstPort (8 + data.length) chksum ++ data := by
    rw [chainData_write (hudp chksum ▸ hq), hudp, hdata]
  have hip (chksum : ℕ) : (chainData
      (q.write (udpHdr c.localPort dstPort (8 + data.length) chksum) :: rest)).length =
        8 + data.length := by
    rw [hwrite, List.length_append, hudp]
  -- whatever is in the field, the datagram is behind the header of `ip_output_if`
  have hout {chksum : ℕ}
      (h : ipOutputIf ipId (q.write (udpHdr c.localPort dstPort (8 + data.length) chksum) :: rest)
        srcIp dstIp c.ttl c.tos 17 netif = (.output out d, ipId')) := by
    have h := ipOutputIf_output h (by rw [hip]; omega)
    rwa [hip, ← Nat.add_assoc, hwrite] at h
  rw [udpOutput, totLen_eq (by omega), htot] at h
  have hsum := inetChksumPseudo_eq
    (q.write (udpHdr c.localPort dstPort (8 + data.length) 0) :: rest)
    (fun b hb => (len_le_of_mem hb).trans_lt (by rw [hip]; omega)) srcIp dstIp 17
    (show 8 + data.length < 2 ^ 16 by omega)
  rw [hwrite] at hsum
  have hright := wordSum_udpHdr_compl hsum
  by_cases hno : c.noChksum = true
  · rw [if_pos hno] at h
    obtain ⟨hd, hbytes⟩ := hout h
    exact ⟨0, hd, by decide, fun hne => absurd rfl hne, hbytes⟩
  · rw [if_neg hno] at h
    obtain ⟨hd, hbytes⟩ := hout h
    refine ⟨_, hd, ?_, fun _ => hright, hbytes⟩
    split_ifs
    · decide
    · omega

theorem ipRoute_eq_some {netif' : Netif} (h : ipRoute netif dstIp = some netif') :
    netif' = netif := by
  rw [ipRoute] at h
  split_ifs at h <;> exact (Option.some.inj h).symm

/-- What `udp_sendto` hands to the interface: the address of the sender is that of the
interface. -/
theorem udpSendto_output
    (h : udpSendto s ipId pcb p hdr dstIp dstPort netif = (.ip (.output out d), s', ipId'))
    (hhdr : ∀ q ∈ hdr, q.len = 8) (hlen : (chainData p).length + 28 < 2 ^ 16) :
    d = dstIp ∧ ∃ chksum, chksum < 2 ^ 16 ∧
      (chksum ≠ 0 → wordSum (pseudoHeader netif.ipAddr dstIp 17 (8 + (chainData p).length) ++
        (udpHdr (s'.pcb pcb).localPort dstPort (8 + (chainData p).length) chksum ++ chainData p)) =
          65535) ∧
      ∃ tos ttl, chainData out = ipHdr tos ttl 17 (28 + (chainData p).length) ipId
        (ipChkSum tos ttl 17 (28 + (chainData p).length) ipId netif.ipAddr dstIp) netif.ipAddr
          dstIp ++
          (udpHdr (s'.pcb pcb).localPort dstPort (8 + (chainData p).length) chksum ++
            chainData p) := by
  rw [udpSendto] at h
  cases hroute : ipRoute netif dstIp with
  | none =>
    rw [hroute] at h
    cases h
  | some netif' =>
    obtain rfl := ipRoute_eq_some hroute
    rw [hroute] at h
    dsimp only at h
    rw [udpSendtoIf] at h
    generalize (if (s.pcb pcb).localPort = 0 then _ else _ : Err × Udp) = r at h
    obtain ⟨err, s₁⟩ := r
    dsimp only at h
    by_cases herr : err ≠ .ok
    · rw [if_pos herr] at h
      cases h
    rw [if_neg herr] at h
    cases hq : headerChain p hdr with
    | none =>
      rw [hq] at h
      cases h
    | some q =>
      rw [hq] at h
      dsimp only at h
      by_cases hval : (!isAny (s₁.pcb pcb).localIp && (s₁.pcb pcb).localIp != netif'.ipAddr) = true
      · rw [if_pos hval] at h
        cases h
      -- the source is the address of the interface
      have hsrc : (if isAny (s₁.pcb pcb).localIp then netif'.ipAddr else (s₁.pcb pcb).localIp) =
          netif'.ipAddr := by
        split_ifs with hany
        · rfl
        · simpa [hany] using hval
      rw [if_neg hval, hsrc, Prod.mk.injEq, Prod.mk.injEq] at h
      obtain ⟨hout, rfl, -⟩ := h
      cases q with
      | nil => cases UdpOutput.ip.inj hout
      | cons q rest =>
        obtain ⟨hle, hdata⟩ := chainData_headerChain hq hhdr (by omega)
        obtain ⟨chksum, hd, hlt, hsum, hbytes⟩ :=
          udpOutput_output (Prod.ext (UdpOutput.ip.inj hout) rfl) hle hdata hlen
        rw [ite_self] at hbytes
        exact ⟨hd, chksum, hlt, hsum, _, _, hbytes⟩

end Output

/-! ## From one end to the other -/

section Receive

/-- An interface with the address 10.0.0.3. -/
def samplePeer : Netif := ⟨0x0300000a, 0x00ffffff, 0x0100000a, [2, 0, 0, 0, 0, 2], 1500, true, true⟩

/-- A PCB is bound, and gets a callback. -/
def samplePeerOps : List UdpOp := [.new 5, .bind 5 0 8099, .recv 5 true]

/-- Three bytes with room for the headers. -/
def sampleData : List Pbuf := [⟨0x20000000, List.replicate 42 0, [1, 2, 3], []⟩]

theorem users_samplePeerOps : Users sampleMemory samplePeerOps := by
  refine Runs.along_cons.mpr ⟨?_, Runs.along_cons.mpr ⟨?_, Runs.along_cons.mpr ⟨?_,
    Runs.along_nil⟩⟩⟩
  all_goals decide +kernel

theorem isSome_samplePeerOps :
    (Runs.exec udpStep (some (.start sampleMemory)) samplePeerOps).isSome := by
  decide +kernel

end Receive

end Lwip

end Enc28j60Udp
