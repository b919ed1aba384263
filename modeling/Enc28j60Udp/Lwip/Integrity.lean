import Enc28j60Udp.Foundations.Burst
import Enc28j60Udp.Lwip.Datagram

/-!
# Errors on the way

The checksums see every burst of at most two adjacent bytes, whichever header or data it is in: a
datagram that is delivered after such an error is the one that was sent (`receive_burst`). The
exceptions are the exchange of `0x0000` and `0xffff`, and a burst that makes the checksum of the
datagram zero: `udp_input` then takes it as not in use (`HasChksum`).
-/

namespace Enc28j60Udp

namespace Lwip

/-! ## What is accepted -/

section Accept

variable {inp : Netif} {q : Pbuf} {p p' : List Pbuf} {src dest : UInt32}

theorem ipDeliver_udp {packet : List Pbuf} {a b : UInt32}
    (h : ipDeliver inp q packet a b = some (.udp p' src dest)) :
    p' = packet ∧ src = a ∧ dest = b := by
  obtain ⟨offset, -, h⟩ := Option.bind_eq_some_iff.mp h
  split at h
  · cases h
  obtain ⟨proto, -, h⟩ := Option.bind_eq_some_iff.mp h
  split_ifs at h <;> cases h
  exact ⟨rfl, rfl, rfl⟩

/-- A packet that is handed to `udp_input` has a header whose words add up to the modulus, and is
cut to the length that the header gives. -/
theorem ipInput_udp (h : ipInput inp (q :: p) = some (.udp p' src dest)) :
    ∃ vhl iphdrLen, q.byte 0 = some vhl ∧ q.ntohs 2 = some iphdrLen ∧
      (vhl &&& 0x0f).toNat * 4 ≤ q.len ∧ iphdrLen ≤ totLen (q :: p) ∧
      inetChksum q.payload (q.data.take ((vhl &&& 0x0f).toNat * 4)) = 0 ∧
      q.addr 16 = some dest ∧ q.addr 12 = some src ∧ p' = pbufRealloc (q :: p) iphdrLen := by
  rw [ipInput, List.head?_cons, Option.bind_eq_bind, Option.bind_some] at h
  obtain ⟨vhl, hvhl, h⟩ := Option.bind_eq_some_iff.mp h
  split at h
  · cases h
  obtain ⟨iphdrLen, hlen, h⟩ := Option.bind_eq_some_iff.mp h
  dsimp only at h
  split at h
  · cases h
  rename_i hroom
  split at h
  · cases h
  rename_i hsum
  obtain ⟨d, hto, h⟩ := Option.bind_eq_some_iff.mp h
  obtain ⟨a, hfrom, h⟩ := Option.bind_eq_some_iff.mp h
  have hdeliver : ipDeliver inp q (pbufRealloc (q :: p) iphdrLen) a d =
      some (.udp p' src dest) := by
    split at h
    all_goals
      obtain ⟨dhcp, -, h⟩ := Option.bind_eq_some_iff.mp h
      split_ifs at h <;> first | exact h | cases h
  obtain ⟨rfl, rfl, rfl⟩ := ipDeliver_udp hdeliver
  rw [not_not] at hsum
  rw [not_or, Nat.not_lt, Nat.not_lt] at hroom
  exact ⟨vhl, iphdrLen, hvhl, hlen, hroom.1, hroom.2, hsum, hto, hfrom, rfl⟩

/-- A datagram that is handed to a callback has the headers in the first buffer, and a right
checksum or none. -/
theorem udpInput_recv {s s' : Udp} {dhcp : Option ℕ} {vhl : UInt8} {c port : ℕ} {data : List Pbuf}
    {addr : UInt32}
    (h : udpInput s dhcp inp (q :: p) src dest = some (.recv c data addr port, s'))
    (hvhl : q.byte 0 = some vhl) (hpos : 0 < (vhl &&& 0x0f).toNat * 4)
    (hq : (vhl &&& 0x0f).toNat * 4 + 8 ≤ q.len ∨ totLen (q :: p) < (vhl &&& 0x0f).toNat * 4 + 8) :
    (vhl &&& 0x0f).toNat * 4 + 8 ≤ totLen (q :: p) ∧ addr = src ∧
      ∃ u chksum, chainData (u :: p) = (chainData (q :: p)).drop ((vhl &&& 0x0f).toNat * 4) ∧
        8 ≤ u.len ∧ u.ntohs 0 = some port ∧ u.ntohs 6 = some chksum ∧
        (chksum ≠ 0 → inetChksumPseudo (u :: p) src dest 17 (totLen (u :: p)) = 0) ∧
        chainData data = (chainData (u :: p)).drop 8 := by
  simp only [udpInput, List.head?_cons, Option.bind_eq_bind, Option.bind_some, hvhl] at h
  generalize (vhl &&& 0x0f).toNat * 4 = hlen at h hpos hq ⊢
  split at h
  · cases h
  rename_i hshort
  rw [Nat.not_lt] at hshort
  have hq : hlen + 8 ≤ q.len := hq.resolve_right (Nat.not_lt.mpr hshort)
  have hlen' : hlen ≤ q.len := Nat.le_of_add_right_le hq
  rw [pbufHeader_hide hpos hlen'] at h
  dsimp only at h
  rw [List.head?_cons, Option.bind_some] at h
  have hu : 8 ≤ (q.hide hlen).len := by
    have hdrop := List.length_drop (i := hlen) (l := q.data)
    rw [Pbuf.len] at hq ⊢
    exact hdrop.ge.trans' (by omega)
  obtain ⟨srcPort, hsrc, h⟩ := Option.bind_eq_some_iff.mp h
  obtain ⟨destPort, -, h⟩ := Option.bind_eq_some_iff.mp h
  split at h
  · cases h
  obtain ⟨chksum, hchksum, h⟩ := Option.bind_eq_some_iff.mp h
  split at h
  · cases h
  rename_i hsum
  have hhdr : pbufHeader (-8) (q.hide hlen :: p) = some ((q.hide hlen).hide 8 :: p) :=
    pbufHeader_hide (by decide) hu
  rw [hhdr] at h
  dsimp only at h
  split at h
  · split_ifs at h <;> cases h
    refine ⟨hshort, rfl, q.hide hlen, chksum, chainData_hide hlen', hu, hsrc, hchksum, ?_,
      chainData_hide hu⟩
    intro hne
    by_contra hbad
    exact hsum ⟨hne, hbad⟩
  · split_ifs at h <;> cases h

theorem Pbuf.byte_of_ntohs_zero {i : ℕ} (h : q.ntohs i = some 0) :
    q.byte i = some 0 ∧ q.byte (i + 1) = some 0 := by
  obtain ⟨high, hhigh, h⟩ := Option.bind_eq_some_iff.mp h
  obtain ⟨low, hlow, h⟩ := Option.bind_eq_some_iff.mp h
  have hsum : 256 * high.toNat + low.toNat = 0 := Option.some.inj h
  rw [hhigh, hlow, Option.some.injEq, Option.some.injEq, ← UInt8.toNat_inj, ← UInt8.toNat_inj,
    UInt8.toNat_zero]
  omega

end Accept

/-! ## Two packets -/

/-- The header has its options behind the addresses. -/
def IhlOk (packet : List UInt8) : Prop := ∀ vhl ∈ packet.head?, 20 ≤ (vhl &&& 0x0f).toNat * 4

/-- The field for the checksum of the datagram is not zero. -/
def HasChksum (packet : List UInt8) : Prop :=
  ∀ vhl ∈ packet.head?, packet[(vhl &&& 0x0f).toNat * 4 + 6]? ≠ some 0 ∨
    packet[(vhl &&& 0x0f).toNat * 4 + 7]? ≠ some 0

instance : DecidablePred IhlOk := fun packet =>
  inferInstanceAs (Decidable (∀ vhl ∈ packet.head?, 20 ≤ (vhl &&& 0x0f).toNat * 4))

instance : DecidablePred HasChksum := fun packet =>
  inferInstanceAs (Decidable (∀ vhl ∈ packet.head?,
    packet[(vhl &&& 0x0f).toNat * 4 + 6]? ≠ some 0 ∨
      packet[(vhl &&& 0x0f).toNat * 4 + 7]? ≠ some 0))

/-- What is known of a packet whose datagram was delivered: the header and the datagram add up to
the modulus, and the rest is read from them. -/
structure Delivered (packet : List UInt8) (vhl : UInt8) (iphdrLen : ℕ) (src dest : UInt32)
    (u : Pbuf) (rest : List Pbuf) (data : List UInt8) (addr : UInt32) (port : ℕ) : Prop where
  head : packet.head? = some vhl
  hlen_le : (vhl &&& 0x0f).toNat * 4 + 8 ≤ iphdrLen
  len_le : iphdrLen ≤ packet.length
  header : wordSum (packet.take ((vhl &&& 0x0f).toNat * 4)) = 65535
  datagram_eq : chainData (u :: rest) =
    (packet.take iphdrLen).drop ((vhl &&& 0x0f).toNat * 4)
  datagram : HasChksum packet →
    wordSum (pseudoHeader src dest 17 (chainData (u :: rest)).length ++ chainData (u :: rest)) =
      65535
  eight_le : 8 ≤ u.len
  port_eq : u.ntohs 0 = some port
  addr_eq : addr = src
  data_eq : data = (chainData (u :: rest)).drop 8

section Delivered

variable {s s' : Udp} {dhcp : Option ℕ} {inp : Netif} {q : Pbuf} {p data : List Pbuf} {c port : ℕ}
  {addr : UInt32}

theorem receive_recv (h : receive s dhcp inp (q :: p) = some (.recv c data addr port, s'))
    (hfirst : HeadersFirst (q :: p)) (hihl : IhlOk (chainData (q :: p))) :
    ∃ vhl iphdrLen src dest u rest, Delivered (chainData (q :: p)) vhl iphdrLen src dest u rest
      (chainData data) addr port ∧ q.ntohs 2 = some iphdrLen ∧ q.addr 12 = some src ∧
        q.addr 16 = some dest ∧ (vhl &&& 0x0f).toNat * 4 ≤ q.len := by
  obtain ⟨hlen, htot, hq⟩ := hfirst
  obtain ⟨r, hip, h⟩ := Option.bind_eq_some_iff.mp h
  cases r with
  | udp p' src dest =>
    obtain ⟨vhl, iphdrLen, hvhl, hiphdrLen, hroom, hle, hsum, hdest, hsrc, rfl⟩ := ipInput_udp hip
    have hhead : (chainData (q :: p)).head? = some vhl := by
      rw [List.head?_eq_getElem?, ← Pbuf.byte_eq (show 0 < q.len by omega)]
      exact hvhl
    have hpos := hihl vhl hhead
    have hvhl_le : (vhl &&& 0x0f).toNat * 4 ≤ 60 := by
      have h := Nat.and_le_right (n := vhl.toNat) (m := 15)
      rw [UInt8.toNat_and]
      exact Nat.mul_le_mul_right 4 h
    obtain ⟨q', p', hrealloc, hq', hbyte⟩ := pbufRealloc_cons q p iphdrLen
    have hcut : chainData (q' :: p') = (chainData (q :: p)).take iphdrLen := by
      rw [← hrealloc, chainData_pbufRealloc htot]
    rw [totLen_eq htot] at hle
    have hcut_len : (chainData (q' :: p')).length = iphdrLen := by
      rw [hcut, List.length_take, Nat.min_eq_left hle]
    have htot' : totLen (q' :: p') = iphdrLen := by rw [totLen_eq (by omega), hcut_len]
    rw [hrealloc] at h
    obtain ⟨hlen', rfl, u, chksum, hu, height, hport, hchksum, hsum', hdata⟩ :=
      udpInput_recv h ((hbyte 0).trans hvhl) (by omega) (by rw [htot']; omega)
    rw [htot'] at hlen'
    have htake : q.data.take ((vhl &&& 0x0f).toNat * 4) =
        (chainData (q :: p)).take ((vhl &&& 0x0f).toNat * 4) := by
      rw [chainData_cons, List.take_append_of_le_length hroom]
    have hheader : ((chainData (q :: p)).take ((vhl &&& 0x0f).toNat * 4)).length ≤ 0x20000 :=
      (List.length_take_le _ _).trans (by omega)
    rw [htake, inetChksum_eq_zero_iff _ hheader] at hsum
    rw [hcut] at hu
    refine ⟨vhl, iphdrLen, addr, dest, u, p', ⟨hhead, hlen', hle, hsum, hu, fun hhas => ?_, height,
      hport, rfl, hdata⟩, hiphdrLen, hsrc, hdest, hroom⟩
    have hu_len : (chainData (u :: p')).length < 2 ^ 16 := by
      rw [hu, List.length_drop, List.length_take]
      omega
    refine (inetChksumPseudo_eq_zero_iff hu_len _ _ _).mp (hsum' ?_)
    rintro rfl
    obtain ⟨h₆, h₇⟩ := Pbuf.byte_of_ntohs_zero hchksum
    have hfield (i : ℕ) (hi : i < 8) :
        u.byte i = (chainData (q :: p))[(vhl &&& 0x0f).toNat * 4 + i]? := by
      rw [Pbuf.byte_eq (p := p') (hi.trans_le height), hu, List.getElem?_drop,
        List.getElem?_take_of_lt (by omega)]
    rw [hfield 6 (by decide)] at h₆
    rw [hfield 7 (by decide)] at h₇
    exact (hhas vhl hhead).elim (fun hne => hne h₆) fun hne => hne h₇
  | _ => cases h

/-- The same bytes are read as the same word. -/
theorem Pbuf.ntohs_congr {q' : Pbuf} {i : ℕ} (h₀ : q.byte i = q'.byte i)
    (h₁ : q.byte (i + 1) = q'.byte (i + 1)) : q.ntohs i = q'.ntohs i := by
  rw [Pbuf.ntohs, Pbuf.ntohs, h₀, h₁]

theorem Pbuf.addr_congr {q' : Pbuf} {i : ℕ} (h : ∀ j, i ≤ j → j < i + 4 → q.byte j = q'.byte j) :
    q.addr i = q'.addr i := by
  rw [Pbuf.addr, Pbuf.addr, h i (by omega) (by omega), h (i + 1) (by omega) (by omega),
    h (i + 2) (by omega) (by omega), h (i + 3) (by omega) (by omega)]

end Delivered

/-- **Errors are seen.** Of two packets that differ by a burst, the first byte apart, the second is
delivered with the data, the address and the port of the first, or not at all. -/
theorem receive_burst {s₁ s₁' s₂ s₂' : Udp} {dhcp₁ dhcp₂ : Option ℕ} {inp₁ inp₂ : Netif}
    {q₁ q₂ : Pbuf} {p₁ p₂ data₁ data₂ : List Pbuf} {c₁ c₂ port₁ port₂ : ℕ} {addr₁ addr₂ : UInt32}
    (hburst : Burst (chainData (q₁ :: p₁)) (chainData (q₂ :: p₂)))
    (hhead : (chainData (q₁ :: p₁)).head? = (chainData (q₂ :: p₂)).head?)
    (hihl : IhlOk (chainData (q₁ :: p₁)))
    (hchksum₁ : HasChksum (chainData (q₁ :: p₁))) (hchksum₂ : HasChksum (chainData (q₂ :: p₂)))
    (hfirst₁ : HeadersFirst (q₁ :: p₁)) (hfirst₂ : HeadersFirst (q₂ :: p₂))
    (h₁ : receive s₁ dhcp₁ inp₁ (q₁ :: p₁) = some (.recv c₁ data₁ addr₁ port₁, s₁'))
    (h₂ : receive s₂ dhcp₂ inp₂ (q₂ :: p₂) = some (.recv c₂ data₂ addr₂ port₂, s₂')) :
    chainData data₂ = chainData data₁ ∧ addr₂ = addr₁ ∧ port₂ = port₁ := by
  have hihl₂ : IhlOk (chainData (q₂ :: p₂)) := by rwa [IhlOk, ← hhead]
  obtain ⟨vhl, len₁, src₁, dest₁, u₁, r₁, hd₁, hlen₁, hsrc₁, hdest₁, hle₁⟩ :=
    receive_recv h₁ hfirst₁ hihl
  obtain ⟨vhl', len₂, src₂, dest₂, u₂, r₂, hd₂, hlen₂, hsrc₂, hdest₂, hle₂⟩ :=
    receive_recv h₂ hfirst₂ hihl₂
  obtain rfl : vhl = vhl' := Option.some.inj (hd₁.head.symm.trans (hhead.trans hd₂.head))
  have hpos := hihl vhl hd₁.head
  -- the headers are the same, and what is read from them
  have hheader := (hburst.take ((vhl &&& 0x0f).toNat * 4)).eq_of_wordSum_eq
    (hd₁.header.trans hd₂.header.symm)
  have hbyte (j : ℕ) (hj : j < (vhl &&& 0x0f).toNat * 4) : q₁.byte j = q₂.byte j := by
    have h := congrArg (·[j]?) hheader
    rw [List.getElem?_take_of_lt hj, List.getElem?_take_of_lt hj] at h
    rw [Pbuf.byte_eq (p := p₁) (hj.trans_le hle₁), h, Pbuf.byte_eq (p := p₂) (hj.trans_le hle₂)]
  obtain rfl : len₁ = len₂ := by
    rw [Pbuf.ntohs_congr (hbyte 2 (by omega)) (hbyte 3 (by omega)), hlen₂] at hlen₁
    exact (Option.some.inj hlen₁).symm
  obtain rfl : src₁ = src₂ := by
    rw [Pbuf.addr_congr fun j _ hj => hbyte j (by omega), hsrc₂] at hsrc₁
    exact (Option.some.inj hsrc₁).symm
  obtain rfl : dest₁ = dest₂ := by
    rw [Pbuf.addr_congr fun j _ hj => hbyte j (by omega), hdest₂] at hdest₁
    exact (Option.some.inj hdest₁).symm
  -- so are the datagrams
  have hsum₁ := hd₁.datagram hchksum₁
  have hsum₂ := hd₂.datagram hchksum₂
  have hcut : Burst (chainData (u₁ :: r₁)) (chainData (u₂ :: r₂)) := by
    rw [hd₁.datagram_eq, hd₂.datagram_eq]
    exact (hburst.take len₁).drop _
  rw [hcut.length_eq] at hsum₁
  have hdatagram : chainData (u₁ :: r₁) = chainData (u₂ :: r₂) := List.append_cancel_left
    ((hcut.append_left _).eq_of_wordSum_eq (hsum₁.trans hsum₂.symm))
  have hport (j : ℕ) (hj : j < 8) : u₁.byte j = u₂.byte j := by
    rw [Pbuf.byte_eq (p := r₁) (hj.trans_le hd₁.eight_le), hdatagram,
      Pbuf.byte_eq (p := r₂) (hj.trans_le hd₂.eight_le)]
  refine ⟨?_, hd₂.addr_eq.trans hd₁.addr_eq.symm, ?_⟩
  · rw [hd₁.data_eq, hd₂.data_eq, hdatagram]
  · have hp := hd₁.port_eq
    rw [Pbuf.ntohs_congr (hport 0 (by decide)) (hport 1 (by decide)), hd₂.port_eq] at hp
    exact Option.some.inj hp

/-- A packet with three bytes of data, and two bytes behind it. -/
def samplePacket (b₀ b₁ : UInt8) : List UInt8 :=
  ipHdr 0 255 17 31 0 (ipChkSum 0 255 17 31 0 0x0200000a 0x0300000a) 0x0200000a 0x0300000a ++
    (udpHdr 7 8099 11 10184 ++ [1, 2, 3]) ++ [b₀, b₁]

/-- One PCB is bound. -/
def sampleUdp : Udp := ⟨fun _ => ⟨0, 0, 8099, 0, 0, 255, false, false, true⟩, [5], 0xc000⟩

theorem receive_burst_samplePacket : ∃ data₁ data₂ s₁ s₂,
    receive sampleUdp none samplePeer [⟨0x20001000, [], samplePacket 0 0, []⟩] =
      some (.recv 5 data₁ 0x0200000a 7, s₁) ∧
    receive sampleUdp none samplePeer [⟨0x20001000, [], samplePacket 1 2, []⟩] =
      some (.recv 5 data₂ 0x0200000a 7, s₂) ∧ chainData data₂ = chainData data₁ := by
  obtain ⟨data₁, s₁, h₁⟩ : ∃ data s', receive sampleUdp none samplePeer
      [⟨0x20001000, [], samplePacket 0 0, []⟩] = some (.recv 5 data 0x0200000a 7, s') := ⟨_, _, rfl⟩
  obtain ⟨data₂, s₂, h₂⟩ : ∃ data s', receive sampleUdp none samplePeer
      [⟨0x20001000, [], samplePacket 1 2, []⟩] = some (.recv 5 data 0x0200000a 7, s') := ⟨_, _, rfl⟩
  have hburst : Burst (chainData [(⟨0x20001000, [], samplePacket 0 0, []⟩ : Pbuf)])
      (chainData [(⟨0x20001000, [], samplePacket 1 2, []⟩ : Pbuf)]) :=
    ⟨(samplePacket 0 0).take 31, [0, 0], [1, 2], [], rfl, rfl, rfl, by decide, by decide, by decide⟩
  exact ⟨data₁, data₂, s₁, s₂, h₁, h₂, (receive_burst hburst rfl (by decide +kernel)
    (by decide +kernel) (by decide +kernel) (by decide +kernel) (by decide +kernel) h₁ h₂).1⟩

end Lwip

end Enc28j60Udp
