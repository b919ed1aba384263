import Enc28j60Udp.Foundations.Endian
import Enc28j60Udp.Foundations.OnesSum
import Enc28j60Udp.Lwip.Pbuf

/-!
# The Internet checksum

`lwip_standard_chksum` adds up the words of a buffer as the processor reads them. A buffer at an odd
address is read from its second byte on, and the bytes of the sum are exchanged. The sums of a chain
are added up, and the bytes of the sum so far are exchanged behind every `pbuf` of odd length.

Neither the address of a buffer nor the division of a chain into buffers matters: the result is the
complement of the ones' complement sum of the bytes (`lwipStandardChksum_eq`,
`inetChksumPseudo_eq`).
-/

namespace Enc28j60Udp

namespace Lwip

/-! ## The functions -/

/-- The bytes of an `ip_addr_t`. -/
def addrBytes (a : UInt32) : List UInt8 :=
  [a.toUInt8, (a >>> 8).toUInt8, (a >>> 16).toUInt8, (a >>> 24).toUInt8]

/-- A `u16_t` in network byte order. -/
def be16 (n : ℕ) : List UInt8 := [UInt8.ofNat (n / 256), UInt8.ofNat n]

/-- A `u16_t` as it is stored. -/
def le16 (n : ℕ) : List UInt8 := [UInt8.ofNat n, UInt8.ofNat (n / 256)]

/-- `FOLD_U32T`. -/
def foldU32t (u : ℕ) : ℕ := (u >>> 16) + (u &&& 0xffff)

/-- `SWAP_BYTES_IN_WORD`. -/
def swapBytesInWord (w : ℕ) : ℕ := (w &&& 0xff) <<< 8 ||| (w &&& 0xff00) >>> 8

/-- `lwip_htons`. -/
def htons (n : ℕ) : ℕ := (n &&& 0xff) <<< 8 ||| (n &&& 0xff00) >>> 8

/-- The loop of `lwip_standard_chksum`: the sum, and the byte that is left over. -/
def chksumLoop (sum : ℕ) : List UInt8 → ℕ × UInt8
  | b₀ :: b₁ :: pb => chksumLoop ((sum + (b₀.toNat + 256 * b₁.toNat)) % 2 ^ 32) pb
  | [b] => (sum, b)
  | [] => (sum, 0)

/-- The byte in front of the words, at an odd address. -/
def alignU16 (odd : Bool) : List UInt8 → UInt8 × List UInt8
  | b :: pb => if odd then (b, pb) else (0, b :: pb)
  | [] => (0, [])

/-- `lwip_standard_chksum`, the algorithm for buffers at any address. -/
def lwipStandardChksum (dataptr : ℕ) (data : List UInt8) : ℕ :=
  let odd := dataptr % 2 == 1
  let (t₁, pb) := alignU16 odd data
  let (sum, t₀) := chksumLoop 0 pb
  let sum := (sum + (t₀.toNat + 256 * t₁.toNat)) % 2 ^ 32
  let sum := foldU32t sum
  let sum := foldU32t sum
  let sum := if odd then swapBytesInWord sum else sum
  sum % 2 ^ 16

/-- `inet_chksum`. -/
def inetChksum (dataptr : ℕ) (data : List UInt8) : ℕ := 0xffff - lwipStandardChksum dataptr data

/-- The loop over a chain: `acc` and `swapped`. -/
def chainLoop : List Pbuf → ℕ → ℕ → ℕ × ℕ
  | [], acc, swapped => (acc, swapped)
  | q :: p, acc, swapped =>
    let acc := foldU32t ((acc + lwipStandardChksum q.payload q.data) % 2 ^ 32)
    if q.len % 2 ≠ 0 then chainLoop p (swapBytesInWord acc) (1 - swapped)
    else chainLoop p acc swapped

/-- The sum of a chain, with which `inet_chksum_pbuf` and `inet_chksum_pseudo` start. -/
def chainChksum (p : List Pbuf) : ℕ :=
  let (acc, swapped) := chainLoop p 0 0
  if swapped ≠ 0 then swapBytesInWord acc else acc

/-- `inet_chksum_pbuf`. -/
def inetChksumPbuf (p : List Pbuf) : ℕ :=
  let acc := chainChksum p
  0xffff - (acc &&& 0xffff)

/-- `inet_chksum_pseudo`. -/
def inetChksumPseudo (p : List Pbuf) (src dest : UInt32) (proto : UInt8) (protoLen : ℕ) : ℕ :=
  let acc := chainChksum p
  let acc := acc + (src.toNat &&& 0xffff)
  let acc := acc + (src.toNat >>> 16 &&& 0xffff)
  let acc := acc + (dest.toNat &&& 0xffff)
  let acc := acc + (dest.toNat >>> 16 &&& 0xffff)
  let acc := acc + htons proto.toNat
  let acc := (acc + htons protoLen) % 2 ^ 32
  let acc := foldU32t acc
  let acc := foldU32t acc
  0xffff - (acc &&& 0xffff)

/-! ## One buffer -/

theorem foldU32t_eq (u : ℕ) : foldU32t u = fold 65536 u := by
  rw [foldU32t, fold, Nat.shiftRight_eq_div_pow, show 0xffff = 2 ^ 16 - 1 from rfl,
    Nat.and_two_pow_sub_one_eq_mod]

theorem swapBytesInWord_eq {w : ℕ} (hw : w < 2 ^ 16) : swapBytesInWord w = swapDigits 256 w := by
  have hlow : w &&& 0xff = w % 2 ^ 8 := Nat.and_two_pow_sub_one_eq_mod w 8
  have hhigh : (w &&& 0xff00) >>> 8 = w / 2 ^ 8 := by
    rw [Nat.shiftRight_and_distrib, show 0xff00 >>> 8 = 2 ^ 8 - 1 from rfl,
      Nat.and_two_pow_sub_one_eq_mod, Nat.shiftRight_eq_div_pow]
    exact Nat.mod_eq_of_lt (by omega)
  rw [swapBytesInWord, hlow, hhigh, Nat.shiftLeft_eq, Nat.or_comm,
    or_mul_two_pow 8 (by omega), Nat.add_comm]
  rfl

theorem htons_eq (n : ℕ) : htons n = swapBytesInWord n := rfl

/-- The loop adds up the words as long as the sum has room for them. -/
theorem chksumLoop_spec (pb : List UInt8) (k : ℕ) {sum : ℕ}
    (hsum : sum + 65535 * (pb.length / 2) < 2 ^ 32) :
    (chksumLoop sum pb).1 ≤ sum + 65535 * (pb.length / 2) ∧
      onesSum 65535 ((chksumLoop sum pb).1 + (chksumLoop sum pb).2.toNat + k) =
        onesSum 65535 (sum + littleEndian pb + k) := by
  induction sum, pb using chksumLoop.induct with
  | case1 sum b₀ b₁ pb ih =>
    have h₀ := b₀.toNat_lt
    have h₁ := b₁.toNat_lt
    have hlen : (b₀ :: b₁ :: pb).length / 2 = pb.length / 2 + 1 := by
      rw [List.length_cons, List.length_cons]
      omega
    rw [hlen] at hsum ⊢
    have hmod : (sum + (b₀.toNat + 256 * b₁.toNat)) % 2 ^ 32 = sum + (b₀.toNat + 256 * b₁.toNat) :=
      Nat.mod_eq_of_lt (by omega)
    rw [chksumLoop, hmod]
    rw [hmod] at ih
    obtain ⟨hle, heq⟩ := ih (by omega)
    refine ⟨by omega, heq.trans ?_⟩
    have hsq := onesSum_add_sq_mul (by decide : 1 < 256)
      (sum + (b₀.toNat + 256 * b₁.toNat) + k) (littleEndian pb)
    rw [littleEndian_cons, littleEndian_cons]
    convert hsq.symm using 2 <;> ring
  | case2 sum b => simp [chksumLoop]
  | case3 sum => simp [chksumLoop]

/-- The two foldings of a sum of 32 bits. -/
theorem foldU32t_foldU32t {u : ℕ} (hu : u < 2 ^ 32) : foldU32t (foldU32t u) = onesSum 65535 u := by
  rw [foldU32t_eq, foldU32t_eq]
  exact fold_fold (by decide) hu

theorem swapBytesInWord_onesSum (v : ℕ) :
    swapBytesInWord (onesSum 65535 v) = onesSum 65535 (256 * v) := by
  have hle := onesSum_le (by decide : 0 < 65535) v
  rw [swapBytesInWord_eq (by omega)]
  exact swapDigits_onesSum (by decide) v

/-- **The checksum of a buffer** is the sum of its words, wherever it lies. -/
theorem lwipStandardChksum_eq (dataptr : ℕ) {data : List UInt8} (hlen : data.length ≤ 0x20000) :
    lwipStandardChksum dataptr data = wordSum data := by
  have hle := wordSum_le data
  -- the two foldings of the sum and of the bytes at the ends
  have hfold (b : UInt8) {pb : List UInt8} (hpb : pb.length ≤ 0x20000)
      (hroom : 65535 * (pb.length / 2) + 255 + 256 * b.toNat < 2 ^ 32) :
      foldU32t (foldU32t (((chksumLoop 0 pb).1 +
        ((chksumLoop 0 pb).2.toNat + 256 * b.toNat)) % 2 ^ 32)) =
          onesSum 65535 (256 * b.toNat + littleEndian pb) := by
    obtain ⟨hsum, heq⟩ := @chksumLoop_spec pb (256 * b.toNat) 0 (by omega)
    have ht := (chksumLoop 0 pb).2.toNat_lt
    rw [Nat.mod_eq_of_lt (by omega), foldU32t_foldU32t (by omega), ← Nat.add_assoc, heq,
      Nat.zero_add, Nat.add_comm]
  unfold lwipStandardChksum
  cases dataptr % 2 == 1 with
  | true =>
    cases data with
    | nil => simp [alignU16, chksumLoop, foldU32t, swapBytesInWord, wordSum]
    | cons b pb =>
      have hb := b.toNat_lt
      rw [List.length_cons] at hlen
      have hswap : onesSum 65535 (256 * (256 * b.toNat + littleEndian pb)) =
          wordSum (b :: pb) := by
        have hsq := onesSum_add_sq_mul (by decide : 1 < 256) (256 * littleEndian pb) b.toNat
        rw [Nat.mul_add, ← Nat.mul_assoc, Nat.add_comm, wordSum, littleEndian_cons,
          Nat.add_comm b.toNat]
        exact hsq
      simp only [alignU16, if_true]
      rw [hfold b (by omega) (by omega), swapBytesInWord_onesSum, hswap,
        Nat.mod_eq_of_lt (by omega)]
  | false =>
    have hpb : alignU16 false data = (0, data) := by cases data <;> rfl
    have h₀ := hfold 0 hlen (by rw [UInt8.toNat_zero]; omega)
    simp only [hpb, Bool.false_eq_true, if_false]
    rw [h₀, UInt8.toNat_zero, Nat.mul_zero, Nat.zero_add, ← wordSum, Nat.mod_eq_of_lt (by omega)]

/-! ## Chains -/

/-- The loop has the sum of the bytes so far, with its bytes exchanged behind an odd number of
them. -/
theorem chainLoop_spec (front : List UInt8) (p : List Pbuf) (hp : ∀ q ∈ p, q.len < 2 ^ 16) :
    chainLoop p (onesSum 65535 (256 ^ (front.length % 2) * littleEndian front))
        (front.length % 2) =
      let bytes := front ++ chainData p
      (onesSum 65535 (256 ^ (bytes.length % 2) * littleEndian bytes), bytes.length % 2) := by
  induction p generalizing front with
  | nil => simp [chainLoop, chainData]
  | cons q p ih =>
    obtain ⟨hq, hp⟩ := List.forall_mem_cons.mp hp
    have hih := ih (front ++ q.data) hp
    have hacc := onesSum_le (by decide : 0 < 65535)
      (256 ^ (front.length % 2) * littleEndian front)
    have hchk := wordSum_le q.data
    have hfold : foldU32t ((onesSum 65535 (256 ^ (front.length % 2) * littleEndian front) +
        lwipStandardChksum q.payload q.data) % 2 ^ 32) =
          onesSum 65535 (256 ^ (front.length % 2) * littleEndian front + littleEndian q.data) := by
      rw [lwipStandardChksum_eq _ (by rw [Pbuf.len] at hq; omega), Nat.mod_eq_of_lt (by omega),
        foldU32t_eq, fold_of_le (by decide) (by omega), wordSum]
      exact onesSum_add (by decide) _ _
    rw [show chainData (q :: p) = q.data ++ chainData p from rfl, ← List.append_assoc, chainLoop,
      hfold, ← hih]
    rw [Pbuf.len]
    split_ifs with hodd
    · have hpar : (front.length + q.data.length) % 2 = 1 - front.length % 2 := by omega
      have happend := @onesSum_littleEndian_append (1 - front.length % 2) front q.data 1 (by omega)
      have hpow : onesSum 65535 (256 ^ (front.length % 2 + 1) * littleEndian front +
          256 ^ 1 * littleEndian q.data) = onesSum 65535 (256 ^ ((1 - front.length % 2) % 2) *
            littleEndian front + 256 ^ 1 * littleEndian q.data) :=
        onesSum_pow_mul_add (by decide : 1 < 256) (by omega) rfl _ _
      rw [List.length_append, hpar, happend, swapBytesInWord_onesSum, Nat.mul_add, ← Nat.mul_assoc,
        ← hpow, Nat.pow_succ', Nat.pow_one]
    · have hpar : (front.length + q.data.length) % 2 = front.length % 2 := by omega
      have happend := @onesSum_littleEndian_append (front.length % 2) front q.data 0 (by omega)
      rw [List.length_append, hpar, happend, Nat.mod_mod, Nat.pow_zero, Nat.one_mul]

/-- The sum of a chain is that of its bytes. -/
theorem chainChksum_eq (p : List Pbuf) (hp : ∀ q ∈ p, q.len < 2 ^ 16) :
    chainChksum p = wordSum (chainData p) := by
  have h := chainLoop_spec [] p hp
  rw [List.length_nil, Nat.zero_mod, Nat.pow_zero, Nat.one_mul, littleEndian_nil, onesSum_zero] at h
  rw [chainChksum, h, List.nil_append]
  dsimp only
  rcases Nat.mod_two_eq_zero_or_one (chainData p).length with heven | hodd
  · rw [heven, if_neg (by decide), Nat.pow_zero, Nat.one_mul, wordSum]
  · have hsq := onesSum_add_sq_mul (by decide : 1 < 256) 0 (littleEndian (chainData p))
    rw [hodd, if_pos (by decide), swapBytesInWord_onesSum, Nat.pow_one, ← Nat.mul_assoc, wordSum]
    rwa [Nat.zero_add, Nat.zero_add] at hsq

/-- **The checksum of a chain** is that of its bytes, however they are divided into buffers and
wherever these lie. -/
theorem inetChksumPbuf_eq (p : List Pbuf) (hp : ∀ q ∈ p, q.len < 2 ^ 16) :
    inetChksumPbuf p = 0xffff - wordSum (chainData p) := by
  have hle := wordSum_le (chainData p)
  rw [inetChksumPbuf, chainChksum_eq p hp, show 0xffff = 2 ^ 16 - 1 from rfl,
    Nat.and_two_pow_sub_one_eq_mod, Nat.mod_eq_of_lt (by omega)]

/-- The pseudo header, as it is put in front of a datagram. -/
def pseudoHeader (src dest : UInt32) (proto : UInt8) (protoLen : ℕ) : List UInt8 :=
  addrBytes src ++ addrBytes dest ++ [0, proto] ++ be16 protoLen

theorem low_word (a : UInt32) :
    a.toUInt8.toNat + 256 * (a >>> 8).toUInt8.toNat = a.toNat &&& 0xffff := by
  rw [show 0xffff = 2 ^ 16 - 1 from rfl, Nat.and_two_pow_sub_one_eq_mod]
  simp [Nat.shiftRight_eq_div_pow]
  omega

theorem high_word (a : UInt32) :
    (a >>> 16).toUInt8.toNat + 256 * (a >>> 24).toUInt8.toNat = a.toNat >>> 16 &&& 0xffff := by
  have ha := a.toNat_lt
  rw [show 0xffff = 2 ^ 16 - 1 from rfl, Nat.and_two_pow_sub_one_eq_mod]
  simp [Nat.shiftRight_eq_div_pow]
  omega

theorem htons_word {n : ℕ} (hn : n < 2 ^ 16) :
    (UInt8.ofNat (n / 256)).toNat + 256 * (UInt8.ofNat n).toNat = htons n := by
  rw [htons_eq, swapBytesInWord_eq hn, swapDigits]
  simp
  omega

/-- A word that was zero is set. -/
theorem wordSum_le16 {xs : List UInt8} (hxs : xs.length % 2 = 0) {n : ℕ} (hn : n < 2 ^ 16)
    (ys : List UInt8) : wordSum (xs ++ le16 n ++ ys) =
      onesSum 65535 (wordSum (xs ++ le16 0 ++ ys) + n) := by
  have hword : (UInt8.ofNat n).toNat + 256 * (UInt8.ofNat (n / 256)).toNat = n := by
    simp
    omega
  have hset := wordSum_set_word hxs (UInt8.ofNat n) (UInt8.ofNat (n / 256)) ys
  rw [hword] at hset
  rw [List.append_assoc, List.append_assoc]
  exact hset

theorem htons_le {n : ℕ} (hn : n < 2 ^ 16) : htons n ≤ 65535 := by
  rw [htons_eq, swapBytesInWord_eq hn, swapDigits]
  omega

/-- **The checksum of a datagram** is that of the pseudo header and the bytes of the chain. -/
theorem inetChksumPseudo_eq (p : List Pbuf) (hp : ∀ q ∈ p, q.len < 2 ^ 16) (src dest : UInt32)
    (proto : UInt8) {protoLen : ℕ} (hlen : protoLen < 2 ^ 16) :
    inetChksumPseudo p src dest proto protoLen =
      0xffff - wordSum (pseudoHeader src dest proto protoLen ++ chainData p) := by
  have hmask (n : ℕ) : n &&& 0xffff = n % 2 ^ 16 := Nat.and_two_pow_sub_one_eq_mod n 16
  have hproto : (0 : UInt8).toNat + 256 * proto.toNat = htons proto.toNat := by
    have hlt := proto.toNat_lt
    rw [htons_eq, swapBytesInWord_eq (by omega), swapDigits]
    simp
    omega
  have hsum : wordSum (pseudoHeader src dest proto protoLen ++ chainData p) =
      onesSum 65535 (chainChksum p + (src.toNat &&& 0xffff) + (src.toNat >>> 16 &&& 0xffff) +
        (dest.toNat &&& 0xffff) + (dest.toNat >>> 16 &&& 0xffff) + htons proto.toNat +
        htons protoLen) := by
    simp only [pseudoHeader, addrBytes, be16, List.cons_append, List.nil_append,
      wordSum_cons_cons, onesSum_add_onesSum (by decide : 0 < 65535), low_word, high_word,
      htons_word hlen, hproto, chainChksum_eq p hp]
    congr 1
    omega
  have hchk := wordSum_le (chainData p)
  have hpr := htons_le (proto.toNat_lt.trans (by decide))
  have hle := htons_le hlen
  have hle' := wordSum_le (pseudoHeader src dest proto protoLen ++ chainData p)
  rw [hsum] at hle' ⊢
  rw [inetChksumPseudo, Nat.mod_eq_of_lt (by simp only [hmask, chainChksum_eq p hp]; omega),
    foldU32t_foldU32t (by simp only [hmask, chainChksum_eq p hp]; omega), hmask,
    Nat.mod_eq_of_lt (by omega)]

/-- **One checksum.** The checksum of a chain is that of its bytes in one buffer at any address, and
that of a datagram is the one with the pseudo header in front. -/
theorem inetChksum_chain (p : List Pbuf) (hp : (chainData p).length < 2 ^ 16) (dataptr : ℕ) :
    inetChksumPbuf p = inetChksum dataptr (chainData p) ∧
      ∀ (src dest : UInt32) (proto : UInt8) (protoLen : ℕ), protoLen < 2 ^ 16 →
        inetChksumPseudo p src dest proto protoLen =
          inetChksum dataptr (pseudoHeader src dest proto protoLen ++ chainData p) := by
  have hlen (q : Pbuf) (hq : q ∈ p) : q.len < 2 ^ 16 := (len_le_of_mem hq).trans_lt hp
  constructor
  · rw [inetChksumPbuf_eq p hlen, inetChksum, lwipStandardChksum_eq _ (by omega)]
  · intro src dest proto protoLen hproto
    have hflat : (pseudoHeader src dest proto protoLen ++ chainData p).length ≤ 0x20000 := by
      rw [List.length_append, show (pseudoHeader src dest proto protoLen).length = 12 from rfl]
      omega
    rw [inetChksumPseudo_eq p hlen src dest proto hproto, inetChksum,
      lwipStandardChksum_eq _ hflat]

theorem inetChksum_chain_two : inetChksumPbuf [⟨1, [], [1, 2, 3], []⟩, ⟨4, [], [4], []⟩] =
    inetChksum 0 [1, 2, 3, 4] :=
  (inetChksum_chain [⟨1, [], [1, 2, 3], []⟩, ⟨4, [], [4], []⟩] (by decide) 0).1

end Lwip

end Enc28j60Udp
