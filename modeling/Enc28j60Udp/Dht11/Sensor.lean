import Enc28j60Udp.Foundations.Bytes
import Mathlib.Data.List.Basic

/-!
# Reading the sensor

The DHT11 answers on one line: a pulse to say that it is there, then 40 pulses, one for each bit,
most significant bit first. `dht11.c` samples the line; `line n` is the level its `n`-th read of
`DHT11_DQ_IN1` finds, and every sequence of levels is possible.

`Answers` says which sequences of samples are the answer of a sensor with given bytes;
`response_of_answers` is the round trip. `readsSensor_iff` says for which samples
`DHT11_Read_Data1` does what its status code promises: its sum of four bytes is an `int`, and a
checksum that fails returns `0` like one that holds.
-/

namespace Enc28j60Udp

namespace Dht11

/-! ## The model -/

section Model

variable (line : ℕ → Bool)

/-- `while(DHT11_DQ_IN1==level&&retry<100)`, with `left` for `100-retry`: what is left of it and
the number of reads after the loop. The pin is read before the counter is tested. -/
def waitWhile (level : Bool) : ℕ → ℕ → ℕ × ℕ
  | 0, n => (0, n + 1)
  | left + 1, n => if line n = level then waitWhile level left (n + 1) else (left + 1, n + 1)

/-- `DHT11_Check1`: `1` when the sensor is not detected. -/
def dht11Check1 (n : ℕ) : UInt8 × ℕ :=
  let (left, n) := waitWhile line true 100 n
  if left = 0 then (1, n)
  else
    let (left, n) := waitWhile line false 100 n
    if left = 0 then (1, n) else (0, n)

/-- `DHT11_Read_Bit1`. -/
def dht11ReadBit1 (n : ℕ) : UInt8 × ℕ :=
  let (_, n) := waitWhile line true 100 n
  let (_, n) := waitWhile line false 100 n
  (if line n then 1 else 0, n + 1)

/-- The loop of `DHT11_Read_Byte1`, with `k` rounds left. -/
def readBits : ℕ → UInt8 → ℕ → UInt8 × ℕ
  | 0, dat, n => (dat, n)
  | k + 1, dat, n =>
    let (bit, n) := dht11ReadBit1 line n
    readBits k (dat <<< 1 ||| bit) n

/-- `DHT11_Read_Byte1`. -/
def dht11ReadByte1 (n : ℕ) : UInt8 × ℕ := readBits line 8 0 n

/-- The loop of `DHT11_Read_Data1`: the first `k` bytes of `buf1`. -/
def readBuf : (k : ℕ) → ℕ → Vector UInt8 k × ℕ
  | 0, n => (#v[], n)
  | k + 1, n =>
    let buf := readBuf k n
    let b := dht11ReadByte1 line buf.2
    (buf.1.push b.1, b.2)

/-- What a call of `DHT11_Read_Data1` returns, and what it stores to `*temp1` and `*humi1`. -/
structure DataRead where
  code : UInt8
  stored : Option (UInt8 × UInt8)
  deriving DecidableEq

/-- The sum of the first four bytes, an `int`. -/
def checkSum (buf : Vector UInt8 5) : ℕ :=
  buf[0].toNat + buf[1].toNat + buf[2].toNat + buf[3].toNat

/-- `DHT11_Read_Data1`. -/
def dht11ReadData1 (n : ℕ) : DataRead :=
  let (check, n) := dht11Check1 line n
  if check = 0 then
    let (buf, _) := readBuf line 5 n
    if checkSum buf = buf[4].toNat then ⟨0, some (buf[2], buf[0])⟩ else ⟨0, none⟩
  else ⟨1, none⟩

/-- The five bytes the driver assembles, when it detects a sensor. -/
def response (n : ℕ) : Option (Vector UInt8 5) :=
  let (check, n) := dht11Check1 line n
  if check = 0 then some (readBuf line 5 n).1 else none

end Model

/-- The checksum of the sensor: the low eight bits of the sum. -/
def ChecksumOk (buf : Vector UInt8 5) : Prop := buf[4] = buf[0] + buf[1] + buf[2] + buf[3]

instance (buf : Vector UInt8 5) : Decidable (ChecksumOk buf) :=
  inferInstanceAs (Decidable (_ = _))

/-- The call returns `0` and stores the readings when the checksum holds, and returns `1` and
stores nothing in every other case. -/
def ReadsSensor (line : ℕ → Bool) (n : ℕ) : Prop :=
  (∀ buf, response line n = some buf → ChecksumOk buf →
    dht11ReadData1 line n = ⟨0, some (buf[2], buf[0])⟩) ∧
  ((∀ buf, response line n = some buf → ¬ChecksumOk buf) → dht11ReadData1 line n = ⟨1, none⟩)

/-! ## The answer of a sensor -/

/-- The bits of a byte, most significant bit first. -/
def msbBits (b : UInt8) : List Bool :=
  [b.toBitVec.getMsbD 0, b.toBitVec.getMsbD 1, b.toBitVec.getMsbD 2, b.toBitVec.getMsbD 3,
    b.toBitVec.getMsbD 4, b.toBitVec.getMsbD 5, b.toBitVec.getMsbD 6, b.toBitVec.getMsbD 7]

/-- From the `n`-th sample on, the line stays high for `h` samples and low for `l + 1`, and has
risen again at the sample behind them. -/
structure Pulse (line : ℕ → Bool) (n h l : ℕ) : Prop where
  high : ∀ i < h, line (n + i) = true
  fall : line (n + h) = false
  low : ∀ i < l, line (n + h + 1 + i) = false
  rise : line (n + h + 1 + l) = true

/-- The samples from the `n`-th on are pulses for the bits, up to the `m`-th: the sample behind a
pulse, 40 µs later, is the bit. -/
inductive Bits (line : ℕ → Bool) : ℕ → List Bool → ℕ → Prop
  | nil (n : ℕ) : Bits line n [] n
  | cons {n h l m : ℕ} {bit : Bool} {bits : List Bool} (pulse : Pulse line n h l)
      (hh : h ≤ 100) (hl : l ≤ 100) (level : line (n + h + l + 2) = bit)
      (rest : Bits line (n + h + l + 3) bits m) : Bits line n (bit :: bits) m

/-- The samples are the answer of a sensor with the bytes `buf`. -/
def Answers (line : ℕ → Bool) (n : ℕ) (buf : Vector UInt8 5) : Prop :=
  ∃ h l m, Pulse line n h l ∧ h < 100 ∧ l < 100 ∧
    Bits line (n + h + l + 2) (buf.toList.flatMap msbBits) m

section Samples

variable {line : ℕ → Bool}

theorem waitWhile_eq {level : Bool} {left n k : ℕ} (hk : k ≤ left)
    (hsame : ∀ i < k, line (n + i) = level) (hend : line (n + k) ≠ level) :
    waitWhile line level left n = (left - k, n + k + 1) := by
  induction k generalizing left n with
  | zero =>
    cases left with
    | zero => rfl
    | succ left =>
      have h₀ : ¬line n = level := hend
      rw [waitWhile, if_neg h₀]
      rfl
  | succ k ih =>
    obtain ⟨left, rfl⟩ : ∃ left', left = left' + 1 := ⟨left - 1, by omega⟩
    have h₀ : line n = level := hsame 0 (Nat.succ_pos k)
    have hrest : ∀ i < k, line (n + 1 + i) = level := by
      intro i hi
      rw [Nat.add_right_comm]
      exact hsame (i + 1) (by omega)
    rw [waitWhile, if_pos h₀, ih (by omega) hrest (by rwa [Nat.add_right_comm]),
      Nat.add_sub_add_right, Nat.add_right_comm n]
    rfl

theorem Pulse.wait {n h l : ℕ} (hp : Pulse line n h l) (hh : h ≤ 100) (hl : l ≤ 100) :
    waitWhile line true 100 n = (100 - h, n + h + 1) ∧
      waitWhile line false 100 (n + h + 1) = (100 - l, n + h + l + 2) := by
  constructor
  · exact waitWhile_eq hh hp.high (by simp [hp.fall])
  · rw [waitWhile_eq hl hp.low (by simp [hp.rise])]
    congr 1
    omega

/-- A pulse is read as its bit. -/
theorem Pulse.readBit {n h l : ℕ} (hp : Pulse line n h l) (hh : h ≤ 100) (hl : l ≤ 100) :
    dht11ReadBit1 line n = (if line (n + h + l + 2) then 1 else 0, n + h + l + 3) := by
  obtain ⟨hhigh, hlow⟩ := hp.wait hh hl
  simp only [dht11ReadBit1, hhigh, hlow]

theorem Pulse.check {n h l : ℕ} (hp : Pulse line n h l) (hh : h < 100) (hl : l < 100) :
    dht11Check1 line n = (0, n + h + l + 2) := by
  obtain ⟨hhigh, hlow⟩ := hp.wait hh.le hl.le
  simp only [dht11Check1, hhigh, hlow]
  rw [if_neg (by omega), if_neg (by omega)]

/-- One bit shifted in. -/
def shiftIn (dat : UInt8) (bit : Bool) : UInt8 := dat <<< 1 ||| if bit then 1 else 0

/-- The loop shifts in the bits of the pulses. -/
theorem Bits.readBits {n m : ℕ} {bits : List Bool} (hb : Bits line n bits m) (dat : UInt8) :
    readBits line bits.length dat n = (bits.foldl shiftIn dat, m) := by
  induction hb generalizing dat with
  | nil n => rfl
  | @cons n h l m bit bits pulse hh hl level rest ih =>
    simp only [List.length_cons, Dht11.readBits, pulse.readBit hh hl, level]
    exact ih (shiftIn dat bit)

theorem foldl_msbBits (b : UInt8) : (msbBits b).foldl shiftIn 0 = b :=
  forall_byte (p := fun b => (msbBits b).foldl shiftIn 0 = b) (by decide +kernel) b

/-- Eight pulses are read as the byte of their bits. -/
theorem Bits.readByte {n m : ℕ} {b : UInt8} (hb : Bits line n (msbBits b) m) :
    dht11ReadByte1 line n = (b, m) := by
  have hlen : (msbBits b).length = 8 := rfl
  have h := hb.readBits 0
  rw [hlen, foldl_msbBits] at h
  exact h

theorem Bits.of_append {n m : ℕ} {bits bits' : List Bool} (hb : Bits line n (bits ++ bits') m) :
    ∃ k, Bits line n bits k ∧ Bits line k bits' m := by
  induction bits generalizing n with
  | nil => exact ⟨n, Bits.nil n, hb⟩
  | cons bit bits ih =>
    cases hb with
    | cons pulse hh hl level rest =>
      obtain ⟨k, hk, hrest⟩ := ih rest
      exact ⟨k, Bits.cons pulse hh hl level hk, hrest⟩

/-- The loop over the bytes reads what the pulses carry. -/
theorem Bits.readBuf {n m k : ℕ} {buf : Vector UInt8 k}
    (hb : Bits line n (buf.toList.flatMap msbBits) m) : readBuf line k n = (buf, m) := by
  induction k generalizing m with
  | zero =>
    obtain rfl : buf = #v[] := Vector.eq_empty
    cases hb
    rfl
  | succ k ih =>
    obtain ⟨front, b, rfl⟩ : ∃ (front : Vector UInt8 k) (b : UInt8), buf = front.push b :=
      ⟨buf.pop, buf.back, (Vector.push_pop_back buf).symm⟩
    rw [Vector.toList_push, List.flatMap_append] at hb
    obtain ⟨i, hfront, hlast⟩ := hb.of_append
    rw [List.flatMap_singleton] at hlast
    simp only [Dht11.readBuf, ih hfront, hlast.readByte]

/-- The driver assembles the bytes of the sensor. -/
theorem response_of_answers {n : ℕ} {buf : Vector UInt8 5} (h : Answers line n buf) :
    response line n = some buf := by
  obtain ⟨h, l, m, hp, hh, hl, hbits⟩ := h
  simp only [response, hp.check hh hl, hbits.readBuf, if_pos]

end Samples

/-- The samples of a list, low behind its end. -/
def ofSamples (l : List Bool) (n : ℕ) : Bool := l.getD n false

theorem ofSamples_append (l l' : List Bool) (i : ℕ) :
    ofSamples (l ++ l') (l.length + i) = ofSamples l' i := by
  rw [ofSamples, List.getD_eq_getElem?_getD, List.getElem?_append_right (Nat.le_add_right _ _),
    Nat.add_sub_cancel_left]
  rfl

/-- The shortest pulse that is read as the bit. -/
def samplesOf (bit : Bool) : List Bool := [false, true, bit]

theorem bits_ofSamples (pre bits : List Bool) :
    ∃ m, Bits (ofSamples (pre ++ bits.flatMap samplesOf)) pre.length bits m := by
  induction bits generalizing pre with
  | nil => exact ⟨_, Bits.nil _⟩
  | cons bit bits ih =>
    obtain ⟨m, hm⟩ := ih (pre ++ samplesOf bit)
    have hat : ∀ i, ofSamples (pre ++ (bit :: bits).flatMap samplesOf) (pre.length + i) =
        ofSamples (samplesOf bit ++ bits.flatMap samplesOf) i := fun i => ofSamples_append _ _ i
    refine ⟨m, Bits.cons (h := 0) (l := 0) ?_ (Nat.zero_le _) (Nat.zero_le _) (hat 2) ?_⟩
    · exact ⟨by simp, hat 0, by simp, hat 1⟩
    · rw [List.append_assoc] at hm
      simpa [samplesOf] using hm

/-- Every response of 40 bits is the answer of some sensor. -/
theorem exists_answers (buf : Vector UInt8 5) : ∃ line, Answers line 0 buf := by
  obtain ⟨m, hm⟩ := bits_ofSamples [false, true] (buf.toList.flatMap msbBits)
  exact ⟨_, 0, 0, m, ⟨by simp, rfl, by simp, rfl⟩, by omega, by omega, hm⟩

/-! ## The status code -/

theorem dht11ReadData1_eq (line : ℕ → Bool) (n : ℕ) :
    dht11ReadData1 line n = match response line n with
      | some buf =>
        if checkSum buf = buf[4].toNat then ⟨0, some (buf[2], buf[0])⟩ else ⟨0, none⟩
      | none => ⟨1, none⟩ := by
  unfold dht11ReadData1 response
  generalize dht11Check1 line n = c
  obtain ⟨check, n'⟩ := c
  generalize hread : readBuf line 5 n' = r
  obtain ⟨buf, m⟩ := r
  dsimp only
  by_cases hc : check = 0
  · simp only [if_pos hc, hread]
  · simp only [if_neg hc]

theorem checksumOk_of_checkSum {buf : Vector UInt8 5} (h : checkSum buf = buf[4].toNat) :
    ChecksumOk buf := by
  rw [ChecksumOk, ← UInt8.toNat_inj]
  simp only [UInt8.toNat_add, Nat.mod_add_mod]
  rw [← checkSum, h, Nat.mod_eq_of_lt (UInt8.toNat_lt _)]

/-- **The sensor's checksum.** The call keeps the promise of its status code exactly when no sensor
is detected or the sum of the four bytes is the fifth without being reduced. -/
theorem readsSensor_iff (line : ℕ → Bool) (n : ℕ) :
    ReadsSensor line n ↔ ∀ buf, response line n = some buf → checkSum buf = buf[4].toNat := by
  rw [ReadsSensor, dht11ReadData1_eq]
  cases hr : response line n with
  | none => simp
  | some buf =>
    simp only [Option.some.injEq, forall_eq']
    by_cases hsum : checkSum buf = buf[4].toNat
    · have hok := checksumOk_of_checkSum hsum
      simp [hsum, hok]
    · -- the code is `0` and nothing is stored, which is wrong whether the checksum holds or not
      by_cases hok : ChecksumOk buf <;> simp [hsum, hok]

/-- A sensor that answers 80 % and 250 °C: the sum 330 does not fit into the fifth byte 74, which
is the right checksum. -/
theorem not_readsSensor_hot : ∃ line, Answers line 0 #v[80, 0, 250, 0, 74] ∧
    ¬ReadsSensor line 0 := by
  obtain ⟨line, h⟩ := exists_answers #v[80, 0, 250, 0, 74]
  refine ⟨line, h, fun hok => ?_⟩
  have hread := hok.1 _ (response_of_answers h) (by decide)
  rw [dht11ReadData1_eq, response_of_answers h] at hread
  revert hread
  decide

end Dht11

end Enc28j60Udp
