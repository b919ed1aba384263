import Enc28j60Udp.Foundations.Hex
import Enc28j60Udp.Udp.Senddata

/-!
# The readings in the frame

`setdata` writes the readings of the sensor as hexadecimal digits, which `setsendbuf` puts at the
end of the frame. Its four conversions are written out one by one; those of the low nibbles give
the digit, those of the high nibbles forget to shift from ten on.

`readingsSent_iff` says for which readings the frame carries their digits: those below `0xA0`.
-/

namespace Enc28j60Udp

/-- After `setdata` and `setsendbuf` the frame ends in the digits of the two readings, from which
a peer reads them back, and its other bytes are those `setsendbuf` alone gives. -/
def ReadingsSent (s : Sardata) (temp1 humi1 : UInt8) (p : ℕ) (mem : ℕ → UInt8) : Prop :=
  let sent := sentBytes (setdata temp1 humi1 s) p mem
  sent.drop 11 = hexPair temp1 ++ hexPair humi1 ∧ readHex (sent.drop 11) = some [temp1, humi1] ∧
    sent.take 11 = (sentBytes s p mem).take 11

/-- The conversion of a low nibble gives its digit. -/
theorem lowDigit_eq (b : UInt8) : lowDigit b = hexDigit (b.toNat % 16) :=
  forall_byte (p := fun b => lowDigit b = hexDigit (b.toNat % 16)) (by decide +kernel) b

/-- The conversion of a high nibble gives its digit below ten, and never above. -/
theorem highDigit_eq_iff (b : UInt8) : highDigit b = hexDigit (b.toNat / 16) ↔ b < 0xA0 :=
  forall_byte (p := fun b => highDigit b = hexDigit (b.toNat / 16) ↔ b < 0xA0)
    (by decide +kernel) b

/-- The end of the frame is the data, and nothing else in the frame depends on the data. -/
theorem drop_frame_setdata (s : Sardata) (temp1 humi1 : UInt8) :
    (frame (setdata temp1 humi1 s)).drop 11 =
      [highDigit temp1, lowDigit temp1, highDigit humi1, lowDigit humi1] := by
  rw [frame, List.drop_left' (by simp)]
  rfl

theorem take_frame_setdata (s : Sardata) (temp1 humi1 : UInt8) :
    (frame (setdata temp1 humi1 s)).take 11 = (frame s).take 11 := by
  rw [frame, List.take_left' (by simp), frame, List.take_left' (by simp)]
  rfl

/-- **The readings in the frame.** The frame carries the digits of both readings exactly when the
high nibble of neither is above nine. -/
theorem readingsSent_iff (s : Sardata) (temp1 humi1 : UInt8) (p : ℕ) (mem : ℕ → UInt8) :
    ReadingsSent s temp1 humi1 p mem ↔ temp1 < 0xA0 ∧ humi1 < 0xA0 := by
  have hdigits : [highDigit temp1, lowDigit temp1, highDigit humi1, lowDigit humi1] =
      hexPair temp1 ++ hexPair humi1 ↔ temp1 < 0xA0 ∧ humi1 < 0xA0 := by
    simp [hexPair, lowDigit_eq, highDigit_eq_iff]
  have hread : readHex (hexPair temp1 ++ hexPair humi1) = some [temp1, humi1] := by
    simpa using readHex_flatMap_hexPair [temp1, humi1]
  rw [ReadingsSent, sentBytes_eq, sentBytes_eq, drop_frame_setdata, take_frame_setdata, ← hdigits]
  constructor
  · exact fun h => h.1
  · intro h
    exact ⟨h, by rw [h, hread], rfl⟩

/-- A reading of 165 gives the character `0xD7` in the place of `A`. -/
theorem not_readingsSent_humi : ¬ReadingsSent demoState 0x19 0xA5 0 fun _ => 0 := by
  rintro ⟨h, -⟩
  revert h
  decide

end Enc28j60Udp
