import Enc28j60Udp.Foundations.Bytes
import Enc28j60Udp.Usmart.Model
import Mathlib.Tactic.Common

/-!
# `usmart_get_aparm` as an automaton

The loop of `usmart_get_aparm` is in one of three modes: it reads a number or looks for the next
argument (`inNumber`), it reads a string (`inString`), or it is behind a string (`behind`). A lemma
for each mode and each kind of character says what a round does.
-/

namespace Enc28j60Udp

namespace Usmart

namespace AparmState

/-- Reading a number, or, with `enout` set, looking for the next argument. -/
def inNumber (i : UInt8) (enout : Bool) (fparm : List UInt8) : AparmState :=
  ⟨i, enout, .number, false, fparm⟩

/-- Reading a string. -/
def inString (i : UInt8) (fparm : List UInt8) : AparmState := ⟨i, false, .string, true, fparm⟩

/-- Behind a string; with `enout` set, at the comma. -/
def behind (i : UInt8) (enout : Bool) (fparm : List UInt8) : AparmState :=
  ⟨i, enout, .string, false, fparm⟩

/-- At a character that must not be there. -/
def failed (i : UInt8) (enout : Bool) (fparm : List UInt8) : AparmState :=
  ⟨i, enout, .error, false, fparm⟩

end AparmState

open AparmState

/-- What ends the arguments. -/
def IsEnd (c : UInt8) : Prop := c = rparen ∨ c = 0

instance (c : UInt8) : Decidable (IsEnd c) := inferInstanceAs (Decidable (_ ∨ _))

theorem isNumChar_ne {c : UInt8} (hc : isNumChar c = true) :
    c ≠ comma ∧ ¬IsEnd c ∧ c ≠ quote ∧ c ≠ space ∧ c ≠ lparen := by
  have hout {d : UInt8} (hd : isNumChar d = false) : c ≠ d := by
    rintro rfl
    exact Bool.false_ne_true (hd.symm.trans hc)
  exact ⟨hout rfl, not_or.mpr ⟨hout rfl, hout rfl⟩, hout rfl, hout rfl, hout rfl⟩

theorem IsEnd.ne_comma {c : UInt8} (hc : IsEnd c) : c ≠ comma := by
  rcases hc with rfl | rfl <;> decide

section Rounds

attribute [local simp] aparmLoop

variable {c : UInt8} {str : Str} {i : UInt8} {enout : Bool} {fparm : List UInt8}

/-! ## In a number -/

theorem aparmLoop_number_char (hc : isNumChar c = true) :
    aparmLoop (c :: str) (inNumber i false fparm) =
      aparmLoop str (inNumber (i + 1) false (fparm ++ [toUpper c])) := by
  obtain ⟨hcomma, hend, -, -, -⟩ := isNumChar_ne hc
  obtain ⟨hrparen, hzero⟩ := not_or.mp hend
  simp [inNumber, hrparen, hzero, hc, beq_eq_false_iff_ne.mpr hcomma]

/-- The start of the next argument. -/
theorem aparmLoop_number_next (hc : isNumChar c = true ∨ c = quote) :
    aparmLoop (c :: str) (inNumber i true fparm) = some (inNumber i true fparm) := by
  have hend : ¬(c = rparen ∨ c = 0) := by
    rcases hc with hc | rfl
    · exact (isNumChar_ne hc).2.1
    · decide
  rcases hc with hc | rfl
  · simp [inNumber, hend, hc]
  · simp [inNumber]

theorem aparmLoop_number_quote :
    aparmLoop (quote :: str) (inNumber i false fparm) = aparmLoop str (inString (i + 1) fparm) := by
  rw [aparmLoop]
  rfl

theorem aparmLoop_number_space :
    aparmLoop (space :: str) (inNumber i enout fparm) =
      aparmLoop str (inNumber (i + 1) enout fparm) := by
  rw [aparmLoop]
  cases enout <;> rfl

theorem aparmLoop_number_comma :
    aparmLoop (comma :: str) (inNumber i enout fparm) =
      aparmLoop str (inNumber (i + 1) true fparm) := by
  rw [aparmLoop]
  cases enout <;> rfl

theorem aparmLoop_number_end (hc : IsEnd c) :
    aparmLoop (c :: str) (inNumber i enout fparm) = some (inNumber i enout fparm) := by
  have hcomma : c ≠ comma := hc.ne_comma
  have hend : (c = rparen ∨ c = 0) ∧ false = false := ⟨hc, rfl⟩
  simp [inNumber, hend, hcomma]

theorem aparmLoop_number_fail (hc : isNumChar c = false) (hend : ¬IsEnd c) (hquote : c ≠ quote)
    (hspace : c ≠ space) (hcomma : c ≠ comma) :
    aparmLoop (c :: str) (inNumber i enout fparm) = some (failed i enout fparm) := by
  obtain ⟨hrparen, hzero⟩ := not_or.mp hend
  simp [inNumber, failed, hrparen, hzero, hc, hquote, hspace, hcomma]

/-! ## In a string -/

theorem aparmLoop_string_quote :
    aparmLoop (quote :: str) (inString i fparm) = aparmLoop str (behind (i + 1) false fparm) := by
  rw [aparmLoop]
  rfl

theorem aparmLoop_string_escape {d : UInt8} :
    aparmLoop (backslash :: d :: str) (inString i fparm) =
      aparmLoop str (inString (i + 1 + 1) (fparm ++ [d])) := by
  rw [aparmLoop]
  rfl

theorem aparmLoop_string_char (hquote : c ≠ quote) (hback : c ≠ backslash) :
    aparmLoop (c :: str) (inString i fparm) = aparmLoop str (inString (i + 1) (fparm ++ [c])) := by
  simp [inString, hquote, hback]

/-! ## Behind a string -/

theorem aparmLoop_behind_comma :
    aparmLoop (comma :: str) (behind i false fparm) = some (behind i true fparm) := by
  rw [aparmLoop]
  rfl

theorem aparmLoop_behind_end (hc : IsEnd c) :
    aparmLoop (c :: str) (behind i false fparm) = some (behind i false fparm) := by
  have hcomma : c ≠ comma := hc.ne_comma
  have hend : (c = rparen ∨ c = 0) ∧ false = false := ⟨hc, rfl⟩
  simp [behind, hend, hcomma]

theorem aparmLoop_behind_char (hend : ¬IsEnd c) (hcomma : c ≠ comma) :
    aparmLoop (c :: str) (behind i false fparm) = aparmLoop str (behind (i + 1) false fparm) := by
  obtain ⟨hrparen, hzero⟩ := not_or.mp hend
  simp [behind, hrparen, hzero, beq_eq_false_iff_ne.mpr hcomma]

end Rounds

end Usmart

end Enc28j60Udp
