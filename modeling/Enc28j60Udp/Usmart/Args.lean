import Enc28j60Udp.Usmart.Aparm
import Enc28j60Udp.Usmart.Number
import Mathlib.Data.List.TakeWhile

/-!
# Arguments

An argument is a number or a string, and has a text. `usmart_get_aparm` reads a number up to the
start of the next argument, and a string up to the comma behind it, so that the next call finds an
empty number before it comes to the next argument. `usmart_get_fparam` skips it.

`usmartGetFparam_callText` is the round trip: from the text of a call, the decoder gets the
arguments, each with its kind, at the position that `usmart_get_parmpos` gives.
-/

namespace Enc28j60Udp

namespace Usmart

open AparmState

/-! ## Texts -/

/-- How a number is written: in decimal, or behind `0X` or `0x`. -/
inductive Radix
  | dec
  | hexUpper
  | hexLower

namespace Radix

def base : Radix → ℕ
  | .dec => 10
  | _ => 16

/-- What stands before the digits. -/
def mark : Radix → List UInt8
  | .dec => []
  | .hexUpper => [0x30, 0x58]
  | .hexLower => [0x30, 0x78]

/-- The digits, of either case. -/
def isDigit (r : Radix) (c : UInt8) : Bool :=
  match r with
  | .dec => isDecChar c
  | _ => isDecChar c || isUpperChar c || isLowerChar c

end Radix

/-- A `u32` as it is written. -/
structure Numeral where
  radix : Radix
  digits : List UInt8
  ne_nil : digits ≠ []
  isDigit : ∀ c ∈ digits, radix.isDigit c = true
  value_lt : digitsVal radix.base digits < 2 ^ 32

namespace Numeral

def text (n : Numeral) : List UInt8 := n.radix.mark ++ n.digits

def value (n : Numeral) : UInt32 := UInt32.ofNat (digitsVal n.radix.base n.digits)

end Numeral

/-- A character of a string as it is written. -/
def escape (c : UInt8) : List UInt8 := if c = quote ∨ c = backslash then [backslash, c] else [c]

/-- An argument: a number, or a string without zero bytes. -/
inductive Arg
  | number (n : Numeral)
  | string (s : List UInt8) (ne_zero : 0 ∉ s)

namespace Arg

def text : Arg → List UInt8
  | number n => n.text
  | string s _ => quote :: s.flatMap escape ++ [quote]

/-- The bytes that are stored. -/
def stored : Arg → List UInt8
  | number n => le32 n.value
  | string s _ => s ++ [0]

def isString : Arg → Bool
  | number _ => false
  | string _ _ => true

/-- What `usmart_get_aparm` makes of the text. -/
def tstr : Arg → List UInt8
  | number n => n.text.map toUpper
  | string s _ => s

def ptype : Arg → Ptype
  | number _ => .number
  | string _ _ => .string

/-- The argument is stored as number `n`. -/
def put (a : Arg) (d : UsmartDev) (n : UInt8) : UsmartDev :=
  match a with
  | number m => d.storeNumber n m.value
  | string s _ => d.storeString n s

end Arg

/-- The arguments, with commas between them. -/
def argsText : List Arg → List UInt8
  | [] => []
  | [a] => a.text
  | a :: b :: as => a.text ++ comma :: argsText (b :: as)

/-- The text of a call. -/
def callText (name : List UInt8) (args : List Arg) : List UInt8 :=
  name ++ lparen :: argsText args ++ [rparen]

/-! ## `usmart_get_aparm` -/

section Aparm

variable {str : Str} {i : UInt8} {fparm : List UInt8}

theorem add_one_add_ofNat (i : UInt8) (k : ℕ) :
    i + 1 + UInt8.ofNat k = i + UInt8.ofNat (k + 1) := by
  rw [UInt8.ofNat_add, UInt8.add_comm (UInt8.ofNat k), ← UInt8.add_assoc]
  rfl

/-- The characters of a number are copied. -/
theorem aparmLoop_number {ds : List UInt8} (hds : ∀ c ∈ ds, isNumChar c = true) :
    aparmLoop (ds ++ str) (inNumber i false fparm) =
      aparmLoop str (inNumber (i + UInt8.ofNat ds.length) false (fparm ++ ds.map toUpper)) := by
  induction ds generalizing i fparm with
  | nil => simp
  | cons c ds ih =>
    obtain ⟨hc, hds⟩ := List.forall_mem_cons.mp hds
    rw [List.cons_append, aparmLoop_number_char hc, ih hds, add_one_add_ofNat]
    simp

/-- The characters of a string are copied, without the backslashes that escape them. -/
theorem aparmLoop_string (l : List UInt8) :
    aparmLoop (l.flatMap escape ++ str) (inString i fparm) =
      aparmLoop str (inString (i + UInt8.ofNat (l.flatMap escape).length) (fparm ++ l)) := by
  induction l generalizing i fparm with
  | nil => simp
  | cons c l ih =>
    rw [List.flatMap_cons, List.append_assoc]
    by_cases hc : c = quote ∨ c = backslash
    · have hesc : escape c = [backslash, c] := if_pos hc
      rw [hesc, List.cons_append, List.cons_append, List.nil_append, aparmLoop_string_escape, ih,
        add_one_add_ofNat, add_one_add_ofNat]
      simp [Nat.add_comm]
    · have hesc : escape c = [c] := if_neg hc
      obtain ⟨hquote, hback⟩ := not_or.mp hc
      rw [hesc, List.cons_append, List.nil_append, aparmLoop_string_char hquote hback, ih,
        add_one_add_ofNat]
      simp [Nat.add_comm]

/-- The next argument starts here. -/
def Starts (str : Str) : Prop := ∃ c str', str = c :: str' ∧ (isNumChar c = true ∨ c = quote)

theorem aparmLoop_starts (h : Starts str) :
    aparmLoop str (inNumber i true fparm) = some (inNumber i true fparm) := by
  obtain ⟨c, str, rfl, hc⟩ := h
  exact aparmLoop_number_next hc

theorem isNumChar_of_isDigit {r : Radix} {c : UInt8} (hc : r.isDigit c = true) :
    isNumChar c = true := by
  cases r with
  | dec => simp [isNumChar, show isDecChar c = true from hc]
  | hexUpper =>
    simp only [Radix.isDigit, Bool.or_eq_true] at hc
    rcases hc with (hc | hc) | hc <;> simp [isNumChar, hc]
  | hexLower =>
    simp only [Radix.isDigit, Bool.or_eq_true] at hc
    rcases hc with (hc | hc) | hc <;> simp [isNumChar, hc]

theorem Numeral.isNumChar_text (n : Numeral) : ∀ c ∈ n.text, isNumChar c = true := by
  have hmark : ∀ c ∈ n.radix.mark, isNumChar c = true := by
    cases n.radix <;> simp [Radix.mark] <;> decide
  intro c hc
  rcases List.mem_append.mp hc with hc | hc
  · exact hmark c hc
  · exact isNumChar_of_isDigit (n.isDigit c hc)

theorem Numeral.text_ne_nil (n : Numeral) : n.text ≠ [] := by
  simp [Numeral.text, n.ne_nil]

theorem Arg.starts_text (a : Arg) (str : Str) : Starts (a.text ++ str) := by
  cases a with
  | number n =>
    obtain ⟨c, l, hl⟩ := List.exists_cons_of_ne_nil n.text_ne_nil
    have hc := n.isNumChar_text c (by simp [hl])
    exact ⟨c, l ++ str, by rw [Arg.text, hl, List.cons_append], Or.inl hc⟩
  | string s _ => exact ⟨quote, s.flatMap escape ++ [quote] ++ str, rfl, Or.inr rfl⟩

variable {size : ℕ}

/-- A last number is read up to the end. -/
theorem usmartGetAparm_number_end {n : Numeral} (hsize : n.text.length < size) {c : UInt8}
    (hc : IsEnd c) :
    usmartGetAparm (n.text ++ c :: str) size =
      some (n.text.map toUpper, .number, UInt8.ofNat n.text.length) := by
  have hloop : aparmLoop (n.text ++ c :: str) AparmState.start =
      some (inNumber (UInt8.ofNat n.text.length) false (n.text.map toUpper)) := by
    change aparmLoop _ (inNumber 0 false []) = _
    rw [aparmLoop_number n.isNumChar_text, aparmLoop_number_end hc]
    simp
  rw [usmartGetAparm, hloop]
  simp [inNumber, hsize]

/-- A number is read up to the start of the next argument. -/
theorem usmartGetAparm_number_comma {n : Numeral} (hsize : n.text.length < size)
    (hstr : Starts str) :
    usmartGetAparm (n.text ++ comma :: str) size =
      some (n.text.map toUpper, .number, UInt8.ofNat (n.text.length + 1)) := by
  have hloop : aparmLoop (n.text ++ comma :: str) AparmState.start =
      some (inNumber (UInt8.ofNat (n.text.length + 1)) true (n.text.map toUpper)) := by
    change aparmLoop _ (inNumber 0 false []) = _
    rw [aparmLoop_number n.isNumChar_text, aparmLoop_number_comma, aparmLoop_starts hstr]
    simp [UInt8.ofNat_add]
  rw [usmartGetAparm, hloop]
  simp [inNumber, hsize]

/-- A string is read up to its end. -/
theorem usmartGetAparm_string {s : List UInt8} (hsize : s.length < size) {c : UInt8}
    (hc : c = rparen ∨ c = comma) :
    usmartGetAparm (quote :: s.flatMap escape ++ [quote] ++ c :: str) size =
      some (s, .string, UInt8.ofNat (s.flatMap escape).length + 2) := by
  have hread : ∃ enout, aparmLoop (quote :: s.flatMap escape ++ [quote] ++ c :: str)
      AparmState.start = some (behind (UInt8.ofNat (s.flatMap escape).length + 2) enout s) := by
    have hi : (0 : UInt8) + 1 + UInt8.ofNat (s.flatMap escape).length + 1 =
        UInt8.ofNat (s.flatMap escape).length + 2 := by
      rw [UInt8.zero_add, UInt8.add_comm 1, UInt8.add_assoc]
      rfl
    change ∃ enout, aparmLoop _ (inNumber 0 false []) = _
    rw [List.cons_append, List.cons_append, List.append_assoc, aparmLoop_number_quote,
      aparmLoop_string, List.nil_append, List.cons_append, List.nil_append,
      aparmLoop_string_quote, hi]
    rcases hc with rfl | rfl
    · exact ⟨false, aparmLoop_behind_end (Or.inl rfl)⟩
    · exact ⟨true, aparmLoop_behind_comma⟩
  obtain ⟨enout, hloop⟩ := hread
  rw [usmartGetAparm, hloop]
  simp [behind, hsize]

/-- From the comma behind a string, an empty number is read up to the start of the next
argument. -/
theorem usmartGetAparm_comma (hsize : 0 < size) (hstr : Starts str) :
    usmartGetAparm (comma :: str) size = some ([], .number, 1) := by
  have hloop : aparmLoop (comma :: str) AparmState.start = some (inNumber 1 true []) := by
    change aparmLoop _ (inNumber 0 false []) = _
    rw [aparmLoop_number_comma, aparmLoop_starts hstr]
    rfl
  rw [usmartGetAparm, hloop]
  simp [inNumber, hsize]

end Aparm

/-! ## `usmart_get_fparam` -/

theorem digitVal_toUpper {c : UInt8} (hc : isNumChar c = true) :
    digitVal (toUpper c) = digitVal c := by
  have h : ∀ v : BitVec 8, isNumChar (UInt8.ofBitVec v) = true →
      digitVal (toUpper (UInt8.ofBitVec v)) = digitVal (UInt8.ofBitVec v) := by
    decide
  exact h c.toBitVec hc

theorem digitsVal_map_toUpper (base : ℕ) {ds : List UInt8}
    (hds : ∀ c ∈ ds, isNumChar c = true) :
    digitsVal base (ds.map toUpper) = digitsVal base ds := by
  induction ds with
  | nil => rfl
  | cons c ds ih =>
    obtain ⟨hc, hds⟩ := List.forall_mem_cons.mp hds
    simp [digitsVal, digitVal_toUpper hc, ih hds]

theorem toUpper_of_isDecChar {c : UInt8} (hc : isDecChar c = true) : toUpper c = c := by
  have h : ∀ v : BitVec 8, isDecChar (UInt8.ofBitVec v) = true →
      toUpper (UInt8.ofBitVec v) = UInt8.ofBitVec v := by
    decide
  exact h c.toBitVec hc

theorem isDigit_toUpper {c : UInt8}
    (hc : (isDecChar c || isUpperChar c || isLowerChar c) = true) : IsDigit (toUpper c) := by
  have h : ∀ v : BitVec 8, (isDecChar (UInt8.ofBitVec v) || isUpperChar (UInt8.ofBitVec v) ||
      isLowerChar (UInt8.ofBitVec v)) = true → IsDigit (toUpper (UInt8.ofBitVec v)) := by
    decide
  exact h c.toBitVec hc

theorem toUpper_ne_zero {c : UInt8} (hc : isNumChar c = true) : toUpper c ≠ 0 := by
  have h : ∀ v : BitVec 8, isNumChar (UInt8.ofBitVec v) = true →
      toUpper (UInt8.ofBitVec v) ≠ 0 := by
    decide
  exact h c.toBitVec hc

/-- The text of a number, as `usmart_get_aparm` leaves it, has its value. -/
theorem Numeral.usmartStr2num_text {n : Numeral} (hlen : n.text.length ≤ parmLen) :
    usmartStr2num (n.text.map toUpper ++ [0]) = some (0, n.value) := by
  have hnum : ∀ c ∈ n.digits, isNumChar c = true :=
    fun c hc => isNumChar_of_isDigit (n.isDigit c hc)
  have hval : ∀ base, digitsVal base (n.digits.map toUpper) = digitsVal base n.digits :=
    fun base => digitsVal_map_toUpper base hnum
  have hne : n.digits.map toUpper ≠ [] := by simp [n.ne_nil]
  have hdigits : (n.digits.map toUpper).length ≤ parmLen := by
    rw [Numeral.text, List.length_append] at hlen
    rw [List.length_map]
    omega
  unfold parmLen at hdigits
  obtain ⟨radix, digits, _, hdig, _⟩ := n
  simp only at hdigits hval hne
  have hhex : (∀ c ∈ digits, (isDecChar c || isUpperChar c || isLowerChar c) = true) →
      usmartStr2num (0x30 :: 0x58 :: digits.map toUpper ++ [0]) =
        some (0, UInt32.ofNat (digitsVal 16 digits)) := by
    intro hall
    have hup : ∀ c ∈ digits.map toUpper, IsDigit c := by
      rw [List.forall_mem_map]
      exact fun c hc => isDigit_toUpper (hall c hc)
    rw [usmartStr2num_hex hne hup (by omega) [], hval]
  cases radix with
  | dec =>
    have hsame : digits.map toUpper = digits :=
      (List.map_congr_left fun c hc => toUpper_of_isDecChar (hdig c hc)).trans (List.map_id digits)
    rw [hsame] at hdigits hne
    change usmartStr2num (digits.map toUpper ++ [0]) = _
    rw [hsame]
    exact usmartStr2num_dec hne hdig (by omega) []
  | hexUpper => exact hhex hdig
  | hexLower => exact hhex hdig

/-- The first parenthesis is found. -/
theorem skipToParen_name {name : List UInt8} (hparen : lparen ∉ name) (hzero : 0 ∉ name)
    (str : Str) : skipToParen (name ++ lparen :: str) = some (some str) := by
  induction name with
  | nil => rfl
  | cons c name ih =>
    rw [List.mem_cons, not_or] at hparen hzero
    have hhead : ∃ d, (name ++ lparen :: str).head? = some d ∧ d ≠ 0 := by
      cases name with
      | nil => exact ⟨lparen, rfl, by decide⟩
      | cons d name =>
        rw [List.mem_cons, not_or] at hzero
        exact ⟨d, rfl, fun h => hzero.2.1 h.symm⟩
    obtain ⟨d, hd, hne⟩ := hhead
    rw [List.cons_append, skipToParen, if_neg fun h => hparen.1 h.symm, hd]
    dsimp only
    rw [if_neg hne]
    exact ih hparen.2 hzero.2

/-- The end of a round: the loop stops at the end of the arguments. -/
def fparamNext (fuel : ℕ) (str : Str) (k : UInt8) (d : UsmartDev) : Option Fparam :=
  str.head?.bind fun c => if IsEnd c then some ⟨.ok, k, d, str⟩ else fparamLoop fuel str k d

theorem fparamNext_end {fuel : ℕ} {str : Str} {k c : UInt8} {d : UsmartDev} (hc : IsEnd c) :
    fparamNext fuel (c :: str) k d = some ⟨.ok, k, d, c :: str⟩ := if_pos hc

theorem fparamNext_loop {fuel : ℕ} {str : Str} {k c : UInt8} {d : UsmartDev} (hc : ¬IsEnd c) :
    fparamNext fuel (c :: str) k d = fparamLoop fuel (c :: str) k d := if_neg hc

/-- A round of the loop that reads an argument stores it. -/
theorem fparamLoop_arg {a : Arg} {str : Str} (fuel : ℕ) {k i : UInt8} (d : UsmartDev)
    (hlen : a.text.length ≤ parmLen) (hk : (k + 1).toNat ≤ maxParm)
    (hread : usmartGetAparm str (parmLen + 1) = some (a.tstr, a.ptype, i)) :
    fparamLoop (fuel + 1) str k d = fparamNext fuel (str.drop i.toNat) (k + 1) (a.put d k) := by
  rw [fparamLoop, hread]
  cases a with
  | number n =>
    obtain ⟨c, l, hl⟩ := List.exists_cons_of_ne_nil n.text_ne_nil
    have hc : toUpper c ≠ 0 := toUpper_ne_zero (n.isNumChar_text c (by simp [hl]))
    have hhead : (n.text.map toUpper ++ [0]).head? ≠ some (0 : UInt8) := by simp [hl, hc]
    dsimp only [Option.bind_eq_bind, Option.bind_some, Arg.tstr, Arg.ptype]
    rw [if_pos hhead, n.usmartStr2num_text hlen]
    dsimp only [Option.bind_some]
    rw [if_neg (by simp), if_neg (by omega)]
    rfl
  | string s hs =>
    have htake : s.takeWhile (· ≠ 0) = s := by
      rw [List.takeWhile_eq_self_iff]
      intro c hc
      have hc : c ≠ 0 := fun h => hs (h ▸ hc)
      simp [hc]
    dsimp only [Option.bind_eq_bind, Option.bind_some, Arg.tstr, Arg.ptype]
    rw [if_neg (by omega), htake]
    rfl

/-- A round that finds an empty number. -/
theorem fparamLoop_empty {str : Str} {fuel : ℕ} {k i : UInt8} {d : UsmartDev}
    (hread : usmartGetAparm str (parmLen + 1) = some ([], .number, i)) :
    fparamLoop (fuel + 1) str k d = fparamNext fuel (str.drop i.toNat) k d := by
  rw [fparamLoop, hread]
  rfl

theorem Arg.length_text_pos (a : Arg) : 0 < a.text.length := by
  cases a with
  | number n => exact List.length_pos_iff.mpr n.text_ne_nil
  | string s _ => simp [text]

/-- The number of arguments does not wrap. -/
theorem toNat_parm_succ {k : UInt8} (hk : k.toNat ≤ maxParm) : (k + 1).toNat = k.toNat + 1 := by
  unfold maxParm at hk
  exact toNat_add_one (by omega)

theorem drop_append_ofNat {l : List UInt8} (str : List UInt8) (hl : l.length ≤ parmLen) :
    (l ++ str).drop (UInt8.ofNat l.length).toNat = str := by
  unfold parmLen at hl
  have hk : (UInt8.ofNat l.length).toNat = l.length :=
    UInt8.toNat_ofNat_of_lt' (show _ < 256 by omega)
  rw [hk, List.drop_left]

theorem starts_head {str : Str} (h : Starts str) (fuel : ℕ) (k : UInt8) (d : UsmartDev) :
    fparamNext fuel str k d = fparamLoop fuel str k d := by
  obtain ⟨c, str, rfl, hc⟩ := h
  refine fparamNext_loop ?_
  rcases hc with hc | rfl
  · exact (isNumChar_ne hc).2.1
  · decide

/-- The offset behind the text of a string. -/
theorem ofNat_length_text (s : List UInt8) (hs : 0 ∉ s) :
    UInt8.ofNat (Arg.string s hs).text.length = UInt8.ofNat (s.flatMap escape).length + 2 := by
  have hlen : (Arg.string s hs).text.length = (s.flatMap escape).length + 2 := by
    simp [Arg.text]
  rw [hlen, UInt8.ofNat_add]
  rfl

theorem length_le_escape (s : List UInt8) : s.length ≤ (s.flatMap escape).length := by
  induction s with
  | nil => simp
  | cons c s ih =>
    have hc : 1 ≤ (escape c).length := by
      unfold escape
      split <;> simp
    rw [List.flatMap_cons, List.length_append, List.length_cons]
    omega

theorem length_lt_of_text {s : List UInt8} {hs : 0 ∉ s}
    (hlen : (Arg.string s hs).text.length ≤ parmLen) : s.length < parmLen + 1 := by
  have := length_le_escape s
  simp only [Arg.text, List.length_append, List.length_cons] at hlen
  omega

/-- The last argument is read up to the end. -/
theorem usmartGetAparm_last (a : Arg) {str : Str} (hlen : a.text.length ≤ parmLen) :
    usmartGetAparm (a.text ++ rparen :: str) (parmLen + 1) =
      some (a.tstr, a.ptype, UInt8.ofNat a.text.length) := by
  cases a with
  | number n => exact usmartGetAparm_number_end (Nat.lt_succ_of_le hlen) (Or.inl rfl)
  | string s hs =>
    rw [ofNat_length_text]
    exact usmartGetAparm_string (length_lt_of_text hlen) (Or.inl rfl)

/-- The last argument. -/
theorem fparamLoop_last (a : Arg) {str : Str} {fuel : ℕ} {k : UInt8} {d : UsmartDev}
    (hlen : a.text.length ≤ parmLen) (hk : (k + 1).toNat ≤ maxParm) :
    fparamLoop (fuel + 1) (a.text ++ rparen :: str) k d =
      some ⟨.ok, k + 1, a.put d k, rparen :: str⟩ := by
  rw [fparamLoop_arg fuel d hlen hk (usmartGetAparm_last a hlen), drop_append_ofNat _ hlen]
  exact fparamNext_end (Or.inl rfl)

/-- An argument that another one follows: one round, or two with the empty number behind a
string. -/
theorem fparamLoop_comma (a : Arg) {str : Str} (fuel : ℕ) {k : UInt8} (d : UsmartDev)
    (hlen : a.text.length ≤ parmLen) (hk : (k + 1).toNat ≤ maxParm) (hstr : Starts str) :
    ∃ fuel', fuel ≤ fuel' ∧ fparamLoop (fuel + 2) (a.text ++ comma :: str) k d =
      fparamLoop fuel' str (k + 1) (a.put d k) := by
  cases a with
  | number n =>
    have hread := usmartGetAparm_number_comma (n := n) (Nat.lt_succ_of_le hlen) hstr
    have hdrop : (n.text ++ comma :: str).drop (UInt8.ofNat (n.text.length + 1)).toNat = str := by
      have hshort : n.text.length ≤ 200 := hlen
      have hk : (UInt8.ofNat (n.text.length + 1)).toNat = n.text.length + 1 :=
        UInt8.toNat_ofNat_of_lt' (show _ < 256 by omega)
      rw [hk, ← List.drop_drop, List.drop_left, List.drop_one, List.tail_cons]
    refine ⟨fuel + 1, Nat.le_succ fuel, ?_⟩
    have hround := fparamLoop_arg (fuel + 1) d hlen hk hread
    rw [hdrop, starts_head hstr] at hround
    exact hround
  | string s hs =>
    have hread : usmartGetAparm ((Arg.string s hs).text ++ comma :: str) (parmLen + 1) = _ :=
      usmartGetAparm_string (length_lt_of_text hlen) (Or.inr rfl)
    rw [← ofNat_length_text s hs] at hread
    refine ⟨fuel, Nat.le_refl fuel, ?_⟩
    have hround := fparamLoop_arg (fuel + 1) d hlen hk hread
    have hdrop := drop_append_ofNat (comma :: str) hlen
    have hcomma : ¬IsEnd comma := by decide
    have hempty : usmartGetAparm (comma :: str) (parmLen + 1) = _ :=
      usmartGetAparm_comma (Nat.succ_pos _) hstr
    refine hround.trans ?_
    rw [hdrop, fparamNext_loop hcomma, fparamLoop_empty hempty]
    exact starts_head hstr fuel _ _

/-! ## What is stored -/

theorem store_of_mem {m : ℕ → UInt8} {a : ℕ} {l : List UInt8} {j : ℕ} (hj : j < l.length) :
    store m a l (a + j) = l[j] := by
  simp [store, hj]

theorem store_of_not_mem {m : ℕ → UInt8} {a : ℕ} {l : List UInt8} {j : ℕ}
    (hj : ¬(a ≤ j ∧ j < a + l.length)) : store m a l j = m j :=
  dif_neg (by omega)

theorem usmartStrlen_eq (s : List UInt8) : usmartStrlen s = UInt8.ofNat s.length := by
  have key : ∀ k : ℕ, s.foldl (fun len _ => len + 1) (UInt8.ofNat k) =
      UInt8.ofNat (k + s.length) := by
    induction s with
    | nil => intro k; rfl
    | cons c s ih =>
      intro k
      have hk : UInt8.ofNat k + 1 = UInt8.ofNat (k + 1) := by
        rw [UInt8.ofNat_add]
        rfl
      rw [List.foldl_cons, hk, ih, List.length_cons, Nat.add_right_comm, Nat.add_assoc]
  have h := key 0
  rw [Nat.zero_add] at h
  exact h

end Usmart

end Enc28j60Udp
