import Enc28j60Udp.Usmart.Model
import Mathlib.Tactic.Common
import Mathlib.Tactic.Ring

/-!
# Numbers

The value of a text of digits, and what `usmart_str2num` makes of it. `usmart_str2num` adds up the
digits times powers of the base modulo `2 ^ 32`, so that leading zeros do no harm.
-/

namespace Enc28j60Udp

namespace Usmart

/-- The value of a digit. -/
def digitVal (c : UInt8) : ℕ :=
  if isDecChar c then c.toNat - 0x30 else (toUpper c).toNat - 0x41 + 10

/-- The value of a text of digits. -/
def digitsVal (base : ℕ) : List UInt8 → ℕ
  | [] => 0
  | c :: ds => digitVal c * base ^ ds.length + digitsVal base ds

/-- A digit as `usmart_get_aparm` leaves it. -/
def IsDigit (c : UInt8) : Prop := (isDecChar c || isUpperChar c) = true

instance (c : UInt8) : Decidable (IsDigit c) := inferInstanceAs (Decidable (_ = true))

theorem powLoop_ofNat (m : UInt8) (n r : ℕ) :
    powLoop m n (UInt32.ofNat r) = UInt32.ofNat (r * m.toNat ^ n) := by
  induction n generalizing r with
  | zero => simp [powLoop]
  | succ n ih =>
    have hm : m.toUInt32 = UInt32.ofNat m.toNat := by simp
    rw [powLoop, hm, ← UInt32.ofNat_mul, ih, pow_succ']
    congr 1
    ring

theorem usmartPow_eq (m n : UInt8) : usmartPow m n = UInt32.ofNat (m.toNat ^ n.toNat) := by
  have h := powLoop_ofNat m n.toNat 1
  rw [Nat.one_mul] at h
  exact h

theorem toUInt32_digit {c : UInt8} (hc : IsDigit c) :
    (if isDecChar c then c.toUInt32 - 0x30 else c.toUInt32 - 0x41 + 10) =
      UInt32.ofNat (digitVal c) := by
  have h : ∀ v : BitVec 8, IsDigit (UInt8.ofBitVec v) →
      (if isDecChar (UInt8.ofBitVec v) then (UInt8.ofBitVec v).toUInt32 - 0x30
        else (UInt8.ofBitVec v).toUInt32 - 0x41 + 10) =
        UInt32.ofNat (digitVal (UInt8.ofBitVec v)) := by
    decide
  exact h c.toBitVec hc

/-- A digit is not a terminator. -/
theorem IsDigit.ne_zero {c : UInt8} (hc : IsDigit c) : c ≠ 0 := by
  rintro rfl
  revert hc
  decide

theorem ofNat_succ_ne_zero {k : ℕ} (hk : k + 1 < 2 ^ 8) : UInt8.ofNat (k + 1) ≠ 0 := by
  intro h
  have hnat := congrArg UInt8.toNat h
  simp at hnat
  omega

/-- The second loop, on digits. -/
theorem str2numSum_eq (hexdec : UInt8) {ds : List UInt8} (hne : ds ≠ [])
    (hds : ∀ c ∈ ds, IsDigit c) (hlen : ds.length < 2 ^ 8) (rest : Str) (r : ℕ) :
    str2numSum hexdec (ds ++ 0 :: rest) (UInt8.ofNat ds.length) (UInt32.ofNat r) =
      some (UInt32.ofNat (r + digitsVal hexdec.toNat ds)) := by
  induction ds generalizing r with
  | nil => exact absurd rfl hne
  | cons c ds ih =>
    obtain ⟨hc, hds⟩ := List.forall_mem_cons.mp hds
    rw [List.length_cons] at hlen
    have hb : UInt8.ofNat (ds.length + 1) - 1 = UInt8.ofNat ds.length := by
      rw [UInt8.ofNat_add]
      exact UInt8.add_sub_cancel _ _
    have hk : (UInt8.ofNat ds.length).toNat = ds.length :=
      UInt8.toNat_ofNat_of_lt' (show _ < 256 by omega)
    have hres : UInt32.ofNat r + UInt32.ofNat (digitVal c) *
        usmartPow hexdec (UInt8.ofNat ds.length) =
        UInt32.ofNat (r + digitVal c * hexdec.toNat ^ ds.length) := by
      rw [usmartPow_eq, hk, ← UInt32.ofNat_mul, ← UInt32.ofNat_add]
    rw [List.cons_append, str2numSum, List.length_cons, if_pos (ofNat_succ_ne_zero hlen), hb,
      toUInt32_digit hc, hres]
    cases ds with
    | nil => simp [digitsVal]
    | cons c' ds =>
      rw [List.cons_append, List.head?_cons]
      dsimp only
      rw [if_neg (hds c' List.mem_cons_self).ne_zero, ← List.cons_append,
        ih (List.cons_ne_nil c' ds) hds (by omega), Nat.add_assoc]
      rfl

/-- The first loop passes digits. -/
theorem str2numScan_append {ds : List UInt8} (hds : ∀ c ∈ ds, IsDigit c) (p : Str)
    (b hexdec : UInt8) :
    str2numScan (ds ++ p) b hexdec =
      str2numScan p (b + UInt8.ofNat ds.length) (if ∃ c ∈ ds, 0x41 ≤ c then 16 else hexdec) := by
  induction ds generalizing b hexdec with
  | nil => simp
  | cons c ds ih =>
    obtain ⟨hc, hds⟩ := List.forall_mem_cons.mp hds
    have hlen : b + 1 + UInt8.ofNat ds.length = b + UInt8.ofNat (ds.length + 1) := by
      rw [UInt8.ofNat_add, UInt8.add_comm (UInt8.ofNat ds.length), ← UInt8.add_assoc]
      rfl
    have hc' : (isDecChar c || isUpperChar c || (c == 0x58 && b == 1)) = true := by
      rw [hc, Bool.true_or]
    rw [List.cons_append, str2numScan, if_pos hc', ih hds, List.length_cons, hlen]
    by_cases h : 0x41 ≤ c
    · simp [h]
    · simp [h]

/-- The first loop, on digits. -/
theorem str2numScan_eq {ds : List UInt8} (hds : ∀ c ∈ ds, IsDigit c) (rest : Str)
    (b hexdec : UInt8) :
    str2numScan (ds ++ 0 :: rest) b hexdec =
      some (.ok (b + UInt8.ofNat ds.length,
        if ∃ c ∈ ds, 0x41 ≤ c then 16 else hexdec)) := by
  rw [str2numScan_append hds]
  simp [str2numScan, isDecChar, isUpperChar]

/-- A decimal text. -/
theorem usmartStr2num_dec {ds : List UInt8} (hne : ds ≠ []) (hds : ∀ c ∈ ds, isDecChar c = true)
    (hlen : ds.length < 2 ^ 8) (rest : Str) :
    usmartStr2num (ds ++ 0 :: rest) = some (0, UInt32.ofNat (digitsVal 10 ds)) := by
  have hdig : ∀ c ∈ ds, IsDigit c := fun c hc => by simp [IsDigit, hds c hc]
  have hlow : ¬∃ c ∈ ds, 0x41 ≤ c := by
    rintro ⟨c, hc, h⟩
    have hc := hds c hc
    simp only [isDecChar, Bool.and_eq_true, decide_eq_true_eq] at hc
    exact absurd (UInt8.le_trans h hc.2) (by decide)
  have hb : (0 : UInt8) + UInt8.ofNat ds.length ≠ 0 := by
    obtain ⟨c, ds, rfl⟩ := List.exists_cons_of_ne_nil hne
    rw [UInt8.zero_add, List.length_cons]
    exact ofNat_succ_ne_zero hlen
  have hsum := str2numSum_eq 10 hne hdig hlen rest 0
  rw [usmartStr2num, str2numScan_eq hdig, if_neg hlow]
  dsimp only [Option.bind_eq_bind, Option.bind_some]
  rw [if_neg (by decide), if_neg hb, UInt8.zero_add]
  change (str2numSum 10 (ds ++ 0 :: rest) (UInt8.ofNat ds.length) (UInt32.ofNat 0)).bind _ = _
  rw [hsum, Nat.zero_add]
  rfl

/-- A hexadecimal text. -/
theorem usmartStr2num_hex {ds : List UInt8} (hne : ds ≠ []) (hds : ∀ c ∈ ds, IsDigit c)
    (hlen : ds.length < 2 ^ 8 - 2) (rest : Str) :
    usmartStr2num (0x30 :: 0x58 :: ds ++ 0 :: rest) =
      some (0, UInt32.ofNat (digitsVal 16 ds)) := by
  have hscan : str2numScan (0x30 :: 0x58 :: ds ++ 0 :: rest) 0 10 =
      some (.ok (2 + UInt8.ofNat ds.length, 16)) := by
    have htail := str2numScan_eq hds rest 2 16
    rw [ite_self] at htail
    exact htail
  have hb : ((2 : UInt8) + UInt8.ofNat ds.length).toNat = 2 + ds.length := by
    simp
    omega
  have hpos : 0 < ds.length := List.length_pos_iff.mpr hne
  have hsub : (2 : UInt8) + UInt8.ofNat ds.length - 2 = UInt8.ofNat ds.length := by
    rw [UInt8.add_comm]
    exact UInt8.add_sub_cancel _ _
  have hsum := str2numSum_eq 16 hne hds (by omega) rest 0
  rw [usmartStr2num, hscan]
  dsimp only [Option.bind_eq_bind, Option.bind_some]
  rw [if_pos rfl, if_neg (by rw [UInt8.lt_iff_toNat_lt, hb]; simp; omega), List.cons_append,
    List.cons_append]
  dsimp only
  rw [if_pos ⟨rfl, rfl⟩, hsub]
  change (str2numSum 16 (ds ++ 0 :: rest) (UInt8.ofNat ds.length) (UInt32.ofNat 0)).bind _ = _
  rw [hsum, Nat.zero_add]
  rfl

/-! ## What is accepted -/

/-- A number as `usmart_str2num` wants it: decimal digits, or `0X` and hexadecimal digits. -/
inductive IsNumber : List UInt8 → Prop
  | dec {ds : List UInt8} (hne : ds ≠ []) (hds : ∀ c ∈ ds, isDecChar c = true) : IsNumber ds
  | hex {ds : List UInt8} (hne : ds ≠ []) (hds : ∀ c ∈ ds, IsDigit c) :
      IsNumber (0x30 :: 0x58 :: ds)

theorem isNumber_iff {s : List UInt8} : IsNumber s ↔
    (s ≠ [] ∧ s.all isDecChar) ∨
      s.take 2 = [0x30, 0x58] ∧ s.drop 2 ≠ [] ∧ (s.drop 2).all (IsDigit ·) := by
  simp only [List.all_eq_true, decide_eq_true_eq]
  constructor
  · rintro (⟨hne, hds⟩ | ⟨hne, hds⟩)
    · exact .inl ⟨hne, hds⟩
    · exact .inr ⟨rfl, hne, hds⟩
  · rintro (⟨hne, hds⟩ | ⟨hpre, hne, hds⟩)
    · exact .dec hne hds
    · rw [← List.take_append_drop 2 s, hpre]
      exact .hex hne hds

instance (s : List UInt8) : Decidable (IsNumber s) := decidable_of_iff' _ isNumber_iff

/-- The value of a number. -/
def numberVal : List UInt8 → ℕ
  | 0x30 :: 0x58 :: ds => digitsVal 16 ds
  | ds => digitsVal 10 ds

theorem not_isDigit_x : ¬ IsDigit 0x58 := by decide

theorem not_isDecChar_x : ¬ isDecChar 0x58 = true := by decide

theorem isDecChar_iff {c : UInt8} (hc : IsDigit c) : isDecChar c = true ↔ ¬ 0x41 ≤ c := by
  have h : ∀ v : BitVec 8, IsDigit (UInt8.ofBitVec v) →
      (isDecChar (UInt8.ofBitVec v) = true ↔ ¬ 0x41 ≤ UInt8.ofBitVec v) := by
    decide
  exact h c.toBitVec hc

/-- A text is made of digits, or some character ends its digits. -/
theorem digits_or_stop (s : List UInt8) :
    (∀ c ∈ s, IsDigit c) ∨ ∃ ds c t, s = ds ++ c :: t ∧ (∀ d ∈ ds, IsDigit d) ∧ ¬ IsDigit c := by
  induction s with
  | nil => exact .inl (by simp)
  | cons c s ih =>
    by_cases hc : IsDigit c
    · rcases ih with hs | ⟨ds, d, t, rfl, hds, hd⟩
      · exact .inl (List.forall_mem_cons.mpr ⟨hc, hs⟩)
      · exact .inr ⟨c :: ds, d, t, rfl, List.forall_mem_cons.mpr ⟨hc, hds⟩, hd⟩
    · exact .inr ⟨[], c, s, rfl, by simp, hc⟩

/-- A decimal number has no letter, and no `X`. -/
theorem numberVal_dec {ds : List UInt8} (hds : ∀ c ∈ ds, isDecChar c = true) :
    numberVal ds = digitsVal 10 ds := by
  unfold numberVal
  split
  · exact absurd (hds 0x58 (by simp)) not_isDecChar_x
  · rfl

/-- The digits of a number are followed by nothing else, or the `X` of its prefix. -/
theorem IsNumber.stop {s ds t : List UInt8} {c : UInt8} (h : IsNumber s) (hs : s = ds ++ c :: t)
    (hds : ∀ d ∈ ds, IsDigit d) (hc : ¬ IsDigit c) :
    ds = [0x30] ∧ c = 0x58 ∧ t ≠ [] ∧ ∀ d ∈ t, IsDigit d := by
  cases h with
  | dec hne hdec =>
    refine absurd ?_ hc
    rw [IsDigit, hdec c (by simp [hs]), Bool.true_or]
  | @hex es hne hes =>
    match ds, hs with
    | [], hs =>
      obtain ⟨rfl, -⟩ := List.cons.inj hs
      exact absurd (by decide) hc
    | [d], hs =>
      simp only [List.cons_append, List.nil_append, List.cons.injEq] at hs
      obtain ⟨rfl, rfl, rfl⟩ := hs
      exact ⟨rfl, rfl, hne, hes⟩
    | d :: e :: ds, hs =>
      simp only [List.cons_append, List.cons.injEq] at hs
      obtain ⟨-, rfl, -⟩ := hs
      exact absurd (hds 0x58 (by simp)) not_isDigit_x

/-- The first loop stops with the error `1` at a character that is no digit, the terminator and an
`X` at the second position apart. -/
theorem str2numScan_stop {ds : List UInt8} (hds : ∀ d ∈ ds, IsDigit d) {c : UInt8}
    (hc : ¬ IsDigit c) (hzero : c ≠ 0) {b : UInt8}
    (hx : ¬ (c = 0x58 ∧ b + UInt8.ofNat ds.length = 1)) (t : Str) (hexdec : UInt8) :
    str2numScan (ds ++ c :: t) b hexdec = some (.error 1) := by
  have hc' : ¬ (isDecChar c || isUpperChar c ||
      (c == 0x58 && b + UInt8.ofNat ds.length == 1)) = true := by
    rw [Bool.or_eq_true, Bool.and_eq_true, beq_iff_eq, beq_iff_eq]
    exact fun h => h.elim hc hx
  rw [str2numScan_append hds, str2numScan, if_neg hc', if_neg hzero]

theorem usmartStr2num_of_error {str : Str} {e : UInt8}
    (h : str2numScan str 0 10 = some (.error e)) : usmartStr2num str = some (e, 0) := by
  rw [usmartStr2num, h]
  rfl

/-- A text the first loop takes for hexadecimal is rejected unless it starts with `0X` and goes
on. -/
theorem usmartStr2num_of_hex {c d : UInt8} {p : Str} {n : UInt8}
    (h : str2numScan (c :: d :: p) 0 10 = some (.ok (n, 16)))
    (hbad : n < 3 ∨ ¬ (c = 0x30 ∧ d = 0x58)) :
    ∃ e, e ≠ 0 ∧ usmartStr2num (c :: d :: p) = some (e, 0) := by
  rw [usmartStr2num, h]
  dsimp only [Option.bind_eq_bind, Option.bind_some]
  rw [if_pos rfl]
  by_cases hn : n < 3
  · exact ⟨2, by decide, if_pos hn⟩
  · refine ⟨3, by decide, ?_⟩
    rw [if_neg hn]
    exact if_neg (hbad.resolve_left hn)

/-- The first loop on a digit and an `X`. -/
theorem str2numScan_prefix {d : UInt8} (hd : IsDigit d) (p : Str) :
    str2numScan (d :: 0x58 :: p) 0 10 = str2numScan p 2 16 := by
  have hd' : (isDecChar d || isUpperChar d || (d == 0x58 && (0 : UInt8) == 1)) = true := by
    rw [hd, Bool.true_or]
  rw [str2numScan, if_pos hd', str2numScan, if_pos (by decide), if_pos (by decide)]
  rfl

theorem ofNat_lt_three {n : ℕ} (hn : n ≤ 200) : (2 : UInt8) + UInt8.ofNat n < 3 ↔ n = 0 := by
  rw [UInt8.lt_iff_toNat_lt]
  simp only [UInt8.toNat_add, UInt8.toNat_ofNat', UInt8.reduceToNat]
  omega

/-- The text `s` is accepted with its value if it is a number, and rejected with `0` if not. -/
def Decides (s : List UInt8) (rest : Str) : Prop :=
  (IsNumber s ∧ usmartStr2num (s ++ 0 :: rest) = some (0, UInt32.ofNat (numberVal s))) ∨
    (¬ IsNumber s ∧ ∃ e, e ≠ 0 ∧ usmartStr2num (s ++ 0 :: rest) = some (e, 0))

/-- A number of digits only is decimal. -/
theorem IsNumber.isDecChar {s : List UInt8} (h : IsNumber s) (hdig : ∀ c ∈ s, IsDigit c) :
    s ≠ [] ∧ ∀ c ∈ s, isDecChar c = true := by
  cases h with
  | dec hne hds => exact ⟨hne, hds⟩
  | hex => exact absurd (hdig 0x58 (by simp)) not_isDigit_x

theorem decides_digits {s : List UInt8} (hdig : ∀ c ∈ s, IsDigit c) (hlen : s.length ≤ 200)
    (rest : Str) : Decides s rest := by
  have hscan := str2numScan_eq hdig rest 0 10
  match s with
  | [] => exact .inr ⟨fun h => (h.isDecChar hdig).1 rfl, 4, by decide, rfl⟩
  | c :: s =>
    by_cases hletter : ∃ d ∈ c :: s, 0x41 ≤ d
    · rw [if_pos hletter] at hscan
      obtain ⟨l, hl, hup⟩ := hletter
      refine .inr ⟨fun h => (isDecChar_iff (hdig l hl)).1 ((h.isDecChar hdig).2 l hl) hup, ?_⟩
      -- the second character is a digit or the terminator, not an `X`
      match s with
      | [] => exact usmartStr2num_of_hex hscan (.inr fun h => absurd h.2 (by decide))
      | d :: s =>
        refine usmartStr2num_of_hex hscan (.inr fun h => ?_)
        exact not_isDigit_x (h.2 ▸ hdig d (by simp))
    · have hdec : ∀ d ∈ c :: s, isDecChar d = true := fun d hd =>
        (isDecChar_iff (hdig d hd)).2 fun h => hletter ⟨d, hd, h⟩
      refine .inl ⟨.dec (by simp) hdec, ?_⟩
      rw [numberVal_dec hdec]
      exact usmartStr2num_dec (by simp) hdec (by omega) rest

/-- The `X` is the second character. -/
theorem decides_x {d : UInt8} {t : List UInt8} (hd : IsDigit d) (hzero : 0 ∉ t)
    (hlen : t.length ≤ 198) (rest : Str) : Decides (d :: 0x58 :: t) rest := by
  have hpre := str2numScan_prefix hd (t ++ 0 :: rest)
  have hstop := fun h : IsNumber (d :: 0x58 :: t) =>
    h.stop (List.singleton_append.symm : d :: 0x58 :: t = [d] ++ 0x58 :: t) (by simpa using hd)
      not_isDigit_x
  rcases digits_or_stop t with ht | ⟨ds, c, t', rfl, hds, hc⟩
  · rw [str2numScan_eq ht, ite_self] at hpre
    by_cases hgood : d = 0x30 ∧ t ≠ []
    · obtain ⟨rfl, hne⟩ := hgood
      exact .inl ⟨.hex hne ht, usmartStr2num_hex hne ht (by omega) rest⟩
    · refine .inr ⟨fun h => hgood ⟨List.singleton_inj.1 (hstop h).1, (hstop h).2.2.1⟩, ?_⟩
      refine usmartStr2num_of_hex hpre ?_
      by_cases hne : t = []
      · exact .inl ((ofNat_lt_three (by omega)).2 (by simp [hne]))
      · exact .inr fun h => hgood ⟨h.1, hne⟩
  · refine .inr ⟨fun h => hc ((hstop h).2.2.2 c (by simp)), 1, by decide, ?_⟩
    have hx : ¬ (c = 0x58 ∧ (2 : UInt8) + UInt8.ofNat ds.length = 1) := by
      rintro ⟨-, h⟩
      have hnat := congrArg UInt8.toNat h
      simp only [List.length_append, List.length_cons] at hlen
      simp only [UInt8.toNat_add, UInt8.toNat_ofNat', UInt8.reduceToNat] at hnat
      omega
    have hczero : c ≠ 0 := fun h => hzero (by simp [h])
    rw [List.append_assoc, List.cons_append] at hpre
    refine usmartStr2num_of_error ?_
    simp only [List.cons_append, List.append_assoc]
    rw [hpre]
    exact str2numScan_stop hds hc hczero hx _ _

theorem decides (s : List UInt8) (rest : Str) (hzero : 0 ∉ s) (hlen : s.length ≤ 200) :
    Decides s rest := by
  rcases digits_or_stop s with hdig | ⟨ds, c, t, rfl, hds, hc⟩
  · exact decides_digits hdig hlen rest
  simp only [List.length_append, List.length_cons] at hlen
  have hczero : c ≠ 0 := fun h => hzero (by simp [h])
  by_cases hx : c = 0x58 ∧ ds.length = 1
  · obtain ⟨rfl, hone⟩ := hx
    obtain ⟨d, rfl⟩ := List.length_eq_one_iff.1 hone
    exact decides_x (hds d (by simp)) (fun h => hzero (by simp [h])) (by omega) rest
  · refine .inr ⟨fun h => hx ?_, 1, by decide, usmartStr2num_of_error ?_⟩
    · obtain ⟨rfl, rfl, -⟩ := h.stop rfl hds hc
      exact ⟨rfl, rfl⟩
    · rw [List.append_assoc, List.cons_append]
      refine str2numScan_stop hds hc hczero (fun h => hx ⟨h.1, ?_⟩) _ _
      have hnat := congrArg UInt8.toNat h.2
      simp only [UInt8.toNat_add, UInt8.toNat_ofNat', UInt8.reduceToNat] at hnat
      omega

/-- `usmart_str2num` accepts the numbers and no other text, and `*res` is the value or `0`. What
lies behind the terminator is never read. -/
theorem usmartStr2num_grammar (s : List UInt8) (rest : Str) (hzero : 0 ∉ s)
    (hlen : s.length ≤ 200) :
    ∃ e res, usmartStr2num (s ++ 0 :: rest) = some (e, res) ∧ (e = 0 ↔ IsNumber s) ∧
      (e = 0 → res.toNat = numberVal s % 2 ^ 32) ∧ (e ≠ 0 → res = 0) := by
  rcases decides s rest hzero hlen with ⟨hnum, hrun⟩ | ⟨hnum, e, he, hrun⟩
  · exact ⟨0, _, hrun, iff_of_true rfl hnum, fun _ => by simp, fun h => absurd rfl h⟩
  · exact ⟨e, 0, hrun, iff_of_false he hnum, fun h => absurd h he, fun _ => rfl⟩

/-- The largest hexadecimal number of 32 bits. -/
theorem usmartStr2num_grammar_max : ∃ e res,
    usmartStr2num ([0x30, 0x58, 0x46, 0x46, 0x46, 0x46, 0x46, 0x46, 0x46, 0x46] ++ 0 :: []) =
      some (e, res) ∧
    (e = 0 ↔ IsNumber [0x30, 0x58, 0x46, 0x46, 0x46, 0x46, 0x46, 0x46, 0x46, 0x46]) ∧
    (e = 0 → res.toNat =
      numberVal [0x30, 0x58, 0x46, 0x46, 0x46, 0x46, 0x46, 0x46, 0x46, 0x46] % 2 ^ 32) ∧
    (e ≠ 0 → res = 0) :=
  usmartStr2num_grammar _ _ (by decide) (by decide)

end Usmart

end Enc28j60Udp
