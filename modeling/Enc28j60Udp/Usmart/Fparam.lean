import Enc28j60Udp.Usmart.Args
import Enc28j60Udp.Foundations.Scanner

/-!
# `usmart_get_fparam` as a scanner

The rounds of `usmart_get_fparam` stop at different places: behind a number at the next argument,
behind a string at the comma. All rounds together read the text as one scanner, `ArgScan`, which
counts the arguments, and the commas inside their strings. The loop stops at the first end of
arguments that is in no string, with as many arguments stored as the scanner has counted.
-/

namespace Enc28j60Udp

namespace Usmart

/-! ## Texts of arguments -/

/-- Before an argument, in a number, in a string, behind a backslash, and behind a string. -/
inductive ArgMode
  | start
  | number
  | string
  | escape
  | behind
  deriving DecidableEq

/-- The arguments that have begun, and the commas in their strings. -/
structure ArgScan where
  mode : ArgMode
  args : ℕ
  commas : ℕ
  deriving DecidableEq

/-- A number and a string behind it, with no comma between them, are one argument. Behind a string,
everything up to the comma is skipped. -/
def ArgScan.step (s : ArgScan) (c : UInt8) : Option ArgScan :=
  match s.mode with
  | .start =>
    if c = space ∨ c = comma then some s
    else if isNumChar c then some { s with mode := .number, args := s.args + 1 }
    else if c = quote then some { s with mode := .string, args := s.args + 1 }
    else none
  | .number =>
    if c = comma then some { s with mode := .start }
    else if c = space ∨ isNumChar c then some s
    else if c = quote then some { s with mode := .string }
    else none
  | .string =>
    if c = quote then some { s with mode := .behind }
    else if c = backslash then some { s with mode := .escape }
    else if c = comma then some { s with commas := s.commas + 1 }
    else some s
  | .escape =>
    if c = comma then some { s with mode := .string, commas := s.commas + 1 }
    else some { s with mode := .string }
  | .behind =>
    if c = comma then some { s with mode := .start }
    else if IsEnd c then none
    else some s

/-- Outside strings. -/
def ArgMode.Outside (m : ArgMode) : Prop := m ≠ .string ∧ m ≠ .escape

instance (m : ArgMode) : Decidable m.Outside := inferInstanceAs (Decidable (_ ∧ _))

/-- The state before the arguments. -/
def ArgScan.start : ArgScan := ⟨.start, 0, 0⟩

/-- The text consists of arguments, counted by `s`. -/
def ArgText (args : List UInt8) (s : ArgScan) : Prop :=
  Scans ArgScan.step .start args s ∧ s.mode.Outside

instance (args : List UInt8) (s : ArgScan) : Decidable (ArgText args s) :=
  inferInstanceAs (Decidable (_ ∧ _))

/-- Outside strings, the scanner stops at the end of the arguments. -/
theorem ArgScan.step_end {s : ArgScan} {c : UInt8} (hs : s.mode.Outside) (hc : IsEnd c) :
    s.step c = none := by
  obtain ⟨mode, args, commas⟩ := s
  cases mode with
  | string => exact absurd rfl hs.1
  | escape => exact absurd rfl hs.2
  | _ => rcases hc with rfl | rfl <;> rfl

theorem ArgScan.commas_le {s s' : ArgScan} {c : UInt8} (h : s.step c = some s') :
    s.commas ≤ s'.commas := by
  unfold ArgScan.step at h
  split at h <;> split_ifs at h <;> cases h <;> simp

/-! ## A round of `usmart_get_aparm` -/

section Round

open AparmState

variable {i : UInt8} {fparm : List UInt8} {s : AparmState} {a j : ℕ}

/-- What a round has read when it stops: the text `t`, in front of `l`, with the scanner in the
mode `m` behind it. The next round starts an argument, or stands at the comma behind a string. -/
structure Round (m₀ m : ArgMode) (a₀ a j : ℕ) (str : Str) (i : UInt8) (s : AparmState) (t l : Str) :
    Prop where
  split : str = t ++ l
  offset : s.i = i + UInt8.ofNat t.length
  scans : ∃ j', Scans ArgScan.step ⟨m₀, a₀, j⟩ t ⟨m, a, j'⟩
  next : ∃ c l', l = c :: l' ∧ (IsEnd c ∨ m = .start ∨ m = .behind ∧ c = comma)
  outside : m.Outside

/-- A round that stops where it stands. -/
theorem Round.stop {m : ArgMode} {c : UInt8} (str : Str) (hi : s.i = i) (hm : m.Outside)
    (hc : IsEnd c ∨ m = .start ∨ m = .behind ∧ c = comma) :
    Round m m a a j (c :: str) i s [] (c :: str) where
  split := rfl
  offset := by simp [hi]
  scans := ⟨j, .nil⟩
  next := ⟨c, str, rfl, hc⟩
  outside := hm

/-- A round that reads a character first. -/
theorem Round.cons {m₀ m₁ m : ArgMode} {a₀ a₁ a j j₁ : ℕ} {str t l : Str} {c : UInt8}
    (hc : ArgScan.step ⟨m₀, a₀, j⟩ c = some ⟨m₁, a₁, j₁⟩)
    (h : Round m₁ m a₁ a j₁ str (i + 1) s t l) : Round m₀ m a₀ a j (c :: str) i s (c :: t) l where
  split := by rw [h.split, List.cons_append]
  offset := by
    rw [h.offset, List.length_cons, UInt8.ofNat_add, UInt8.add_assoc, UInt8.add_comm 1]
    rfl
  scans := h.scans.imp fun _ ht => .cons hc ht
  next := h.next
  outside := h.outside

/-- Behind a string. -/
theorem round_behind {str : Str} (h : aparmLoop str (behind i false fparm) = some s) :
    s.type = .string ∧ ∃ t l, Round .behind .behind a a j str i s t l := by
  induction str generalizing i with
  | nil => cases h
  | cons c str ih =>
    by_cases hcomma : c = comma
    · subst hcomma
      rw [aparmLoop_behind_comma] at h
      obtain rfl := Option.some_inj.mp h
      exact ⟨rfl, [], comma :: str, .stop str rfl (by decide) (.inr (.inr ⟨rfl, rfl⟩))⟩
    · by_cases hend : IsEnd c
      · rw [aparmLoop_behind_end hend] at h
        obtain rfl := Option.some_inj.mp h
        exact ⟨rfl, [], c :: str, .stop str rfl (by decide) (.inl hend)⟩
      · rw [aparmLoop_behind_char hend hcomma] at h
        obtain ⟨htype, t, l, hround⟩ := ih h
        exact ⟨htype, c :: t, l, .cons (by simp [ArgScan.step, hcomma, hend]) hround⟩

/-- In a string. -/
theorem round_string {str : Str} {i : UInt8} {fparm : List UInt8} {j : ℕ}
    (h : aparmLoop str (inString i fparm) = some s) :
    s.type = .string ∧ ∃ t l, Round .string .behind a a j str i s t l := by
  match str with
  | [] => cases h
  | c :: str =>
    by_cases hquote : c = quote
    · subst hquote
      rw [aparmLoop_string_quote] at h
      obtain ⟨htype, t, l, hround⟩ := round_behind (a := a) (j := j) h
      exact ⟨htype, quote :: t, l, .cons rfl hround⟩
    · by_cases hback : c = backslash
      · subst hback
        match str with
        | [] => cases h
        | d :: str =>
          rw [aparmLoop_string_escape] at h
          obtain ⟨htype, t, l, hround⟩ :=
            round_string (j := if d = comma then j + 1 else j) h
          refine ⟨htype, backslash :: d :: t, l, .cons rfl (.cons ?_ hround)⟩
          unfold ArgScan.step
          split_ifs <;> rfl
      · rw [aparmLoop_string_char hquote hback] at h
        obtain ⟨htype, t, l, hround⟩ :=
          round_string (j := if c = comma then j + 1 else j) h
        refine ⟨htype, c :: t, l, .cons ?_ hround⟩
        simp only [ArgScan.step, if_neg hquote, if_neg hback]
        split_ifs <;> rfl

/-- The mode of the scanner while a number is read, or the next argument looked for. -/
def numberMode (enout : Bool) (fparm : List UInt8) : ArgMode :=
  if enout = true ∨ fparm = [] then .start else .number

/-- The number of arguments that a number with these digits makes. -/
def digitsCount (fparm : List UInt8) : ℕ := if fparm = [] then 0 else 1

/-- The number of arguments that a round reads. -/
def AparmState.count (s : AparmState) : ℕ := if s.type = .string then 1 else digitsCount s.fparm

theorem AparmState.count_string (h : s.type = .string) : s.count = 1 := if_pos h

/-- A number without digits is no argument. -/
theorem AparmState.count_number (h : s.type = .number) (hzero : ∀ c ∈ s.fparm, c ≠ 0) :
    s.count = if (s.fparm ++ [0]).head? = some 0 then 0 else 1 := by
  rw [count, if_neg (by simp [h]), digitsCount]
  cases hf : s.fparm with
  | nil => rfl
  | cons c l =>
    have hc : c ≠ 0 := hzero c (by simp [hf])
    rw [if_neg (List.cons_ne_nil c l), if_neg (by simpa using hc)]

theorem numberMode_outside (enout : Bool) (fparm : List UInt8) :
    (numberMode enout fparm).Outside := by
  unfold numberMode
  split <;> decide

theorem step_numberMode_char {enout : Bool} {c : UInt8} (hc : isNumChar c = true)
    (henout : enout = false) :
    ArgScan.step ⟨numberMode enout fparm, a + digitsCount fparm, j⟩ c =
      some ⟨.number, a + 1, j⟩ := by
  obtain ⟨hcomma, -, hquote, hspace, -⟩ := isNumChar_ne hc
  unfold numberMode digitsCount
  by_cases hf : fparm = []
  · simp [ArgScan.step, hf, hc, hcomma, hspace]
  · simp [ArgScan.step, hf, henout, hc, hcomma]

theorem step_numberMode_quote {enout : Bool} (henout : enout = false) :
    ArgScan.step ⟨numberMode enout fparm, a + digitsCount fparm, j⟩ quote =
      some ⟨.string, a + 1, j⟩ := by
  unfold numberMode digitsCount
  by_cases hf : fparm = []
  · rw [if_pos (.inr hf), if_pos hf]
    rfl
  · rw [if_neg (by simp [henout, hf]), if_neg hf]
    rfl

theorem step_numberMode_space (enout : Bool) :
    ArgScan.step ⟨numberMode enout fparm, a, j⟩ space = some ⟨numberMode enout fparm, a, j⟩ := by
  unfold numberMode
  split <;> rfl

theorem step_numberMode_comma (enout : Bool) :
    ArgScan.step ⟨numberMode enout fparm, a, j⟩ comma = some ⟨numberMode true fparm, a, j⟩ := by
  unfold numberMode
  split <;> rfl

/-- A number goes on with a digit. -/
theorem digits_ne_zero {c : UInt8} (hf : ∀ d ∈ fparm, d ≠ 0) (hc : isNumChar c = true) :
    ∀ d ∈ fparm ++ [toUpper c], d ≠ 0 := by
  intro d hd
  rcases List.mem_append.mp hd with hd | hd
  · exact hf d hd
  · rw [List.mem_singleton.mp hd]
    exact toUpper_ne_zero hc

/-- A round that stops at the next argument, or at the end. -/
theorem round_number_stop {str : Str} {enout : Bool} {c : UInt8} (hf : ∀ d ∈ fparm, d ≠ 0)
    (h : inNumber i enout fparm = s) (hc : IsEnd c ∨ enout = true) :
    (s.type = .number → ∀ d ∈ s.fparm, d ≠ 0) ∧ ∃ m t l,
      Round (numberMode enout fparm) m (a + digitsCount fparm) (a + s.count) j (c :: str) i s t
        l := by
  subst h
  refine ⟨fun _ => hf, numberMode enout fparm, [], c :: str, .stop str rfl ?_ ?_⟩
  · exact numberMode_outside enout fparm
  · rcases hc with hc | rfl
    · exact .inl hc
    · exact .inr (.inl (if_pos (.inl rfl)))

/-- A string behind a number, or in its place. -/
theorem round_number_quote {str : Str}
    (h : aparmLoop (quote :: str) (inNumber i false fparm) = some s) :
    s.type = .string ∧ ∃ m t l,
      Round (numberMode false fparm) m (a + digitsCount fparm) (a + s.count) j (quote :: str) i s t
        l := by
  rw [aparmLoop_number_quote] at h
  obtain ⟨htype, t, l, hround⟩ := round_string (a := a + 1) (j := j) h
  rw [AparmState.count_string htype]
  exact ⟨htype, .behind, quote :: t, l, .cons (step_numberMode_quote rfl) hround⟩

/-- In a number, or looking for the next argument. -/
theorem round_number {str : Str} {i : UInt8} {enout : Bool} {fparm : List UInt8}
    (hf : ∀ c ∈ fparm, c ≠ 0) (h : aparmLoop str (inNumber i enout fparm) = some s)
    (hs : s.type ≠ .error) :
    (s.type = .number → ∀ c ∈ s.fparm, c ≠ 0) ∧ ∃ m t l,
      Round (numberMode enout fparm) m (a + digitsCount fparm) (a + s.count) j str i s t l := by
  induction str generalizing i enout fparm with
  | nil => cases h
  | cons c str ih =>
    by_cases hnum : isNumChar c = true
    · cases enout with
      | true =>
        rw [aparmLoop_number_next (.inl hnum)] at h
        exact round_number_stop hf (Option.some_inj.mp h) (.inr rfl)
      | false =>
        rw [aparmLoop_number_char hnum] at h
        obtain ⟨hzero, m, t, l, hround⟩ := ih (digits_ne_zero hf hnum) h
        have hmode : numberMode false (fparm ++ [toUpper c]) = .number := by simp [numberMode]
        have hcount : digitsCount (fparm ++ [toUpper c]) = 1 := by simp [digitsCount]
        rw [hmode, hcount] at hround
        exact ⟨hzero, m, c :: t, l, .cons (step_numberMode_char hnum rfl) hround⟩
    · by_cases hquote : c = quote
      · subst hquote
        cases enout with
        | true =>
          rw [aparmLoop_number_next (.inr rfl)] at h
          exact round_number_stop hf (Option.some_inj.mp h) (.inr rfl)
        | false =>
          obtain ⟨htype, hround⟩ := round_number_quote (a := a) (j := j) h
          refine ⟨fun hn => ?_, hround⟩
          rw [hn] at htype
          cases htype
      · by_cases hspace : c = space
        · subst hspace
          rw [aparmLoop_number_space] at h
          obtain ⟨hzero, m, t, l, hround⟩ := ih hf h
          exact ⟨hzero, m, space :: t, l, .cons (step_numberMode_space enout) hround⟩
        · by_cases hcomma : c = comma
          · subst hcomma
            rw [aparmLoop_number_comma] at h
            obtain ⟨hzero, m, t, l, hround⟩ := ih hf h
            exact ⟨hzero, m, comma :: t, l, .cons (step_numberMode_comma enout) hround⟩
          · by_cases hend : IsEnd c
            · rw [aparmLoop_number_end hend] at h
              exact round_number_stop hf (Option.some_inj.mp h) (.inl hend)
            · rw [aparmLoop_number_fail (by simpa using hnum) hend hquote hspace hcomma] at h
              obtain rfl := Option.some_inj.mp h
              exact absurd rfl hs

/-- A round starts before an argument, or at the comma behind a string. -/
def Ready (m : ArgMode) (str : Str) : Prop := m = .start ∨ m = .behind ∧ ∃ l, str = comma :: l

theorem round_ready {m₀ : ArgMode} {str : Str} (hm : Ready m₀ str)
    (h : aparmLoop str AparmState.start = some s) (hs : s.type ≠ .error) :
    (s.type = .number → ∀ c ∈ s.fparm, c ≠ 0) ∧ ∃ m t l,
      Round m₀ m a (a + s.count) j str 0 s t l := by
  have hempty : ∀ c ∈ ([] : List UInt8), c ≠ 0 := by simp
  rcases hm with rfl | ⟨rfl, str, rfl⟩
  · have hstart : aparmLoop str (inNumber 0 false []) = some s := h
    exact round_number hempty hstart hs
  · rw [show AparmState.start = inNumber 0 false [] from rfl, aparmLoop_number_comma] at h
    obtain ⟨hzero, m, t, l, hround⟩ := round_number (a := a) (j := j) hempty h hs
    exact ⟨hzero, m, comma :: t, l, .cons rfl hround⟩

end Round

/-! ## The loop of `usmart_get_fparam` -/

/-- A round of the loop that does not fail. -/
theorem fparamLoop_ok {fuel : ℕ} {str : Str} {k : UInt8} {d : UsmartDev} {f : Fparam}
    (hk : k.toNat ≤ maxParm) (h : fparamLoop (fuel + 1) str k d = some f) (hok : f.sta = .ok) :
    ∃ s k' d', aparmLoop str AparmState.start = some s ∧ s.type ≠ .error ∧
      ((s.type = .number → ∀ c ∈ s.fparm, c ≠ 0) → k'.toNat = k.toNat + s.count) ∧
      k'.toNat ≤ maxParm ∧ d'.funs = d.funs ∧ d'.id = d.id ∧
      fparamNext fuel (str.drop s.i.toNat) k' d' = some f := by
  have hsucc := toNat_parm_succ hk
  rw [fparamLoop] at h
  obtain ⟨⟨tstr, type, i⟩, hread, h⟩ := Option.bind_eq_some_iff.mp h
  obtain ⟨s, hs, hread⟩ := Option.bind_eq_some_iff.mp hread
  split_ifs at hread
  obtain ⟨rfl, rfl, rfl⟩ : s.fparm = tstr ∧ s.type = type ∧ s.i = i := by simpa using hread
  dsimp only at h
  cases htype : s.type with
  | number =>
    simp only [htype] at h
    by_cases hhead : (s.fparm ++ [0]).head? = some 0
    · rw [if_neg (not_not.mpr hhead)] at h
      refine ⟨s, k, d, hs, by simp [htype], fun hzero => ?_, hk, rfl, rfl, h⟩
      rw [AparmState.count_number htype (hzero htype), if_pos hhead, Nat.add_zero]
    · rw [if_pos hhead] at h
      obtain ⟨⟨e, res⟩, -, h⟩ := Option.bind_eq_some_iff.mp h
      dsimp only at h
      split_ifs at h
      · obtain rfl := Option.some_inj.mp h
        cases hok
      · obtain rfl := Option.some_inj.mp h
        cases hok
      · refine ⟨s, k + 1, _, hs, by simp [htype], fun hzero => ?_, by omega, ?_, ?_, h⟩
        · rw [hsucc, AparmState.count_number htype (hzero htype), if_neg hhead]
        · rfl
        · rfl
  | string =>
    simp only [htype] at h
    split_ifs at h
    · obtain rfl := Option.some_inj.mp h
      cases hok
    · refine ⟨s, k + 1, _, hs, by simp [htype], fun _ => ?_, by omega, ?_, ?_, h⟩
      · rw [hsucc, AparmState.count_string htype]
      · rfl
      · rfl
  | error =>
    simp only [htype] at h
    obtain rfl := Option.some_inj.mp h
    cases hok

/-- The table stays as it is, and not more than ten arguments are stored. -/
theorem fparamLoop_keeps {fuel : ℕ} {str : Str} {k : UInt8} {d : UsmartDev} {f : Fparam}
    (hk : k.toNat ≤ maxParm) (h : fparamLoop fuel str k d = some f) (hok : f.sta = .ok) :
    f.dev.funs = d.funs ∧ f.dev.id = d.id ∧ f.parn.toNat ≤ maxParm := by
  induction fuel generalizing str k d with
  | zero => cases h
  | succ fuel ih =>
    obtain ⟨s, k', d', -, -, -, hk', hfuns, hid, h⟩ := fparamLoop_ok hk h hok
    obtain ⟨c, -, h⟩ := Option.bind_eq_some_iff.mp h
    split_ifs at h
    · obtain rfl := Option.some_inj.mp h
      exact ⟨hfuns, hid, hk'⟩
    · obtain ⟨hfuns', hid', hparn⟩ := ih hk' h
      exact ⟨hfuns'.trans hfuns, hid'.trans hid, hparn⟩

/-- **The loop of `usmart_get_fparam` as a scanner.** If it returns `USMART_OK`, it has read a text
of arguments, stored as many as there are, and stopped at their end. The texts that the scanner
reads must be short, since the offset of a round is a `u8`. -/
theorem fparamLoop_reads {fuel : ℕ} {str : Str} {k : UInt8} {d : UsmartDev} {f : Fparam}
    {m₀ : ArgMode} {a j : ℕ} (hm : Ready m₀ str)
    (hshort : ∀ t l s, str = t ++ l → Scans ArgScan.step ⟨m₀, a, j⟩ t s → t.length < 256)
    (hk : k.toNat ≤ maxParm) (h : fparamLoop fuel str k d = some f) (hok : f.sta = .ok) :
    ∃ t s, str = t ++ f.stop ∧ Scans ArgScan.step ⟨m₀, a, j⟩ t s ∧ s.mode.Outside ∧
      (∃ c l, f.stop = c :: l ∧ IsEnd c) ∧ f.parn.toNat + a = k.toNat + s.args := by
  induction fuel generalizing str k d m₀ a j with
  | zero => cases h
  | succ fuel ih =>
    obtain ⟨s, k', d', hs, htype, hcount, hk', -, -, h⟩ := fparamLoop_ok hk h hok
    obtain ⟨hzero, m, t, l, hround⟩ := round_ready (a := a) (j := j) hm hs htype
    obtain ⟨j', hscan⟩ := hround.scans
    obtain ⟨c, l', rfl, hnext⟩ := hround.next
    have hlen := hshort t _ _ hround.split hscan
    have hdrop : str.drop s.i.toNat = c :: l' := by
      have hi : s.i.toNat = t.length := by
        rw [hround.offset]
        simp
        omega
      rw [hround.split, hi, List.drop_left]
    rw [hdrop] at h
    by_cases hc : IsEnd c
    · rw [fparamNext_end hc] at h
      obtain rfl := Option.some_inj.mp h
      refine ⟨t, _, hround.split, hscan, hround.outside, ⟨c, l', rfl, hc⟩, ?_⟩
      have := hcount hzero
      dsimp only
      omega
    · rw [fparamNext_loop hc] at h
      have hready : Ready m (c :: l') := by
        rcases hnext with he | rfl | ⟨rfl, rfl⟩
        · exact absurd he hc
        · exact .inl rfl
        · exact .inr ⟨rfl, l', rfl⟩
      have hshort' (t' l'' : List UInt8) (s' : ArgScan) (he : c :: l' = t' ++ l'')
          (ht' : Scans ArgScan.step ⟨m, a + s.count, j'⟩ t' s') : t'.length < 256 := by
        have := hshort (t ++ t') l'' s' (by rw [hround.split, he, List.append_assoc])
          (hscan.append ht')
        rw [List.length_append] at this
        omega
      obtain ⟨t', s', hsplit, hscan', houtside, hstop, hargs⟩ := ih hready hshort' hk' h
      refine ⟨t ++ t', s', ?_, hscan.append hscan', houtside, hstop, ?_⟩
      · rw [hround.split, hsplit, List.append_assoc]
      · have := hcount hzero
        omega

/-- Where the arguments of a text end is determined, and so is their number. -/
theorem ArgText.unique {args args' l l' : List UInt8} {c c' : UInt8} {s s' : ArgScan}
    (h : ArgText args s) (hc : IsEnd c) (h' : ArgText args' s') (hc' : IsEnd c')
    (he : args ++ c :: l = args' ++ c' :: l') : args = args' ∧ c :: l = c' :: l' ∧ s = s' := by
  obtain ⟨rfl, hrest⟩ :=
    h.1.stop_unique (ArgScan.step_end h.2 hc) h'.1 (ArgScan.step_end h'.2 hc') he
  exact ⟨rfl, hrest, h.1.det h'.1⟩

section Call

variable {pre str : List UInt8} {d : UsmartDev} {f : Fparam}

theorem usmartGetFparam_eq (hparen : lparen ∉ pre) (h₀ : 0 ∉ pre) (d : UsmartDev) :
    usmartGetFparam (pre ++ lparen :: str) d =
      fparamLoop (str.length + 12) str 0
        { d with bytes := store d.bytes 0 (List.replicate maxParm 0) } := by
  rw [usmartGetFparam, skipToParen_name hparen h₀]
  rfl

theorem usmartGetFparam_keeps (hparen : lparen ∉ pre) (h₀ : 0 ∉ pre)
    (h : usmartGetFparam (pre ++ lparen :: str) d = some f) (hok : f.sta = .ok) :
    f.dev.funs = d.funs ∧ f.dev.id = d.id ∧ f.parn.toNat ≤ maxParm := by
  rw [usmartGetFparam_eq hparen h₀] at h
  have hkeeps := fparamLoop_keeps (k := 0) (by decide) h hok
  exact hkeeps

/-- **`usmart_get_fparam` as a scanner.** If it returns `USMART_OK`, the line has a text of
arguments behind its first parenthesis, the scan stops at its end, and the arguments of the text are
the arguments that were stored. -/
theorem usmartGetFparam_reads (hparen : lparen ∉ pre) (h₀ : 0 ∉ pre)
    (hshort : ∀ t l s, str = t ++ l → Scans ArgScan.step .start t s → t.length < 256)
    (h : usmartGetFparam (pre ++ lparen :: str) d = some f) (hok : f.sta = .ok) :
    ∃ args s c l, str = args ++ c :: l ∧ f.stop = c :: l ∧ IsEnd c ∧ ArgText args s ∧
      f.parn.toNat = s.args := by
  rw [usmartGetFparam_eq hparen h₀] at h
  obtain ⟨args, s, hstr, hscan, houtside, ⟨c, l, hstop, hc⟩, hargs⟩ :=
    fparamLoop_reads (a := 0) (j := 0) (.inl rfl) hshort (by decide) h hok
  rw [hstop] at hstr
  exact ⟨args, s, c, l, hstr, hstop, hc, ⟨hscan, houtside⟩, by simpa using hargs⟩

end Call

/-- A text of arguments that ends in a short line is all that the scanner reads of the line. -/
theorem ArgText.short {args l : List UInt8} {c : UInt8} {s : ArgScan} (h : ArgText args s)
    (hc : IsEnd c) (hlen : args.length < 256) (t l' : List UInt8) (s' : ArgScan)
    (he : args ++ c :: l = t ++ l') (ht : Scans ArgScan.step .start t s') : t.length < 256 :=
  Nat.lt_of_le_of_lt (h.1.length_le (ArgScan.step_end h.2 hc) ht he) hlen

end Usmart

end Enc28j60Udp
