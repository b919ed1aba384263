import Enc28j60Udp.Usmart.Args

/-!
# The arguments of any line

What stands between the parentheses of a line may be anything. `lexArg` says what the first
argument of a text is: digits, or a string with the digits in front of it, or something that must
not be there; it has no result when a string is never closed. `usmart_get_aparm` collects what
`lexArg` says, and where the string is not closed it reads over the terminator
(`aparmLoop_lexArg`).

`lexArgs` takes a text apart, one `lexArg` after the other, up to its end or the first argument
that is in error.
-/

namespace Enc28j60Udp

namespace Usmart

open AparmState

/-! ## The first argument of a text -/

/-- The string behind an opening quote: its characters, and what follows the closing quote. -/
def stringLit : List UInt8 → Option (List UInt8 × List UInt8)
  | [] => none
  | c :: l =>
    if c = quote then some ([], l)
    else if c = backslash then
      match l with
      | [] => none
      | d :: l => (stringLit l).map fun r => (d :: r.1, r.2)
    else (stringLit l).map fun r => (c :: r.1, r.2)

/-- An argument: its type, its text, and what is left behind it. -/
structure Lexed where
  type : Ptype
  text : List UInt8
  rest : List UInt8
  deriving DecidableEq

/-- What is left behind a string. -/
def behindString (l : List UInt8) : List UInt8 := l.dropWhile fun c => c ≠ comma ∧ c ≠ rparen

/-- Behind the comma of a number, the next argument, or the end. -/
def lexNext (digits : List UInt8) : List UInt8 → Lexed
  | [] => ⟨.number, digits, []⟩
  | c :: l =>
    if c = space ∨ c = comma then lexNext digits l
    else if isNumChar c ∨ c = quote ∨ c = rparen then ⟨.number, digits, c :: l⟩
    else ⟨.error, digits, c :: l⟩

/-- The first argument of a text; `digits` is what stands in front. -/
def lexFrom (digits : List UInt8) : List UInt8 → Option Lexed
  | [] => some ⟨.number, digits, []⟩
  | c :: l =>
    if isNumChar c then lexFrom (digits ++ [toUpper c]) l
    else if c = space then lexFrom digits l
    else if c = quote then
      (stringLit l).map fun r => ⟨.string, digits ++ r.1, behindString r.2⟩
    else if c = comma then some (lexNext digits l)
    else if c = rparen then some ⟨.number, digits, c :: l⟩
    else some ⟨.error, digits, c :: l⟩

/-- The first argument of a text. -/
def lexArg (t : List UInt8) : Option Lexed := lexFrom [] t

/-- The end of the arguments. -/
def AtEnd (t : List UInt8) : Prop := t = [] ∨ t.head? = some rparen

instance (t : List UInt8) : Decidable (AtEnd t) := inferInstanceAs (Decidable (_ ∨ _))

/-- `usmart_get_aparm` has read the argument `x` from the text `t`, from the offset `i` on. -/
structure Reads (t : List UInt8) (i : UInt8) (s : AparmState) (x : Lexed) : Prop where
  type_eq : s.type = x.type
  text_eq : s.fparm = x.text
  split : ∃ pre, t = pre ++ x.rest ∧ s.i = i + UInt8.ofNat pre.length

section Round

variable {t : List UInt8} {i : UInt8} {s : AparmState} {x : Lexed} {fparm : List UInt8}

theorem Reads.cons {c : UInt8} (h : Reads t (i + 1) s x) : Reads (c :: t) i s x := by
  obtain ⟨htype, htext, pre, rfl, hi⟩ := h
  refine ⟨htype, htext, c :: pre, rfl, ?_⟩
  rw [hi, List.length_cons, UInt8.ofNat_add, UInt8.add_assoc, UInt8.add_comm 1]
  rfl

/-- The loop stands where it stops. -/
theorem Reads.stop (htype : s.type = x.type) (htext : s.fparm = x.text) (hrest : t = x.rest)
    (hi : s.i = i) : Reads t i s x :=
  ⟨htype, htext, [], by simpa using hrest, by simp [hi]⟩

/-- Every character that is read moves the place. -/
theorem Reads.rel_cons {c : UInt8} {r : Option AparmState} {y : Option Lexed}
    (h : Option.Rel (Reads t (i + 1)) r y) : Option.Rel (Reads (c :: t) i) r y := by
  cases h with
  | none => exact .none
  | some h => exact .some h.cons

/-- Behind a string. -/
theorem aparmLoop_behindString (h₀ : 0 ∉ t) :
    Option.Rel (Reads t i) (aparmLoop (t ++ [0]) (behind i false fparm))
      (some ⟨.string, fparm, behindString t⟩) := by
  induction t generalizing i with
  | nil =>
    rw [List.nil_append, aparmLoop_behind_end (.inr rfl)]
    exact .some (.stop rfl rfl rfl rfl)
  | cons c t ih =>
    rw [List.mem_cons, not_or] at h₀
    by_cases hcomma : c = comma
    · subst hcomma
      rw [List.cons_append, aparmLoop_behind_comma]
      exact .some (.stop rfl rfl rfl rfl)
    · by_cases hend : c = rparen
      · subst hend
        rw [List.cons_append, aparmLoop_behind_end (.inl rfl)]
        exact .some (.stop rfl rfl rfl rfl)
      · have hskip : behindString (c :: t) = behindString t := by
          simp [behindString, hcomma, hend]
        have hstop : ¬IsEnd c := not_or.mpr ⟨hend, Ne.symm h₀.1⟩
        rw [List.cons_append, aparmLoop_behind_char hstop hcomma, hskip]
        exact Reads.rel_cons (ih h₀.2)

theorem stringLit_quote (l : List UInt8) : stringLit (quote :: l) = some ([], l) := by
  rw [stringLit.eq_def]
  rfl

theorem stringLit_escape (d : UInt8) (l : List UInt8) :
    stringLit (backslash :: d :: l) = (stringLit l).map fun r => (d :: r.1, r.2) := rfl

theorem stringLit_char {c : UInt8} (hquote : c ≠ quote) (hback : c ≠ backslash) (l : List UInt8) :
    stringLit (c :: l) = (stringLit l).map fun r => (c :: r.1, r.2) := by
  rw [stringLit.eq_def]
  dsimp only
  rw [if_neg hquote, if_neg hback]

/-- In a string: if it is not closed the terminator is read over. -/
theorem aparmLoop_stringLit {t : List UInt8} {i : UInt8} {fparm : List UInt8} (h₀ : 0 ∉ t) :
    Option.Rel (Reads t i) (aparmLoop (t ++ [0]) (inString i fparm))
      ((stringLit t).map fun r => ⟨.string, fparm ++ r.1, behindString r.2⟩) := by
  match t with
  | [] =>
    rw [List.nil_append, aparmLoop_string_char (by decide) (by decide)]
    exact .none
  | c :: t =>
    rw [List.mem_cons, not_or] at h₀
    by_cases hquote : c = quote
    · subst hquote
      have hbehind := @aparmLoop_behindString t (i + 1) fparm h₀.2
      rw [List.cons_append, aparmLoop_string_quote, stringLit_quote, Option.map_some,
        List.append_nil]
      exact Reads.rel_cons hbehind
    · by_cases hback : c = backslash
      · subst hback
        match t with
        | [] => exact .none
        | d :: t =>
          have hrest := @aparmLoop_stringLit t (i + 1 + 1) (fparm ++ [d])
            fun hmem => h₀.2 (List.mem_cons_of_mem d hmem)
          rw [List.cons_append, List.cons_append, aparmLoop_string_escape, stringLit_escape,
            Option.map_map]
          simp only [List.append_assoc, List.singleton_append] at hrest
          exact Reads.rel_cons (Reads.rel_cons hrest)
      · have hrest := @aparmLoop_stringLit t (i + 1) (fparm ++ [c]) h₀.2
        rw [List.cons_append, aparmLoop_string_char hquote hback, stringLit_char hquote hback,
          Option.map_map]
        simp only [List.append_assoc, List.singleton_append] at hrest
        exact Reads.rel_cons hrest

/-- Looking for the next argument. -/
theorem aparmLoop_lexNext (h₀ : 0 ∉ t) :
    Option.Rel (Reads t i) (aparmLoop (t ++ [0]) (inNumber i true fparm))
      (some (lexNext fparm t)) := by
  induction t generalizing i with
  | nil =>
    rw [List.nil_append, aparmLoop_number_end (.inr rfl)]
    exact .some (.stop rfl rfl rfl rfl)
  | cons c t ih =>
    rw [List.mem_cons, not_or] at h₀
    rw [lexNext, List.cons_append]
    split_ifs with hskip hstop
    · have hrest := Reads.rel_cons (c := c) (ih (i := i + 1) h₀.2)
      rcases hskip with rfl | rfl
      · rwa [aparmLoop_number_space]
      · rwa [aparmLoop_number_comma]
    · rcases hstop with hnum | rfl | rfl
      · rw [aparmLoop_number_next (.inl hnum)]
        exact .some (.stop rfl rfl rfl rfl)
      · rw [aparmLoop_number_next (.inr rfl)]
        exact .some (.stop rfl rfl rfl rfl)
      · rw [aparmLoop_number_end (.inl rfl)]
        exact .some (.stop rfl rfl rfl rfl)
    · simp only [not_or] at hskip hstop
      rw [aparmLoop_number_fail (by simpa using hstop.1)
        (not_or.mpr ⟨hstop.2.2, Ne.symm h₀.1⟩) hstop.2.1 hskip.1 hskip.2]
      exact .some (.stop rfl rfl rfl rfl)

/-- Reading a number, or what is in its place. -/
theorem aparmLoop_lexFrom (h₀ : 0 ∉ t) :
    Option.Rel (Reads t i) (aparmLoop (t ++ [0]) (inNumber i false fparm)) (lexFrom fparm t) := by
  induction t generalizing i fparm with
  | nil =>
    rw [List.nil_append, aparmLoop_number_end (.inr rfl)]
    exact .some (.stop rfl rfl rfl rfl)
  | cons c t ih =>
    rw [List.mem_cons, not_or] at h₀
    rw [lexFrom, List.cons_append]
    split_ifs with hnum hspace hquote hcomma hend
    · rw [aparmLoop_number_char hnum]
      exact Reads.rel_cons (ih h₀.2)
    · subst hspace
      rw [aparmLoop_number_space]
      exact Reads.rel_cons (ih h₀.2)
    · subst hquote
      rw [aparmLoop_number_quote]
      exact Reads.rel_cons (aparmLoop_stringLit h₀.2)
    · subst hcomma
      rw [aparmLoop_number_comma]
      exact Reads.rel_cons (aparmLoop_lexNext h₀.2)
    · rw [aparmLoop_number_end (.inl hend)]
      exact .some (.stop rfl rfl rfl rfl)
    · rw [aparmLoop_number_fail (by simpa using hnum) (not_or.mpr ⟨hend, Ne.symm h₀.1⟩) hquote
        hspace hcomma]
      exact .some (.stop rfl rfl rfl rfl)

/-- **`usmart_get_aparm` on any text** reads its first argument, or over the terminator. -/
theorem aparmLoop_lexArg (h₀ : 0 ∉ t) :
    Option.Rel (Reads t 0) (aparmLoop (t ++ [0]) AparmState.start) (lexArg t) :=
  aparmLoop_lexFrom h₀

theorem Reads.of_rel {r : Option AparmState} (h : Option.Rel (Reads t i) r (some x)) :
    ∃ s, r = some s ∧ Reads t i s x := by
  cases h with
  | some h => exact ⟨_, rfl, h⟩

theorem Reads.rest_suffix (h : Reads t i s x) : x.rest <:+ t := by
  obtain ⟨pre, rfl, -⟩ := h.split
  exact List.suffix_append pre x.rest

/-- Unless it is in error, an argument takes something off the text. -/
theorem lexArg_rest_lt (h₀ : 0 ∉ t) (h : lexArg t = some x) (htype : x.type ≠ .error)
    (hend : ¬AtEnd t) : x.rest.length < t.length := by
  match t with
  | [] => exact absurd (.inl rfl) hend
  | c :: t =>
    rw [List.mem_cons, not_or] at h₀
    have hrest {r : Option AparmState} (hrel : Option.Rel (Reads t 0) r (some x)) :
        x.rest.length < (c :: t).length := by
      obtain ⟨s, -, hreads⟩ := Reads.of_rel hrel
      exact Nat.lt_succ_of_le hreads.rest_suffix.length_le
    rw [lexArg, lexFrom] at h
    split_ifs at h with hnum hspace hquote hcomma hparen
    · exact hrest (h ▸ aparmLoop_lexFrom h₀.2)
    · exact hrest (h ▸ aparmLoop_lexFrom h₀.2)
    · exact hrest (h ▸ @aparmLoop_stringLit t 0 [] h₀.2)
    · exact hrest (h ▸ aparmLoop_lexNext h₀.2)
    · exact absurd (.inr (by rw [hparen]; rfl)) hend
    · obtain rfl := Option.some_inj.mp h
      exact absurd rfl htype

end Round

/-! ## The text of an argument -/

section Text

variable {t fparm : List UInt8} {x : Lexed}

theorem stringLit_text {t : List UInt8} {r : List UInt8 × List UInt8} (h : stringLit t = some r) :
    r.1.length ≤ t.length ∧ r.1 ⊆ t := by
  match t with
  | [] => cases h
  | c :: t =>
    by_cases hquote : c = quote
    · subst hquote
      rw [stringLit_quote] at h
      obtain rfl := Option.some_inj.mp h
      simp
    · by_cases hback : c = backslash
      · subst hback
        match t with
        | [] => cases h
        | d :: t =>
          rw [stringLit_escape] at h
          obtain ⟨r, hr, rfl⟩ := Option.map_eq_some_iff.mp h
          obtain ⟨hlen, hsub⟩ := stringLit_text hr
          refine ⟨by simp only [List.length_cons]; omega, ?_⟩
          exact List.Subset.trans (List.cons_subset_cons d hsub) (List.subset_cons_self _ _)
      · rw [stringLit_char hquote hback] at h
        obtain ⟨r, hr, rfl⟩ := Option.map_eq_some_iff.mp h
        obtain ⟨hlen, hsub⟩ := stringLit_text hr
        exact ⟨by simp only [List.length_cons]; omega, List.cons_subset_cons c hsub⟩

theorem lexNext_text (fparm t : List UInt8) : (lexNext fparm t).text = fparm := by
  induction t with
  | nil => rfl
  | cons c t ih =>
    rw [lexNext]
    split_ifs
    · exact ih
    · rfl
    · rfl

/-- The text of an argument is not longer than the text it is read from, and has no terminator. -/
theorem lexFrom_text (h₀ : 0 ∉ t) (hf : 0 ∉ fparm) (h : lexFrom fparm t = some x) :
    x.text.length ≤ fparm.length + t.length ∧ 0 ∉ x.text := by
  induction t generalizing fparm with
  | nil =>
    obtain rfl := Option.some_inj.mp h
    exact ⟨by simp, hf⟩
  | cons c t ih =>
    rw [List.mem_cons, not_or] at h₀
    rw [lexFrom] at h
    rw [List.length_cons]
    split_ifs at h with hnum hspace hquote hcomma hparen
    · have hne := (toUpper_ne_zero hnum).symm
      obtain ⟨hlen, hzero⟩ := ih h₀.2 (by simp [hf, hne]) h
      rw [List.length_append, List.length_singleton] at hlen
      exact ⟨by omega, hzero⟩
    · obtain ⟨hlen, hzero⟩ := ih h₀.2 hf h
      exact ⟨by omega, hzero⟩
    · obtain ⟨r, hr, rfl⟩ := Option.map_eq_some_iff.mp h
      obtain ⟨hlen, hsub⟩ := stringLit_text hr
      rw [List.length_append]
      refine ⟨by omega, fun hmem => ?_⟩
      rcases List.mem_append.mp hmem with hmem | hmem
      · exact hf hmem
      · exact h₀.2 (hsub hmem)
    · obtain rfl := Option.some_inj.mp h
      rw [lexNext_text]
      exact ⟨by omega, hf⟩
    · obtain rfl := Option.some_inj.mp h
      exact ⟨Nat.le_add_right _ _, hf⟩
    · obtain rfl := Option.some_inj.mp h
      exact ⟨Nat.le_add_right _ _, hf⟩

theorem lexArg_text (h₀ : 0 ∉ t) (h : lexArg t = some x) :
    x.text.length ≤ t.length ∧ 0 ∉ x.text := by
  obtain ⟨hlen, hzero⟩ := lexFrom_text h₀ (by simp) h
  exact ⟨by simpa using hlen, hzero⟩

end Text

/-! ## All arguments -/

/-- How the arguments of a text end: at its end or a closing parenthesis, at one that is in error,
or in a string that is not closed. -/
inductive Ending
  | closed
  | malformed
  | opened
  deriving DecidableEq

/-- What becomes of an argument: it is an error, or nothing, or it takes this many bytes. -/
inductive Effect
  | fail
  | skip
  | store (len : ℕ)
  deriving DecidableEq

/-- A number takes four bytes, and a string those of its characters and a terminator. -/
def Lexed.effect (x : Lexed) : Effect :=
  match x.type with
  | .error => .fail
  | .string => .store (x.text.length + 1)
  | .number =>
    if x.text = [] then .skip else if IsNumber x.text then .store 4 else .fail

/-- The bytes that the arguments of a text take, and how they end. -/
def lexArgs : ℕ → List UInt8 → List ℕ × Ending
  | 0, _ => ([], .closed)
  | fuel + 1, t =>
    match lexArg t with
    | none => ([], .opened)
    | some x =>
      let more := if AtEnd x.rest then ([], .closed) else lexArgs fuel x.rest
      match x.effect with
      | .fail => ([], .malformed)
      | .skip => more
      | .store len => (len :: more.1, more.2)

section Args

variable {t : List UInt8} {x : Lexed} {fuel : ℕ}

theorem lexArgs_none (h : lexArg t = none) : lexArgs (fuel + 1) t = ([], .opened) := by
  rw [lexArgs, h]

theorem lexArgs_fail (h : lexArg t = some x) (he : x.effect = .fail) :
    lexArgs (fuel + 1) t = ([], .malformed) := by
  simp only [lexArgs, h, he]

/-- What `lexArgs` finds behind an argument. -/
def lexMore (fuel : ℕ) (t : List UInt8) : List ℕ × Ending :=
  if AtEnd t then ([], .closed) else lexArgs fuel t

theorem lexArgs_skip (h : lexArg t = some x) (he : x.effect = .skip) :
    lexArgs (fuel + 1) t = lexMore fuel x.rest := by
  simp only [lexArgs, lexMore, h, he]

theorem lexArgs_store {len : ℕ} (h : lexArg t = some x) (he : x.effect = .store len) :
    lexArgs (fuel + 1) t = (len :: (lexMore fuel x.rest).1, (lexMore fuel x.rest).2) := by
  simp only [lexArgs, lexMore, h, he]

theorem Lexed.effect_error (h : x.type = .error) : x.effect = .fail := by
  rw [effect, h]

/-- A string that is not closed has no argument. -/
theorem usmartGetAparm_none (h₀ : 0 ∉ t) (h : lexArg t = none) (size : ℕ) :
    usmartGetAparm (t ++ [0]) size = none := by
  have hrel := aparmLoop_lexArg h₀
  rw [h] at hrel
  rw [usmartGetAparm]
  cases hrun : aparmLoop (t ++ [0]) AparmState.start with
  | none => rfl
  | some s =>
    rw [hrun] at hrel
    cases hrel

/-- What `usmart_get_aparm` hands over, if it fits the buffer. -/
theorem usmartGetAparm_some (h₀ : 0 ∉ t) (hlen : t.length < 256) (h : lexArg t = some x)
    (size : ℕ) :
    ∃ i : UInt8, usmartGetAparm (t ++ [0]) size =
        (if x.text.length < size then some (x.text, x.type, i) else none) ∧
      (t ++ [0]).drop i.toNat = x.rest ++ [0] := by
  obtain ⟨s, hrun, htype, htext, pre, hsplit, hi⟩ := Reads.of_rel (h ▸ aparmLoop_lexArg h₀)
  refine ⟨s.i, ?_, ?_⟩
  · rw [usmartGetAparm, hrun, Option.bind_eq_bind, Option.bind_some, htype, htext]
  · have hpre : s.i.toNat = pre.length := by
      rw [hsplit, List.length_append] at hlen
      rw [hi, UInt8.zero_add]
      exact UInt8.toNat_ofNat_of_lt' (show _ < 256 by omega)
    rw [hpre, hsplit, List.append_assoc, List.drop_left]

end Args

end Usmart

end Enc28j60Udp
