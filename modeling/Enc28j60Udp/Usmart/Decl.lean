import Enc28j60Udp.Usmart.Fname
import Mathlib.Data.List.TakeWhile

/-!
# Declarations

The table of USMART holds the declarations of the functions: a return type, the name and the
parameters, as in `void write_addr(u32 addr,u32 val)`. A parameter may have parentheses with commas
of its own, as a function pointer does. `usmart_get_fname` finds the name behind the last space or
star in front of the parenthesis, and counts a parameter at its first character.

It counts the one parameter `void` as none. What it compares is the first word of the list without
its spaces and opening parentheses, so that a type `vo` with the parameter `id` counts as `void`
too: such a declaration is `Misread`.
-/

namespace Enc28j60Udp

namespace Usmart

open FnameState

/-! ## Parameters -/

/-- The characters of an identifier. -/
def isIdentChar (c : UInt8) : Bool :=
  isDecChar c || (0x41 ≤ c && c ≤ 0x5A) || (0x61 ≤ c && c ≤ 0x7A) || c == 0x5F

/-- The depth of the parentheses in a parameter, and whether a parameter has yet to begin. -/
structure ParamScan where
  depth : ℕ
  pending : Bool
  deriving DecidableEq

/-- A parameter begins with a type. A comma inside its parentheses is followed by another parameter
of the function that it points to. -/
def ParamScan.step (s : ParamScan) (c : UInt8) : Option ParamScan :=
  if c = lparen then
    if s.depth = 0 ∧ s.pending = true then none else some ⟨s.depth + 1, false⟩
  else if c = rparen then
    if s.depth = 0 ∨ s.pending = true then none else some ⟨s.depth - 1, false⟩
  else if c = comma then
    if s.depth = 0 ∨ s.pending = true then none else some ⟨s.depth, true⟩
  else if c = space then some s
  else if c = quote ∨ c = 0 then none
  else some ⟨s.depth, false⟩

/-- A parameter of a declaration. -/
structure Param where
  text : List UInt8
  wf : Scans ParamScan.step ⟨0, true⟩ text ⟨0, false⟩

/-- The first word of a list of parameters as the code collects it. -/
def firstWord (l : List UInt8) : List UInt8 :=
  (l.takeWhile (· ≠ comma)).filter fun c => c ≠ space ∧ c ≠ lparen

theorem firstWord_comma (l : List UInt8) : firstWord (comma :: l) = [] := rfl

theorem firstWord_skip {c : UInt8} (hc : c = space ∨ c = lparen) (l : List UInt8) :
    firstWord (c :: l) = firstWord l := by
  rcases hc with rfl | rfl <;> rfl

theorem firstWord_char {c : UInt8} (hc : c ≠ comma ∧ c ≠ space ∧ c ≠ lparen) (l : List UInt8) :
    firstWord (c :: l) = c :: firstWord l := by
  simp [firstWord, hc]

namespace Param

/-- The parameter is `void`. -/
def IsVoid (p : Param) : Prop := p.text.filter (· ≠ space) = voidText ∧ voidText <:+: p.text

instance (p : Param) : Decidable p.IsVoid := inferInstanceAs (Decidable (_ ∧ _))

/-- A parameter that is `void` is read so. -/
theorem IsVoid.firstWord {p : Param} (h : p.IsVoid) : firstWord p.text = voidText := by
  have hmem {c : UInt8} (hc : c ∈ p.text) (hs : c ≠ space) : c ∈ voidText := by
    rw [← h.1]
    exact List.mem_filter.mpr ⟨hc, by simpa using hs⟩
  have hcomma : p.text.takeWhile (· ≠ comma) = p.text := by
    rw [List.takeWhile_eq_self_iff]
    intro c hc
    rw [decide_eq_true_eq]
    rintro rfl
    exact absurd (hmem hc (by decide)) (by decide)
  rw [Usmart.firstWord, hcomma, ← h.1]
  refine List.filter_congr fun c hc => ?_
  have hparen : c ≠ space → c ≠ lparen := by
    rintro hs rfl
    exact absurd (hmem hc hs) (by decide)
  by_cases hs : c = space
  · simp [hs]
  · simp [hs, hparen hs]

end Param

/-- The parameters, separated by commas. -/
def joinParams : List Param → List UInt8
  | [] => []
  | [p] => p.text
  | p :: ps => p.text ++ comma :: joinParams ps

theorem joinParams_cons_cons (p q : Param) (ps : List Param) :
    joinParams (p :: q :: ps) = p.text ++ comma :: joinParams (q :: ps) := rfl

/-! ## Declarations -/

/-- The text of a declaration. -/
def declText (rtype name : List UInt8) (gap : ℕ) (params : List Param) : List UInt8 :=
  rtype ++ (name ++ List.replicate gap space) ++ lparen :: (joinParams params ++ [rparen])

/-- A declaration: the return type with what separates it from the name, the name, the number of
spaces behind it, and the parameters. The code counts characters with `u8` variables. -/
structure Decl where
  rtype : List UInt8
  name : List UInt8
  gap : ℕ
  params : List Param
  rtype_char : ∀ c ∈ rtype, c ≠ lparen ∧ c ≠ 0
  rtype_length : 2 ≤ rtype.length
  rtype_last : ∀ c ∈ rtype.getLast?, c = space ∨ c = star
  name_char : ∀ c ∈ name, isIdentChar c = true
  name_ne : name ≠ []
  name_length : name.length < maxFnameLen
  length_lt : (declText rtype name gap params).length < 2 ^ 8

namespace Decl

variable (d : Decl)

/-- The text of the declaration. -/
def text : List UInt8 := declText d.rtype d.name d.gap d.params

/-- The number of parameters. -/
def pnum : ℕ :=
  match d.params with
  | [p] => if p.IsVoid then 0 else 1
  | ps => ps.length

/-- The number of parameters that the code counts. -/
def counted : ℕ :=
  match d.params with
  | [p] => if firstWord p.text = voidText then 0 else 1
  | ps => ps.length

/-- The one parameter is taken for `void`, but it is not. -/
def Misread : Prop := ∃ p, d.params = [p] ∧ firstWord p.text = voidText ∧ ¬p.IsVoid

variable {d}

theorem counted_singleton {p : Param} (h : d.params = [p]) :
    d.counted = if firstWord p.text = voidText then 0 else 1 := by
  rw [counted, h]

theorem pnum_singleton {p : Param} (h : d.params = [p]) : d.pnum = if p.IsVoid then 0 else 1 := by
  rw [pnum, h]

theorem counted_of_ne (h : d.params.length ≠ 1) : d.counted = d.params.length := by
  unfold counted
  split
  · rename_i p hp
    exact absurd (congrArg List.length hp) h
  · rfl

theorem pnum_of_ne (h : d.params.length ≠ 1) : d.pnum = d.params.length := by
  unfold pnum
  split
  · rename_i p hp
    exact absurd (congrArg List.length hp) h
  · rfl

theorem counted_eq (h : ¬d.Misread) : d.counted = d.pnum := by
  by_cases hp : d.params.length = 1
  · obtain ⟨p, hp⟩ := List.length_eq_one_iff.mp hp
    rw [counted_singleton hp, pnum_singleton hp]
    by_cases hv : p.IsVoid
    · rw [if_pos hv.firstWord, if_pos hv]
    · rw [if_neg fun hw => h ⟨p, hp, hw, hv⟩, if_neg hv]
  · rw [counted_of_ne hp, pnum_of_ne hp]

theorem Misread.counted (h : d.Misread) : d.counted = 0 := by
  obtain ⟨p, hp, hw, -⟩ := h
  rw [counted_singleton hp, if_pos hw]

theorem Misread.pnum (h : d.Misread) : d.pnum = 1 := by
  obtain ⟨p, hp, -, hv⟩ := h
  rw [pnum_singleton hp, if_neg hv]

end Decl

/-! ## Counting the parameters -/

/-- The steps of the scanner of a parameter. -/
theorem ParamScan.step_cases {p p' : ParamScan} {c : UInt8} (h : p.step c = some p') :
    (c = lparen ∧ (p.depth = 0 → p.pending = false) ∧ p' = ⟨p.depth + 1, false⟩) ∨
    (c = rparen ∧ p.depth ≠ 0 ∧ p.pending = false ∧ p' = ⟨p.depth - 1, false⟩) ∨
    (c = comma ∧ p.depth ≠ 0 ∧ p.pending = false ∧ p' = ⟨p.depth, true⟩) ∨
    (c = space ∧ p' = p) ∨
    (c ≠ lparen ∧ c ≠ rparen ∧ c ≠ comma ∧ c ≠ space ∧ c ≠ quote ∧ c ≠ 0 ∧
      p' = ⟨p.depth, false⟩) := by
  unfold ParamScan.step at h
  split_ifs at h <;> grind

theorem ParamScan.nest {p p' : ParamScan} {c : UInt8} (h : p.step c = some p') :
    Nest.step ⟨p.depth, false⟩ c = some ⟨p'.depth, false⟩ := by
  obtain ⟨rfl, -, rfl⟩ | ⟨rfl, hd, -, rfl⟩ | ⟨rfl, -, -, rfl⟩ | ⟨rfl, rfl⟩ |
    ⟨hl, hr, -, -, hq, -, rfl⟩ := step_cases h
  · rfl
  · exact if_neg hd
  · rfl
  · rfl
  · simp [Nest.step, hl, hr, hq]

/-- The loop in a parameter, with `k` parameters counted before it and `n` characters to come. -/
structure Counts (k n : ℕ) (s : FnameState) (p : ParamScan) : Prop where
  follows : s.Follows ⟨p.depth, false⟩
  depth_le : p.depth + n < 254
  temp_le : s.temp.toNat + n < 256 ∧ 3 + n < 256
  parmnum_le : k + 1 + n < 256
  parmnum : s.parmnum.toNat = if p.depth = 0 ∧ p.pending = true then k else k + 1
  fresh : p.depth = 0 ∧ p.pending = true → s.temp.toNat = 1
  counted : p.depth = 0 ∧ p.pending = false → 3 ≤ s.temp.toNat
  nested : p.depth = 1 ∧ p.pending = false → 2 ≤ s.temp.toNat
  pos : 1 ≤ s.temp.toNat

theorem Counts.step {k n : ℕ} {s : FnameState} {p p' : ParamScan} {c : UInt8}
    (h : Counts k (n + 1) s p) (hc : p.step c = some p') : Counts k n (s.step c) p' := by
  obtain ⟨hfollows, hdepth, htemp, hparm, hnum, hfresh, hcounted, hnested, hpos⟩ := h
  have hnest := ParamScan.nest hc
  obtain ⟨ht, hm⟩ := hfollows.step_counts (by simp; omega) hnest (by omega)
  have hm' : (s.step c).parmnum.toNat =
      if p'.depth = 0 ∧ tempAfter s.temp.toNat c = 2 then s.parmnum.toNat + 1
      else s.parmnum.toNat := by
    rw [hm]
    split_ifs at hnum ⊢ <;> simp <;> omega
  have hfollows' := hfollows.step (by simp; omega) hnest
  dsimp only at ht
  obtain ⟨rfl, hp, rfl⟩ | ⟨rfl, hd, hp, rfl⟩ | ⟨rfl, hd, hp, rfl⟩ | ⟨rfl, rfl⟩ |
    ⟨hl, hr, hcm, hs, -, -, rfl⟩ := ParamScan.step_cases hc
  · have htemp' : tempAfter s.temp.toNat lparen = s.temp.toNat := rfl
    constructor <;> grind
  · have htemp' : tempAfter s.temp.toNat rparen = s.temp.toNat + 1 := rfl
    constructor <;> grind
  · have htemp' : tempAfter s.temp.toNat comma = 1 := rfl
    constructor <;> grind
  · have htemp' : tempAfter s.temp.toNat space = s.temp.toNat := rfl
    constructor <;> grind
  · have htemp' : tempAfter s.temp.toNat c = s.temp.toNat + 1 := by simp [tempAfter, hcm, hs, hl]
    constructor <;> grind

/-- Behind a parameter that begins with a fresh count, one more is counted. -/
theorem Counts.param {k n : ℕ} {s : FnameState} (p : Param)
    (h : Counts k (n + p.text.length) s ⟨0, true⟩) :
    Counts k n (p.text.foldl FnameState.step s) ⟨0, false⟩ := by
  have hrel := Scans.foldl_rel (R := fun m => Counts k (n + m)) (f := FnameState.step)
    (fun m x p c p' h hc => h.step hc) p.wf h
  exact hrel

/-- A comma between parameters starts a fresh count. -/
theorem Counts.comma {k n : ℕ} {s : FnameState} (h : Counts k (n + 1) s ⟨0, false⟩) :
    Counts (k + 1) n (s.step comma) ⟨0, true⟩ := by
  obtain ⟨hfollows, hdepth, htemp, hparm, hnum, -, -, -, hpos⟩ := h
  have hnest : Nest.step ⟨0, false⟩ Usmart.comma = some ⟨0, false⟩ := rfl
  obtain ⟨ht, hm⟩ := hfollows.step_counts (by simp) hnest (by omega)
  have htemp' : tempAfter s.temp.toNat Usmart.comma = 1 := rfl
  rw [htemp'] at ht hm
  have hm' : (s.step Usmart.comma).parmnum = s.parmnum := by simpa using hm
  have ht' : (s.step Usmart.comma).temp.toNat = 1 := by simpa using ht
  dsimp only at hdepth
  exact ⟨hfollows.step (by simp) hnest, by dsimp only; omega, by omega, by omega,
    by simp [hm', hnum], fun _ => ht', by simp, by simp, by omega⟩

/-- The parameters are counted. -/
theorem parmnum_joinParams {k : ℕ} {s : FnameState} (ps : List Param)
    (h : Counts k (joinParams ps).length s ⟨0, true⟩) :
    ((joinParams ps).foldl FnameState.step s).parmnum.toNat = k + ps.length := by
  match ps with
  | [] => simpa [joinParams] using h.parmnum
  | [p] =>
    have hp : Counts k (0 + p.text.length) s ⟨0, true⟩ := by simpa [joinParams] using h
    simpa [joinParams] using (hp.param p).parmnum
  | p :: q :: ps =>
    have hlen : (joinParams (p :: q :: ps)).length =
        (joinParams (q :: ps)).length + 1 + p.text.length := by
      simp only [joinParams_cons_cons, List.length_append, List.length_cons]
      omega
    rw [hlen] at h
    have ih := parmnum_joinParams (q :: ps) (h.param p).comma
    rw [joinParams_cons_cons, List.foldl_append, List.foldl_cons, ih]
    simp only [List.length_cons]
    omega

/-- The parameters are balanced. -/
theorem balanced_joinParams (ps : List Param) : Balanced (joinParams ps) := by
  have hparam (p : Param) : Balanced p.text :=
    p.wf.hom (f := fun s : ParamScan => (⟨s.depth, false⟩ : Nest))
      fun s a s' hs => ParamScan.nest hs
  match ps with
  | [] => exact .nil
  | [p] => exact hparam p
  | p :: q :: ps => exact (hparam p).append (.cons rfl (balanced_joinParams (q :: ps)))

theorem zero_notMem_joinParams (ps : List Param) : 0 ∉ joinParams ps := by
  have hparam (p : Param) : 0 ∉ p.text := by
    intro h
    obtain ⟨a, b, hab⟩ := List.append_of_mem h
    have hwf := p.wf
    rw [hab] at hwf
    obtain ⟨s, -, hs⟩ := scans_append.mp hwf
    obtain ⟨s', hs', -⟩ := scans_cons.mp hs
    cases hs'
  match ps with
  | [] => simp [joinParams]
  | [p] => exact hparam p
  | p :: q :: ps =>
    have ih := zero_notMem_joinParams (q :: ps)
    have hcomma : (0 : UInt8) ≠ comma := by decide
    simp [joinParams_cons_cons, hparam p, hcomma, ih]

/-- The first word of the parameters, of which five characters are kept. -/
theorem fpname_foldl {l : List UInt8} {n n' : Nest} {s : FnameState} (h : s.Follows n)
    (hl : Scans Nest.step n l n') (hd : n.depth + l.length < 255)
    (hp : s.pcnt.toNat + l.length < 256) (hf : s.fpname.length ≤ 5) :
    (l.foldl FnameState.step s).fpname =
      if s.pcnt = 0 then (s.fpname ++ firstWord l).take 5 else s.fpname := by
  induction l generalizing n s with
  | nil => simp [firstWord, List.take_of_length_le hf]
  | cons c l ih =>
    obtain ⟨m, hc, htail⟩ := scans_cons.mp hl
    rw [List.length_cons] at hd hp
    have hdepth := Nest.depth_step_le hc
    obtain ⟨hword, hpcnt⟩ := h.step_word (by omega) hc
    have hfollows := h.step (by omega) hc
    rw [List.foldl_cons]
    by_cases hcomma : c = comma
    · subst hcomma
      have hadd : (s.pcnt + 1).toNat = s.pcnt.toNat + 1 := toNat_add_one (by omega)
      have hne : ¬s.pcnt + 1 = 0 := by
        rw [← UInt8.toNat_inj, hadd]
        simp
      rw [if_neg fun hw => hw.1.1 rfl] at hword
      rw [if_pos rfl] at hpcnt
      rw [ih hfollows htail (by omega) (by rw [hpcnt, hadd]; omega) (by rwa [hword]), hpcnt, hword,
        if_neg hne, firstWord_comma, List.append_nil, List.take_of_length_le hf, ite_self]
    · rw [if_neg hcomma] at hpcnt
      by_cases hskip : c = space ∨ c = lparen
      · rw [if_neg (by tauto)] at hword
        rw [ih hfollows htail (by omega) (by rw [hpcnt]; omega) (by rwa [hword]), hpcnt, hword,
          firstWord_skip hskip]
      · have hchar : c ≠ comma ∧ c ≠ space ∧ c ≠ lparen := by tauto
        rw [firstWord_char hchar]
        by_cases hmore : s.pcnt = 0 ∧ s.fpname.length < 5
        · rw [if_pos ⟨hchar, hmore⟩] at hword
          have hlen : (s.step c).fpname.length ≤ 5 := by
            rw [hword, List.length_append, List.length_singleton]
            exact hmore.2
          rw [ih hfollows htail (by omega) (by rw [hpcnt]; omega) hlen, hpcnt, hword,
            List.append_assoc, List.singleton_append, if_pos hmore.1, if_pos hmore.1]
        · rw [if_neg fun hw => hmore hw.2] at hword
          rw [ih hfollows htail (by omega) (by rw [hpcnt]; omega) (by rwa [hword]), hpcnt, hword]
          split_ifs with h₀
          · have hfive : s.fpname.length = 5 := by
              have := not_and.mp hmore h₀
              omega
            rw [List.take_left' hfive, List.take_left' hfive]
          · rfl

/-! ## The name of a declaration -/

/-- The loop over the return type ends in front of the terminator. -/
theorem exists_rtypeLoop {str : Str} (h : 0 ∈ str) (fp : List UInt8) :
    ∃ fp', rtypeLoop str fp = some fp' := by
  induction str generalizing fp with
  | nil => cases h
  | cons c str ih =>
    rw [rtypeLoop]
    have hmem (hc : ¬c = 0) : 0 ∈ str := by
      rcases List.mem_cons.mp h with h | h
      · exact absurd h.symm hc
      · exact h
    split_ifs with hc
    · exact ⟨fp, rfl⟩
    · exact ⟨fp, rfl⟩
    · exact ih (hmem hc) _
    · exact ⟨fp, rfl⟩
    · exact ih (hmem hc) fp

theorem exists_skipSpaces {str : Str} {c : UInt8} (h : c ∈ str) (hc : c ≠ space) :
    ∃ d, skipSpaces str = some d := by
  induction str with
  | nil => cases h
  | cons d str ih =>
    rw [skipSpaces]
    by_cases hd : d = space
    · rw [if_pos hd]
      rcases List.mem_cons.mp h with rfl | h
      · exact absurd hd hc
      · exact ih h
    · exact ⟨d, if_neg hd⟩

theorem skipSpaces_replicate (k : ℕ) {c : UInt8} (hc : c ≠ space) (str : Str) :
    skipSpaces (List.replicate k space ++ c :: str) = some c := by
  induction k with
  | zero => exact if_neg hc
  | succ k ih => exact ih

theorem isIdentChar_ne {c : UInt8} (hc : isIdentChar c = true) :
    c ≠ space ∧ c ≠ star ∧ c ≠ lparen ∧ c ≠ rparen ∧ c ≠ quote ∧ c ≠ 0 := by
  have hout {d : UInt8} (hd : isIdentChar d = false) : c ≠ d := by
    rintro rfl
    exact Bool.false_ne_true (hd.symm.trans hc)
  exact ⟨hout rfl, hout rfl, hout rfl, hout rfl, hout rfl, hout rfl⟩

section Offset

variable {c : UInt8} {res off : UInt8} {str : Str} {name : List UInt8}

/-- A character in front of one that is neither space nor star. -/
theorem offsetLoop_char {d : UInt8} (hc : c ≠ lparen ∧ c ≠ 0) (hd : d ≠ space ∧ d ≠ star) :
    offsetLoop (c :: d :: str) res off = offsetLoop (d :: str) (res + 1) off := by
  rw [offsetLoop, if_neg (by tauto)]
  simp only [List.head?_cons]
  rw [if_neg (by tauto)]

/-- A character in front of a space or star. -/
theorem offsetLoop_sep {d nchar : UInt8} (hc : c ≠ lparen ∧ c ≠ 0) (hd : d = space ∨ d = star)
    (hn : skipSpaces str = some nchar) :
    offsetLoop (c :: d :: str) res off =
      offsetLoop (d :: str) (res + 1)
        (if nchar ≠ lparen ∧ nchar ≠ star then res + 1 else off) := by
  rw [offsetLoop, if_neg (by tauto)]
  simp only [List.head?_cons]
  rw [if_pos hd, usmartSearchNextc, List.tail_cons, hn]
  rfl

/-- The spaces behind the name are not taken for its start. -/
theorem offsetLoop_gap (hc : c ≠ lparen ∧ c ≠ 0) (k : ℕ) :
    offsetLoop (c :: (List.replicate k space ++ lparen :: str)) res off = some off := by
  induction k generalizing c res with
  | zero =>
    rw [List.replicate_zero, List.nil_append, offsetLoop_char hc (by decide), offsetLoop,
      if_pos (.inl rfl)]
  | succ k ih =>
    rw [List.replicate_succ, List.cons_append,
      offsetLoop_sep hc (.inl rfl) (skipSpaces_replicate k (by decide) str), if_neg (by decide)]
    exact ih (by decide)

/-- Neither are the characters of the name. -/
theorem offsetLoop_name (hc : c ≠ lparen ∧ c ≠ 0) (hname : ∀ d ∈ name, isIdentChar d = true)
    (k : ℕ) :
    offsetLoop (c :: (name ++ List.replicate k space ++ lparen :: str)) res off = some off := by
  induction name generalizing c res with
  | nil => exact offsetLoop_gap hc k
  | cons d name ih =>
    obtain ⟨hspace, hstar, hparen, -, -, h₀⟩ := isIdentChar_ne (hname d (by simp))
    rw [List.cons_append, List.cons_append, offsetLoop_char hc ⟨hspace, hstar⟩]
    exact ih ⟨hparen, h₀⟩ fun e he => hname e (by simp [he])

/-- The last space or star in front of the name is found. -/
theorem offsetLoop_rtype {pre : List UInt8} {sep : UInt8} (hpre : pre ≠ [])
    (hchar : ∀ c ∈ pre, c ≠ lparen ∧ c ≠ 0) (hsep : sep = space ∨ sep = star)
    (hname : ∀ d ∈ name, isIdentChar d = true) (hne : name ≠ []) (k : ℕ) :
    offsetLoop (pre ++ sep :: (name ++ List.replicate k space ++ lparen :: str)) res off =
      some (res + UInt8.ofNat pre.length) := by
  induction pre generalizing res off with
  | nil => exact absurd rfl hpre
  | cons c pre ih =>
    have hc := hchar c (by simp)
    cases pre with
    | nil =>
      obtain ⟨e, name, rfl⟩ := List.exists_cons_of_ne_nil hne
      obtain ⟨hspace, hstar, hparen, -⟩ := isIdentChar_ne (hname e (by simp))
      have hskip : skipSpaces (e :: name ++ List.replicate k space ++ lparen :: str) = some e :=
        if_neg hspace
      have hsep' : sep ≠ lparen ∧ sep ≠ 0 := by
        rcases hsep with rfl | rfl <;> decide
      rw [List.singleton_append, offsetLoop_sep hc hsep hskip, if_pos ⟨hparen, hstar⟩,
        offsetLoop_name hsep' hname]
      rfl
    | cons d pre =>
      have hlen : res + UInt8.ofNat (c :: d :: pre).length =
          res + 1 + UInt8.ofNat (d :: pre).length := by
        rw [List.length_cons, UInt8.ofNat_add, UInt8.add_assoc, UInt8.add_comm (UInt8.ofNat _)]
        rfl
      have hih (off' : UInt8) :
          offsetLoop (d :: pre ++ sep :: (name ++ List.replicate k space ++ lparen :: str))
            (res + 1) off' = some (res + 1 + UInt8.ofNat (d :: pre).length) :=
        ih (by simp) fun c hc => hchar c (List.mem_cons_of_mem _ hc)
      rw [hlen, List.cons_append, List.cons_append]
      by_cases hd : d = space ∨ d = star
      · obtain ⟨n, hn⟩ : ∃ n, skipSpaces
            (pre ++ sep :: (name ++ List.replicate k space ++ lparen :: str)) = some n :=
          exists_skipSpaces (c := lparen) (by simp) (by decide)
        rw [offsetLoop_sep hc hd hn]
        exact hih _
      · rw [offsetLoop_char hc (by tauto)]
        exact hih off

end Offset

theorem usmartStrcmp_eq_zero {s t : List UInt8} : usmartStrcmp s t = 0 ↔ s = t := by
  induction s generalizing t with
  | nil => cases t <;> simp [usmartStrcmp]
  | cons c s ih =>
    cases t with
    | nil => simp [usmartStrcmp]
    | cons d t =>
      rw [usmartStrcmp]
      by_cases hcd : c = d
      · simp [hcd, ih]
      · simp [hcd]

/-! ## The scan of a declaration -/

/-- The parameters do not change the name. -/
theorem fname_foldl {l : List UInt8} {n n' : Nest} {s : FnameState} (h : s.Follows n)
    (hl : Scans Nest.step n l n') (hd : n.depth + l.length < 254) :
    (l.foldl FnameState.step s).fname = s.fname := by
  have hrel := Scans.foldl_rel (f := FnameState.step)
    (R := fun k x m => (x.Follows m ∧ m.depth + k < 254) ∧ x.fname = s.fname)
    (fun k x m c m' hx hc => by
      obtain ⟨⟨hfollows, hdepth⟩, hname⟩ := hx
      have hle := Nest.depth_step_le hc
      have hnest := hfollows.nest (by omega) hc
      refine ⟨⟨hfollows.step (by omega) hc, by omega⟩, ?_⟩
      rw [FnameState.step, count_fname hnest.ne_zero, nest_fname, hname])
    hl ⟨⟨h, hd⟩, rfl⟩
  exact hrel.2

/-- Five characters are enough to tell `void` from other words. -/
theorem take_eq_voidText {l : List UInt8} : l.take 5 = voidText ↔ l = voidText := by
  constructor
  · intro h
    have hlen := congrArg List.length h
    rw [List.length_take] at hlen
    rwa [List.take_of_length_le (by simp [voidText] at hlen; omega)] at h
  · rintro rfl
    rfl

namespace Decl

variable (d : Decl)

/-- The part in front of the parameters, with what follows. -/
theorem exists_head (str : Str) : ∃ pre sep, d.rtype = pre ++ [sep] ∧ pre ≠ [] ∧
    (sep = space ∨ sep = star) ∧
    d.rtype ++ (d.name ++ List.replicate d.gap space) ++ lparen :: str =
      pre ++ sep :: (d.name ++ List.replicate d.gap space ++ lparen :: str) := by
  have hne : d.rtype ≠ [] := by
    intro h
    have := d.rtype_length
    simp [h] at this
  have hsplit := (List.dropLast_append_getLast hne).symm
  refine ⟨d.rtype.dropLast, d.rtype.getLast hne, hsplit, ?_, ?_, ?_⟩
  · have := d.rtype_length
    rw [← List.length_pos_iff, List.length_dropLast]
    omega
  · exact d.rtype_last _ (by rw [List.getLast?_eq_getLast_of_ne_nil hne]; rfl)
  · conv_lhs => rw [hsplit]
    simp

theorem parmnum_params :
    ((joinParams d.params).foldl FnameState.step (inside d.name)).parmnum.toNat =
      d.params.length := by
  have hlen := d.length_lt
  have hrtype := d.rtype_length
  simp only [declText, List.length_append, List.length_cons] at hlen
  have hcounts : Counts 0 (joinParams d.params).length (inside d.name) ⟨0, true⟩ :=
    ⟨follows_inside _, by simp; omega, by simp [inside]; omega, by omega, by simp [inside],
      by simp [inside], by simp, by simp, by simp [inside]⟩
  rw [parmnum_joinParams d.params hcounts, Nat.zero_add]

theorem counted_lt : d.counted < 256 := by
  by_cases hp : d.params.length = 1
  · obtain ⟨p, hp⟩ := List.length_eq_one_iff.mp hp
    rw [counted_singleton hp]
    split_ifs <;> simp
  · rw [counted_of_ne hp, ← d.parmnum_params]
    exact UInt8.toNat_lt _

/-- The number of parameters of the result. -/
theorem counted_of_foldl {s : FnameState} (hnum : s.parmnum.toNat = d.params.length)
    (hword : s.fpname = (firstWord (joinParams d.params)).take 5) :
    (if s.parmnum = 1 ∧ usmartStrcmp s.fpname voidText = 0 then 0 else s.parmnum) =
      UInt8.ofNat d.counted := by
  have hparm : s.parmnum = UInt8.ofNat d.params.length := by rw [← hnum, UInt8.ofNat_toNat]
  have hone : s.parmnum = 1 ↔ d.params.length = 1 := by
    rw [← UInt8.toNat_inj, hnum]
    rfl
  simp only [usmartStrcmp_eq_zero, hword, hone]
  by_cases hp : d.params.length = 1
  · obtain ⟨p, hp⟩ := List.length_eq_one_iff.mp hp
    simp only [hp, List.length_singleton, true_and, joinParams, take_eq_voidText,
      counted_singleton hp]
    split_ifs
    · rfl
    · simp [hparm, hp]
  · rw [if_neg fun h => hp h.1, counted_of_ne hp, hparm]

/-- The offset that the first loop finds is that of the name. -/
theorem exists_offset (str : Str) :
    ∃ off : UInt8, off ≠ 0 ∧
      offsetLoop (d.rtype ++ (d.name ++ List.replicate d.gap space) ++ lparen :: str) 0 0 =
        some off ∧
      (d.rtype ++ (d.name ++ List.replicate d.gap space) ++ lparen :: str).drop (off.toNat + 1) =
        d.name ++ List.replicate d.gap space ++ lparen :: str := by
  obtain ⟨pre, sep, hrtype, hpre, hsep, htext⟩ := d.exists_head str
  have hlen := d.length_lt
  simp only [declText, hrtype, List.length_append, List.length_cons] at hlen
  have hchar : ∀ c ∈ pre, c ≠ lparen ∧ c ≠ 0 := fun c hc => d.rtype_char c (by simp [hrtype, hc])
  have htoNat : (UInt8.ofNat pre.length).toNat = pre.length :=
    UInt8.toNat_ofNat_of_lt' (show _ < 256 by omega)
  refine ⟨UInt8.ofNat pre.length, ?_, ?_, ?_⟩
  · rw [Ne, ← UInt8.toNat_inj, htoNat]
    simpa using hpre
  · rw [htext, offsetLoop_rtype hpre hchar hsep d.name_char d.name_ne, UInt8.zero_add]
  · rw [htext, htoNat, List.drop_append, List.drop_eq_nil_of_le (by omega)]
    simp

/-- From the name on, the second loop reads the name, then what is between the parentheses. -/
theorem fnameLoop_name {l : List UInt8} (hl : Balanced l) (h₀ : 0 ∉ l) (hlen : l.length < 254)
    (rest : Str) :
    fnameLoop (d.name ++ List.replicate d.gap space ++ lparen :: (l ++ rparen :: 0 :: rest))
        FnameState.start =
      some (.ok, { l.foldl FnameState.step (inside d.name) with fover := 0 },
        rparen :: 0 :: rest) := by
  have hname : (d.name ++ List.replicate d.gap space).filter (· ≠ space) = d.name := by
    rw [List.filter_append, List.filter_eq_self.mpr fun c hc => by
      simpa using (isIdentChar_ne (d.name_char c hc)).1]
    simp
  have hchar (c : UInt8) (hc : c ∈ d.name ++ List.replicate d.gap space) :
      c ≠ lparen ∧ c ≠ rparen ∧ c ≠ quote ∧ c ≠ 0 := by
    rcases List.mem_append.mp hc with hc | hc
    · obtain ⟨-, -, hl, hr, hq, h₀⟩ := isIdentChar_ne (d.name_char c hc)
      exact ⟨hl, hr, hq, h₀⟩
    · rw [List.eq_of_mem_replicate hc]
      decide
  have hnaming : fnameLoop (d.name ++ List.replicate d.gap space ++
        lparen :: (l ++ rparen :: 0 :: rest)) (naming []) =
      fnameLoop (l ++ rparen :: 0 :: rest)
        (inside ([] ++ (d.name ++ List.replicate d.gap space).filter (· ≠ space))) :=
    fnameLoop_naming (fun c hc => ⟨(hchar c hc).1, (hchar c hc).2.1⟩)
      (fun h => (hchar 0 h).2.2.2 rfl) fun h => (hchar quote h).2.2.1 rfl
  rw [List.nil_append, hname] at hnaming
  refine hnaming.trans ?_
  exact fnameLoop_scans (follows_inside _) hl h₀ (by simp; omega)

/-- The scan of a declaration with any text between the parentheses that leaves the count and the
first word of its parameters. -/
theorem usmartGetFname_head {l : List UInt8} (hl : Balanced l) (h₀ : 0 ∉ l) (hlen : l.length < 254)
    (hnum : (l.foldl FnameState.step (inside d.name)).parmnum.toNat = d.params.length)
    (hword : (l.foldl FnameState.step (inside d.name)).fpname =
      (firstWord (joinParams d.params)).take 5) (rest : Str) (rval : UInt8) :
    let str := d.rtype ++ (d.name ++ List.replicate d.gap space) ++
      lparen :: (l ++ rparen :: 0 :: rest)
    ∃ fp, rtypeLoop str [] = some fp ∧
      usmartGetFname str rval =
        some ⟨.ok, d.name, UInt8.ofNat d.counted,
          if fp = [] then rval else if usmartStrcmp fp voidText = 0 then 0 else 1,
          rparen :: 0 :: rest⟩ := by
  intro str
  have hzero : 0 ∈ str := by simp [str]
  obtain ⟨fp, hfp⟩ := exists_rtypeLoop hzero []
  obtain ⟨off, hne, hoff, hdrop⟩ := d.exists_offset (l ++ rparen :: 0 :: rest)
  have hrun := d.fnameLoop_name hl h₀ hlen rest
  have hfname := fname_foldl (follows_inside d.name) hl (by simp; omega)
  refine ⟨fp, hfp, ?_⟩
  rw [usmartGetFname, hfp, hoff]
  simp only [Option.bind_eq_bind, Option.bind_some, if_neg hne, str, hdrop, hrun]
  rw [d.counted_of_foldl hnum hword, hfname, if_pos (by exact d.name_length)]
  rfl

/-- The first word of the parameters. -/
theorem fpname_params :
    ((joinParams d.params).foldl FnameState.step (inside d.name)).fpname =
      (firstWord (joinParams d.params)).take 5 := by
  have hlen := d.length_lt
  simp only [declText, List.length_append, List.length_cons] at hlen
  exact fpname_foldl (follows_inside d.name) (balanced_joinParams _) (by simp; omega)
    (by simp [inside]; omega) (by simp [inside])

/-- **The scan of a declaration** finds the name and counts the parameters. -/
theorem usmartGetFname_text (rest : Str) (rval : UInt8) :
    ∃ fp, rtypeLoop (d.text ++ 0 :: rest) [] = some fp ∧
      usmartGetFname (d.text ++ 0 :: rest) rval =
        some ⟨.ok, d.name, UInt8.ofNat d.counted,
          if fp = [] then rval else if usmartStrcmp fp voidText = 0 then 0 else 1,
          rparen :: 0 :: rest⟩ := by
  have hlen := d.length_lt
  have htext : d.text ++ 0 :: rest = d.rtype ++ (d.name ++ List.replicate d.gap space) ++
      lparen :: (joinParams d.params ++ rparen :: 0 :: rest) := by
    simp [text, declText]
  simp only [declText, List.length_append, List.length_cons] at hlen
  rw [htext]
  exact d.usmartGetFname_head (balanced_joinParams _) (zero_notMem_joinParams _) (by omega)
    d.parmnum_params d.fpname_params rest rval

end Decl

end Usmart

end Enc28j60Udp
