import Enc28j60Udp.Usmart.Decl

/-!
# What a declaration says

The table of USMART is written as C is: a return type, at least one space or star, the name, and
the parameters, with spaces where C has them. `usmart_get_fname` tells a function without a result
by the first five characters of its declaration: they are `void`, and no star behind it.

For every such `Prototype` the name, the number of parameters and the result are found, but for the
one parameter that is taken for `void` (`usmartGetFname_prototype`).
-/

namespace Enc28j60Udp

namespace Usmart

open FnameState

/-- A declaration whose return type is `void`, or does not start as `void` does, with what separates
it from the name, and spaces in front of the parameters. -/
structure Prototype extends Decl where
  type : List UInt8
  sep : List UInt8
  blank : ℕ
  rtype_eq : rtype = type ++ sep
  type_cases : type = voidText ∨ ∃ c t, type = c :: t ∧ c ≠ 0x76 ∧ c ≠ space
  sep_ne : sep ≠ []
  sep_char : ∀ c ∈ sep, c = space ∨ c = star
  blank_length : (declText rtype name gap params).length + blank < 2 ^ 8

namespace Prototype

/-- The text of the declaration. -/
def fullText (p : Prototype) : List UInt8 :=
  p.type ++ p.sep ++ (p.name ++ List.replicate p.gap space) ++
    lparen :: (List.replicate p.blank space ++ joinParams p.params ++ [rparen])

/-- The function has no result: its type is `void`, and no pointer to it. -/
def ReturnsVoid (p : Prototype) : Prop := p.type = voidText ∧ star ∉ p.sep

instance (p : Prototype) : Decidable p.ReturnsVoid := inferInstanceAs (Decidable (_ ∧ _))

/-- `usmart_get_fname` succeeds with the name, the number of parameters and the result. -/
def IsRead (p : Prototype) (rest : Str) (rval : UInt8) : Prop :=
  ∃ f, usmartGetFname (p.fullText ++ 0 :: rest) rval = some f ∧ f.sta = .ok ∧ f.fname = p.name ∧
    f.pnum.toNat = p.pnum ∧ (f.rval = 0 ↔ p.ReturnsVoid)

end Prototype

/-! ## The return type -/

section Rtype

variable {str : Str} {fp fp' : List UInt8}

/-- What is in `fpname` stays there. -/
theorem prefix_of_rtypeLoop (h : rtypeLoop str fp = some fp') : fp <+: fp' := by
  induction str generalizing fp with
  | nil => cases h
  | cons c str ih =>
    rw [rtypeLoop] at h
    split_ifs at h
    · exact Option.some_inj.mp h ▸ List.prefix_rfl
    · exact Option.some_inj.mp h ▸ List.prefix_rfl
    · exact (List.prefix_append fp [c]).trans (ih h)
    · exact Option.some_inj.mp h ▸ List.prefix_rfl
    · exact ih h

/-- The first character of the declaration is the first of `fpname`. -/
theorem rtypeLoop_head {c : UInt8} (hc : c ≠ 0 ∧ c ≠ space)
    (h : rtypeLoop (c :: str) [] = some fp) : ∃ t, fp = c :: t := by
  rw [rtypeLoop, if_neg hc.1, if_pos ⟨hc.2, by simp⟩, if_neg (by simp)] at h
  obtain ⟨t, rfl⟩ := prefix_of_rtypeLoop h
  exact ⟨t, rfl⟩

/-- Behind `void`, spaces are skipped. -/
theorem rtypeLoop_space (hfp : fp.length = 4) : rtypeLoop (space :: str) fp = rtypeLoop str fp := by
  rw [rtypeLoop, if_neg (by decide), if_neg fun h => h.1 rfl, if_neg (by omega)]

/-- Behind `void`, a star is taken. -/
theorem rtypeLoop_star (hfp : fp.length = 4) (h : rtypeLoop (star :: str) fp = some fp') :
    fp ++ [star] <+: fp' := by
  rw [rtypeLoop, if_neg (by decide), if_pos ⟨by decide, by omega⟩, if_neg fun h => h.2 rfl] at h
  exact prefix_of_rtypeLoop h

/-- Behind `void`, another character ends the loop. -/
theorem rtypeLoop_char {c : UInt8} (hfp : fp.length = 4) (hc : c ≠ 0 ∧ c ≠ space ∧ c ≠ star) :
    rtypeLoop (c :: str) fp = some fp := by
  rw [rtypeLoop, if_neg hc.1, if_pos ⟨hc.2.1, by omega⟩, if_pos ⟨hfp, hc.2.2⟩]

/-- Behind `void` and its separator, `fpname` holds `void` unless a star was among it. -/
theorem rtypeLoop_sep {sep : List UInt8} {c : UInt8} (hsep : ∀ d ∈ sep, d = space ∨ d = star)
    (hc : c ≠ 0 ∧ c ≠ space ∧ c ≠ star) (hfp : fp.length = 4)
    (h : rtypeLoop (sep ++ c :: str) fp = some fp') : fp' = fp ↔ star ∉ sep := by
  induction sep with
  | nil =>
    rw [List.nil_append, rtypeLoop_char hfp hc] at h
    simp [Option.some_inj.mp h]
  | cons d sep ih =>
    rw [List.cons_append] at h
    rcases hsep d (by simp) with rfl | rfl
    · rw [rtypeLoop_space hfp] at h
      have hne : ¬star = space := by decide
      rw [ih (fun e he => hsep e (by simp [he])) h, List.mem_cons, or_iff_right hne]
    · refine iff_of_false (fun hsame => ?_) (by simp)
      have hlen := (rtypeLoop_star hfp h).length_le
      rw [hsame, List.length_append, List.length_singleton] at hlen
      omega

end Rtype

namespace Prototype

variable (p : Prototype)

/-- `fpname` holds `void` just when the function has no result. -/
theorem rtypeLoop_iff {str : Str} {fp : List UInt8}
    (h : rtypeLoop (p.type ++ p.sep ++ (p.name ++ str)) [] = some fp) :
    fp ≠ [] ∧ (usmartStrcmp fp voidText = 0 ↔ p.ReturnsVoid) := by
  obtain ⟨c, name, hname⟩ := List.exists_cons_of_ne_nil p.name_ne
  obtain ⟨hspace, hstar, -, -, -, hzero⟩ := isIdentChar_ne (p.name_char c (by simp [hname]))
  rw [usmartStrcmp_eq_zero, ReturnsVoid]
  rcases p.type_cases with hvoid | ⟨d, t, ht, hv, hd⟩
  · have hfour : rtypeLoop (p.type ++ p.sep ++ (p.name ++ str)) [] =
        rtypeLoop (p.sep ++ c :: (name ++ str)) voidText := by
      rw [hvoid, hname]
      rfl
    rw [hfour] at h
    have hsep := rtypeLoop_sep p.sep_char ⟨hzero, hspace, hstar⟩ rfl h
    obtain ⟨t, rfl⟩ := prefix_of_rtypeLoop h
    exact ⟨by simp [voidText], by simp only [hvoid, true_and, hsep]⟩
  · have hd₀ : d ≠ 0 := (p.rtype_char d (by simp [p.rtype_eq, ht])).2
    rw [ht, List.append_assoc, List.cons_append] at h
    obtain ⟨u, rfl⟩ := rtypeLoop_head ⟨hd₀, hd⟩ h
    refine ⟨by simp, iff_of_false (fun hu => ?_) fun hvoid => ?_⟩
    · exact hv (List.cons.inj hu).1
    · exact hv (List.cons.inj (ht.symm.trans hvoid.1)).1

end Prototype

/-! ## The parameters -/

/-- Spaces behind the opening parenthesis are not counted. -/
theorem foldl_blank (k : ℕ) (name : List UInt8) :
    (List.replicate k space).foldl FnameState.step (inside name) = inside name := by
  induction k with
  | zero => rfl
  | succ k ih => exact ih

theorem balanced_blank (k : ℕ) : Balanced (List.replicate k space) := by
  induction k with
  | zero => exact .nil
  | succ k ih => exact .cons rfl ih

namespace Prototype

variable (p : Prototype)

/-- What the scan of a declaration leaves. -/
theorem usmartGetFname_fullText (rest : Str) (rval : UInt8) :
    ∃ f, usmartGetFname (p.fullText ++ 0 :: rest) rval = some f ∧ f.sta = .ok ∧
      f.fname = p.name ∧ f.pnum.toNat = p.counted ∧ (f.rval = 0 ↔ p.ReturnsVoid) := by
  have hlen := p.blank_length
  simp only [declText, List.length_append, List.length_cons] at hlen
  have hfold : (List.replicate p.blank space ++ joinParams p.params).foldl FnameState.step
      (inside p.name) = (joinParams p.params).foldl FnameState.step (inside p.name) := by
    rw [List.foldl_append, foldl_blank]
  have hzero : 0 ∉ List.replicate p.blank space ++ joinParams p.params := by
    have hspace : ¬((0 : UInt8) = space) := by decide
    simp [zero_notMem_joinParams, hspace]
  obtain ⟨fp, hfp, hrun⟩ := p.usmartGetFname_head
    ((balanced_blank p.blank).append (balanced_joinParams p.params)) hzero (by simp; omega)
    (by rw [hfold, p.parmnum_params]) (by rw [hfold, p.fpname_params]) rest rval
  have htext : p.fullText ++ 0 :: rest = p.rtype ++ (p.name ++ List.replicate p.gap space) ++
      lparen :: (List.replicate p.blank space ++ joinParams p.params ++ rparen :: 0 :: rest) := by
    simp [fullText, p.rtype_eq]
  rw [htext]
  refine ⟨_, hrun, rfl, rfl, UInt8.toNat_ofNat_of_lt' p.counted_lt, ?_⟩
  rw [p.rtype_eq, List.append_assoc _ (_ ++ _), List.append_assoc p.name] at hfp
  obtain ⟨hne, hvoid⟩ := p.rtypeLoop_iff hfp
  rw [if_neg hne, ← hvoid]
  split_ifs with h <;> simp [h]

/-- **Declarations.** A declaration is read as it says just when its only parameter is not a type
and a name that spell `void` together. -/
theorem usmartGetFname_prototype (rest : Str) (rval : UInt8) :
    p.IsRead rest rval ↔ ¬p.Misread := by
  obtain ⟨f, hrun, hsta, hname, hpnum, hrval⟩ := p.usmartGetFname_fullText rest rval
  constructor
  · rintro ⟨f', hrun', -, -, hpnum', -⟩ hmis
    obtain rfl := Option.some_inj.mp (hrun.symm.trans hrun')
    rw [hpnum, hmis.counted, hmis.pnum] at hpnum'
    exact absurd hpnum' (by omega)
  · intro hmis
    exact ⟨f, hrun, hsta, hname, by rw [hpnum, Decl.counted_eq hmis], hrval⟩

/-- `u8 f(vo id)`. -/
def voId : Prototype where
  rtype := [0x75, 0x38, 0x20]
  name := [0x66]
  gap := 0
  params := [⟨[0x76, 0x6F, 0x20, 0x69, 0x64], by decide⟩]
  rtype_char := by simp [lparen]
  rtype_length := by simp
  rtype_last := by simp [space]
  name_char := by simp [isIdentChar, isDecChar]
  name_ne := by simp
  name_length := by simp [maxFnameLen]
  length_lt := by simp [declText, joinParams]
  type := [0x75, 0x38]
  sep := [0x20]
  blank := 0
  rtype_eq := rfl
  type_cases := .inr ⟨0x75, [0x38], rfl, by simp [space]⟩
  sep_ne := by simp
  sep_char := by simp [space]
  blank_length := by simp [declText, joinParams]

/-- Its parameter is not counted. -/
theorem not_isRead_voId : ¬voId.IsRead [] 0 := by
  rintro ⟨f, hrun, -, -, hpnum, -⟩
  have hcount : (usmartGetFname (voId.fullText ++ [0]) 0).map (·.pnum.toNat) = some 0 := by
    decide +kernel
  rw [hrun, Option.map_some, hpnum] at hcount
  exact absurd hcount (by decide)

end Prototype

end Usmart

end Enc28j60Udp
