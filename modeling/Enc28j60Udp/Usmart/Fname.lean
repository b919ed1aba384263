import Enc28j60Udp.Usmart.Aparm
import Enc28j60Udp.Foundations.Scanner

/-!
# `usmart_get_fname` as a scanner

Behind the name, the main loop of `usmart_get_fname` keeps two things that decide where it stops:
the depth of the parentheses, and whether the number of quotes read so far is odd. `Nest` is the
scanner of these, and a text that it reads from depth 0 to depth 0 is `Balanced`. The loop stops
behind a balanced text, at the parenthesis that closes the call, and nowhere else.
-/

namespace Enc28j60Udp

namespace Usmart

/-! ## Balanced texts -/

/-- The depth of the parentheses, and whether the place is between two quotes. -/
structure Nest where
  depth : ℕ
  quoted : Bool
  deriving DecidableEq

/-- A parenthesis between quotes does not count; a quote counts also where it is escaped. The
parenthesis that closes the text is not read. -/
def Nest.step (s : Nest) (c : UInt8) : Option Nest :=
  if c = lparen ∧ s.quoted = false then some { s with depth := s.depth + 1 }
  else if c = rparen ∧ s.quoted = false then
    if s.depth = 0 then none else some { s with depth := s.depth - 1 }
  else if c = quote then some { s with quoted := !s.quoted }
  else some s

/-- The parentheses and quotes of the text come in pairs. -/
def Balanced (l : List UInt8) : Prop := Scans Nest.step ⟨0, false⟩ l ⟨0, false⟩

instance (l : List UInt8) : Decidable (Balanced l) := inferInstanceAs (Decidable (Scans _ _ _ _))

@[simp] theorem Nest.step_rparen : Nest.step ⟨0, false⟩ rparen = none := rfl

theorem Nest.step_eq_none {s : Nest} {c : UInt8} (h : s.step c = none) :
    c = rparen ∧ s = ⟨0, false⟩ := by
  obtain ⟨depth, quoted⟩ := s
  grind [Nest.step]

theorem Nest.depth_step_le {s s' : Nest} {c : UInt8} (h : s.step c = some s') :
    s'.depth ≤ s.depth + 1 := by
  unfold Nest.step at h
  split_ifs at h <;> cases h <;> simp
  omega

/-! ## A round of the main loop -/

namespace FnameState

/-- The part of a round that looks at parentheses and quotes. -/
def nest (s : FnameState) (c : UInt8) : FnameState :=
  if c = lparen ∧ s.nchar = false then { s with fover := s.fover + 1 }
  else if c = rparen ∧ s.nchar = false then { s with fover := s.fover - 1 }
  else if c = quote then { s with nchar := !s.nchar }
  else s

/-- A round that does not leave the loop. -/
def step (s : FnameState) (c : UInt8) : FnameState := (s.nest c).count c

/-- Behind the name, a comma starts a new argument, and other characters are counted. -/
def read (s : FnameState) (c : UInt8) : FnameState :=
  if c = comma then { s with temp := 1, pcnt := s.pcnt + 1 }
  else if c ≠ space ∧ c ≠ lparen then
    { s with
      fpname := if s.pcnt = 0 ∧ s.fpname.length < 5 then s.fpname ++ [c] else s.fpname
      temp := s.temp + 1 }
  else s

/-- An argument is counted at its first character. -/
def mark (s : FnameState) : FnameState :=
  if s.fover = 1 ∧ s.temp = 2 then { s with temp := s.temp + 1, parmnum := s.parmnum + 1 } else s

/-- Behind the parenthesis that opens the arguments. -/
def inside (name : List UInt8) : FnameState := ⟨1, 0, 1, 0, false, [], name⟩

/-- The loop and the scanner are at the same depth, and agree on the quotes. -/
def Follows (s : FnameState) (n : Nest) : Prop :=
  s.fover.toNat = n.depth + 1 ∧ s.nchar = n.quoted

theorem follows_inside (name : List UInt8) : (inside name).Follows ⟨0, false⟩ := ⟨rfl, rfl⟩

variable {s : FnameState} {n n' : Nest} {c : UInt8}

theorem Follows.ne_zero (h : s.Follows n) : s.fover ≠ 0 := by
  rintro h₀
  have hdepth := h.1
  rw [h₀] at hdepth
  simp at hdepth

@[simp] theorem mark_fover : s.mark.fover = s.fover := by unfold mark; split <;> rfl

@[simp] theorem mark_nchar : s.mark.nchar = s.nchar := by unfold mark; split <;> rfl

@[simp] theorem mark_fname : s.mark.fname = s.fname := by unfold mark; split <;> rfl

@[simp] theorem mark_fpname : s.mark.fpname = s.fpname := by unfold mark; split <;> rfl

@[simp] theorem mark_pcnt : s.mark.pcnt = s.pcnt := by unfold mark; split <;> rfl

@[simp] theorem read_fover : (s.read c).fover = s.fover := by unfold read; split_ifs <;> rfl

@[simp] theorem read_nchar : (s.read c).nchar = s.nchar := by unfold read; split_ifs <;> rfl

@[simp] theorem read_fname : (s.read c).fname = s.fname := by unfold read; split_ifs <;> rfl

@[simp] theorem read_parmnum : (s.read c).parmnum = s.parmnum := by unfold read; split_ifs <;> rfl

/-- In the name, everything but a space is copied. -/
theorem count_name (h : s.fover = 0) :
    s.count c = if c ≠ space then { s with fname := s.fname ++ [c] } else s := by
  rw [count, if_pos h]

theorem count_inside (h : s.fover ≠ 0) : s.count c = (s.read c).mark := by
  rw [count, if_neg h]
  rfl

@[simp] theorem count_fover : (s.count c).fover = s.fover := by
  by_cases h : s.fover = 0
  · rw [count_name h]
    split <;> rfl
  · simp [count_inside h]

@[simp] theorem count_nchar : (s.count c).nchar = s.nchar := by
  by_cases h : s.fover = 0
  · rw [count_name h]
    split <;> rfl
  · simp [count_inside h]

theorem count_fname (h : s.fover ≠ 0) : (s.count c).fname = s.fname := by
  simp [count_inside h]

theorem fname_prefix_count : s.fname <+: (s.count c).fname := by
  by_cases h : s.fover = 0
  · rw [count_name h]
    split <;> simp
  · exact ⟨[], by rw [count_fname h, List.append_nil]⟩

@[simp] theorem nest_fname : (s.nest c).fname = s.fname := by unfold nest; split_ifs <;> rfl

/-- The loop keeps up with the scanner. -/
theorem Follows.nest (h : s.Follows n) (hd : n.depth + 2 < 256) (hc : n.step c = some n') :
    (s.nest c).Follows n' := by
  obtain ⟨hover, hquoted⟩ := h
  have hadd : (s.fover + 1).toNat = s.fover.toNat + 1 := toNat_add_one (by omega)
  have hsub (hpos : n.depth ≠ 0) : (s.fover - 1).toNat = s.fover.toNat - 1 := by
    have hle : (1 : UInt8) ≤ s.fover := by simp [UInt8.le_iff_toNat_le, hover]
    exact UInt8.toNat_sub_of_le _ _ hle
  unfold Nest.step at hc
  unfold Follows FnameState.nest
  rw [hquoted]
  split_ifs at hc ⊢ <;> cases hc <;> grind

theorem Follows.step (h : s.Follows n) (hd : n.depth + 2 < 256) (hc : n.step c = some n') :
    (s.step c).Follows n' := by
  have hnest := h.nest hd hc
  constructor
  · rw [FnameState.step, count_fover, hnest.1]
  · rw [FnameState.step, count_nchar, hnest.2]

/-- `temp` behind a character, before an argument is counted. -/
def tempAfter (t : ℕ) (c : UInt8) : ℕ :=
  if c = comma then 1 else if c ≠ space ∧ c ≠ lparen then t + 1 else t

theorem read_temp (h : s.temp.toNat + 1 < 256) :
    (s.read c).temp.toNat = tempAfter s.temp.toNat c := by
  have hsucc : (s.temp + 1).toNat = s.temp.toNat + 1 := toNat_add_one h
  unfold read tempAfter
  by_cases hcomma : c = comma
  · simp [hcomma]
  · by_cases hskip : c ≠ space ∧ c ≠ lparen
    · simp only [if_neg hcomma, if_pos hskip, hsucc]
    · simp only [if_neg hcomma, if_neg hskip]

/-- The depth and the number of characters decide whether an argument is counted. -/
theorem mark_counts (s : FnameState) (d : ℕ) (hd : s.fover.toNat = d + 1) :
    s.mark.temp.toNat = (if d = 0 ∧ s.temp.toNat = 2 then 3 else s.temp.toNat) ∧
      s.mark.parmnum = if d = 0 ∧ s.temp.toNat = 2 then s.parmnum + 1 else s.parmnum := by
  have hover : s.fover = 1 ↔ d = 0 := by
    rw [← UInt8.toNat_inj, hd]
    simp
  have htemp : s.temp = 2 ↔ s.temp.toNat = 2 := by
    rw [← UInt8.toNat_inj]
    rfl
  unfold mark
  simp only [hover, htemp]
  split_ifs with h
  · exact ⟨by simp [h.2], rfl⟩
  · exact ⟨rfl, rfl⟩

@[simp] theorem nest_temp : (s.nest c).temp = s.temp := by unfold nest; split_ifs <;> rfl

@[simp] theorem nest_parmnum : (s.nest c).parmnum = s.parmnum := by unfold nest; split_ifs <;> rfl

/-- What a round behind the name counts. -/
theorem Follows.step_counts (h : s.Follows n) (hd : n.depth + 2 < 256) (hc : n.step c = some n')
    (ht : s.temp.toNat + 1 < 256) :
    (s.step c).temp.toNat =
        (if n'.depth = 0 ∧ tempAfter s.temp.toNat c = 2 then 3 else tempAfter s.temp.toNat c) ∧
      (s.step c).parmnum =
        if n'.depth = 0 ∧ tempAfter s.temp.toNat c = 2 then s.parmnum + 1 else s.parmnum := by
  have hnest := h.nest hd hc
  have hmark := mark_counts ((s.nest c).read c) n'.depth (by rw [read_fover, hnest.1])
  rwa [read_temp (by simpa using ht), read_parmnum, nest_temp, nest_parmnum,
    ← count_inside hnest.ne_zero] at hmark

@[simp] theorem nest_fpname : (s.nest c).fpname = s.fpname := by unfold nest; split_ifs <;> rfl

@[simp] theorem nest_pcnt : (s.nest c).pcnt = s.pcnt := by unfold nest; split_ifs <;> rfl

/-- What a round behind the name keeps of the first argument. -/
theorem Follows.step_word (h : s.Follows n) (hd : n.depth + 2 < 256) (hc : n.step c = some n') :
    (s.step c).fpname =
        (if (c ≠ comma ∧ c ≠ space ∧ c ≠ lparen) ∧ s.pcnt = 0 ∧ s.fpname.length < 5 then
          s.fpname ++ [c] else s.fpname) ∧
      (s.step c).pcnt = if c = comma then s.pcnt + 1 else s.pcnt := by
  have hnest := h.nest hd hc
  rw [FnameState.step, count_inside hnest.ne_zero, mark_fpname, mark_pcnt]
  unfold FnameState.read
  rw [nest_fpname, nest_pcnt]
  split_ifs <;> simp_all

end FnameState

open FnameState

/-! ## The main loop -/

section Loop

variable {s s' : FnameState} {n : Nest} {c : UInt8} {str stop : Str} {sta : Sta}

/-- A round at a character that the scanner reads. -/
theorem fnameLoop_step {n' : Nest} (h : s.Follows n) (hc : n.step c = some n') (h₀ : c ≠ 0) :
    fnameLoop (c :: str) s = fnameLoop str (s.step c) := by
  have hover : ¬s.fover = 0 := h.ne_zero
  have hone : c = rparen ∧ s.nchar = false → ¬s.fover = 1 := by
    rintro ⟨rfl, hq⟩ h₁
    obtain ⟨hdepth, hquoted⟩ := h
    rw [h₁] at hdepth
    obtain ⟨depth, quoted⟩ := n
    obtain rfl : depth = 0 := by simpa using hdepth.symm
    obtain rfl : quoted = false := hquoted.symm.trans hq
    cases hc
  rw [fnameLoop, if_neg h₀, FnameState.step, FnameState.nest]
  split_ifs <;> simp_all

/-- At the parenthesis that the scanner stops at, the loop ends. -/
theorem fnameLoop_close (h : s.Follows ⟨0, false⟩) :
    fnameLoop (rparen :: str) s = some (.ok, { s with fover := 0 }, rparen :: str) := by
  have hone : s.fover = 1 := by
    rw [← UInt8.toNat_inj, h.1]
    rfl
  rw [fnameLoop, if_neg (by decide), if_neg fun h => absurd h.1 (by decide), if_pos ⟨rfl, h.2⟩]
  simp [hone]

/-- The loop stops behind a text that the scanner reads. -/
theorem fnameLoop_scans {l : List UInt8} (h : s.Follows n) (hl : Scans Nest.step n l ⟨0, false⟩)
    (h₀ : 0 ∉ l) (hd : n.depth + l.length + 1 < 256) :
    fnameLoop (l ++ rparen :: str) s =
      some (.ok, { l.foldl FnameState.step s with fover := 0 }, rparen :: str) := by
  induction l generalizing n s with
  | nil =>
    obtain rfl := scans_nil.mp hl
    exact fnameLoop_close h
  | cons c l ih =>
    obtain ⟨n', hc, hl⟩ := scans_cons.mp hl
    rw [List.mem_cons, not_or] at h₀
    rw [List.length_cons] at hd
    have hdepth := Nest.depth_step_le hc
    rw [List.cons_append, fnameLoop_step h hc (Ne.symm h₀.1), List.foldl_cons]
    exact ih (h.step (by omega) hc) hl h₀.2 (by omega)

/-- The loop leaves a line with success only behind a text that the scanner reads. -/
theorem scans_of_fnameLoop {l rest : List UInt8} (h : s.Follows n) (h₀ : 0 ∉ l)
    (hd : n.depth + l.length + 1 < 256)
    (hrun : fnameLoop (l ++ 0 :: rest) s = some (.ok, s', stop)) :
    ∃ a post, l = a ++ rparen :: post ∧ Scans Nest.step n a ⟨0, false⟩ := by
  induction l generalizing n s with
  | nil =>
    rw [List.nil_append, fnameLoop, if_pos rfl] at hrun
    cases hrun
  | cons c l ih =>
    rw [List.mem_cons, not_or] at h₀
    rw [List.length_cons] at hd
    cases hc : n.step c with
    | none =>
      obtain ⟨rfl, rfl⟩ := Nest.step_eq_none hc
      exact ⟨[], l, rfl, .nil⟩
    | some n' =>
      have hdepth := Nest.depth_step_le hc
      rw [List.cons_append, fnameLoop_step h hc (Ne.symm h₀.1)] at hrun
      obtain ⟨a, post, rfl, hscan⟩ := ih (h.step (by omega) hc) h₀.2 (by omega) hrun
      exact ⟨c :: a, post, rfl, .cons hc hscan⟩

/-- What is written to `fname` stays there. -/
theorem fname_prefix_of_fnameLoop (h : fnameLoop str s = some (sta, s', stop)) :
    s.fname <+: s'.fname := by
  induction str generalizing s with
  | nil => cases h
  | cons c str ih =>
    have hcount {t : FnameState} (hrun : fnameLoop str (t.count c) = some (sta, s', stop))
        (ht : t.fname = s.fname) : s.fname <+: s'.fname :=
      ht ▸ fname_prefix_count.trans (ih hrun)
    rw [fnameLoop] at h
    split_ifs at h
    · cases h
      exact List.prefix_rfl
    · exact hcount h rfl
    · cases h
      exact List.prefix_rfl
    · cases h
      exact List.prefix_rfl
    · exact hcount h rfl
    · exact hcount h rfl
    · exact hcount h rfl

end Loop

/-! ## The name -/

/-- In front of the arguments, with this much of the name copied. -/
def FnameState.naming (name : List UInt8) : FnameState := ⟨0, 0, 1, 0, false, [], name⟩

section Name

variable {s s' : FnameState} {str stop : Str} {name p : List UInt8} {c : UInt8}

theorem fnameLoop_naming_cons (h₀ : c ≠ 0) (hparen : c ≠ lparen ∧ c ≠ rparen) (hquote : c ≠ quote) :
    fnameLoop (c :: str) (naming name) =
      fnameLoop str (naming (name ++ [c].filter (· ≠ space))) := by
  rw [fnameLoop, if_neg h₀, if_neg fun h => hparen.1 h.1, if_neg fun h => hparen.2 h.1,
    if_neg hquote, count_name rfl]
  by_cases hspace : c = space
  · simp [hspace]
  · simp [hspace, naming]

/-- The part of a call up to its first parenthesis. -/
theorem fnameLoop_naming (hparen : ∀ c ∈ p, c ≠ lparen ∧ c ≠ rparen) (h₀ : 0 ∉ p)
    (hquote : quote ∉ p) :
    fnameLoop (p ++ lparen :: str) (naming name) =
      fnameLoop str (inside (name ++ p.filter (· ≠ space))) := by
  induction p generalizing name with
  | nil =>
    rw [List.filter_nil, List.append_nil]
    rfl
  | cons c p ih =>
    rw [List.mem_cons, not_or] at h₀ hquote
    rw [List.cons_append, fnameLoop_naming_cons (Ne.symm h₀.1) (hparen c (by simp))
      (Ne.symm hquote.1), ih (fun d hd => hparen d (by simp [hd])) h₀.2 hquote.2, List.append_assoc,
      ← List.filter_append, List.singleton_append]

/-- A call whose name has no quote has none in front of its first parenthesis either. -/
theorem plain_of_fnameLoop (hparen : lparen ∉ p) (h₀ : 0 ∉ p)
    (hrun : fnameLoop (p ++ lparen :: str) (naming name) = some (.ok, s', stop))
    (hquote : quote ∉ s'.fname) : (∀ c ∈ p, c ≠ lparen ∧ c ≠ rparen) ∧ quote ∉ p := by
  induction p generalizing name with
  | nil => simp
  | cons c p ih =>
    rw [List.mem_cons, not_or] at h₀ hparen
    have hr : c ≠ rparen := by
      rintro rfl
      cases hrun
    have hq : c ≠ quote := by
      rintro rfl
      have hpre : name ++ [quote] <+: s'.fname :=
        fname_prefix_of_fnameLoop (s := { naming (name ++ [quote]) with nchar := true }) hrun
      exact hquote (hpre.subset (by simp))
    rw [List.cons_append, fnameLoop_naming_cons (Ne.symm h₀.1) ⟨Ne.symm hparen.1, hr⟩ hq] at hrun
    obtain ⟨hp, hp'⟩ := ih hparen.2 h₀.2 hrun
    exact ⟨by simpa [Ne.symm hparen.1, hr] using hp, by simp [Ne.symm hq, hp']⟩

/-- Without a parenthesis there is no call. -/
theorem not_ok_of_not_mem {rest : List UInt8} {sta : Sta} (hparen : lparen ∉ p)
    (hover : s.fover = 0) (hrun : fnameLoop (p ++ 0 :: rest) s = some (sta, s', stop)) :
    sta ≠ .ok := by
  induction p generalizing s with
  | nil =>
    rw [List.nil_append, fnameLoop, if_pos rfl] at hrun
    cases hrun
    simp
  | cons c p ih =>
    rw [List.mem_cons, not_or] at hparen
    rw [List.cons_append, fnameLoop] at hrun
    split_ifs at hrun with h₀ hl
    · cases hrun
      simp
    · exact absurd hl.1.symm hparen.1
    · cases hrun
      simp
    · exact ih hparen.2 (by simp [hover]) hrun
    · exact ih hparen.2 (by simp [hover]) hrun

/-- The offset found is in front of the parenthesis. -/
theorem offsetLoop_le {x res off o : UInt8} (hx : x = lparen ∨ x = 0) (hparen : lparen ∉ p)
    (h₀ : 0 ∉ p) (hlen : res.toNat + p.length < 256)
    (hrun : offsetLoop (p ++ x :: str) res off = some o) :
    o = off ∨ o.toNat + 1 ≤ res.toNat + p.length := by
  induction p generalizing res off with
  | nil =>
    rw [List.nil_append, offsetLoop, if_pos hx] at hrun
    exact .inl (Option.some_inj.mp hrun).symm
  | cons c p ih =>
    rw [List.mem_cons, not_or] at h₀ hparen
    rw [List.length_cons] at hlen ⊢
    have hres : (res + 1).toNat = res.toNat + 1 := toNat_add_one (by omega)
    have hstop : ¬(c = lparen ∨ c = 0) := by
      rintro (rfl | rfl)
      · exact hparen.1 rfl
      · exact h₀.1 rfl
    rw [List.cons_append, offsetLoop, if_neg hstop] at hrun
    have hih {off' : UInt8} (hoff : off' = off ∨ off' = res + 1 ∧ p ≠ [])
        (hrun : offsetLoop (p ++ x :: str) (res + 1) off' = some o) :
        o = off ∨ o.toNat + 1 ≤ res.toNat + (p.length + 1) := by
      rcases ih hparen.2 h₀.2 (by omega) hrun with rfl | hle
      · rcases hoff with rfl | ⟨rfl, hp⟩
        · exact .inl rfl
        · have := List.length_pos_of_ne_nil hp
          exact .inr (by omega)
      · exact .inr (by omega)
    have hp (d : UInt8) (hd : (p ++ x :: str).head? = some d) (hsep : d = space ∨ d = star) :
        p ≠ [] := by
      rintro rfl
      obtain rfl : x = d := by simpa using hd
      rcases hx with rfl | rfl <;> rcases hsep with h | h <;> cases h
    cases hd : (p ++ x :: str).head? with
    | none => simp at hd
    | some d =>
      simp only [hd] at hrun
      split_ifs at hrun with hsep
      · obtain ⟨nchar, -, hrun⟩ := Option.bind_eq_some_iff.mp hrun
        refine hih ?_ hrun
        split_ifs
        · exact .inr ⟨rfl, hp d hd hsep⟩
        · exact .inl rfl
      · exact hih (.inl rfl) hrun

end Name

/-! ## A call -/

/-- The scans behind a result of `usmart_get_fname`; `k` is where the name starts. -/
theorem usmartGetFname_eq_some {str : Str} {rval : UInt8} {f : Fname}
    (h : usmartGetFname str rval = some f) :
    ∃ (offset : UInt8) (k : ℕ) (s : FnameState), offsetLoop str 0 0 = some offset ∧
      (k = 0 ∨ k = offset.toNat + 1 ∧ offset ≠ 0) ∧
      fnameLoop (str.drop k) (naming []) = some (f.sta, s, f.stop) ∧ f.fname = s.fname ∧
      f.pnum.toNat ≤ s.parmnum.toNat := by
  rw [usmartGetFname] at h
  obtain ⟨fp, -, h⟩ := Option.bind_eq_some_iff.mp h
  obtain ⟨offset, hoff, h⟩ := Option.bind_eq_some_iff.mp h
  obtain ⟨⟨sta, s, stop⟩, hrun, h⟩ := Option.bind_eq_some_iff.mp h
  dsimp only at h
  split at h
  · obtain rfl := Option.some_inj.mp h
    have hpnum : (if s.parmnum = 1 ∧ usmartStrcmp s.fpname voidText = 0 then 0
        else s.parmnum : UInt8).toNat ≤ s.parmnum.toNat := by
      split <;> simp
    by_cases h₀ : offset = 0
    · rw [if_pos h₀] at hrun
      exact ⟨offset, 0, s, hoff, .inl rfl, hrun, rfl, hpnum⟩
    · rw [if_neg h₀] at hrun
      exact ⟨offset, offset.toNat + 1, s, hoff, .inr ⟨rfl, h₀⟩, hrun, rfl, hpnum⟩
  · cases h

/-- The name starts in front of the first parenthesis, or of the end of a line that has none. -/
theorem usmartGetFname_start {p str : List UInt8} {x rval : UInt8} {f : Fname}
    (hx : x = lparen ∨ x = 0) (hparen : lparen ∉ p) (h₀ : 0 ∉ p) (hlen : p.length < 200)
    (hf : usmartGetFname (p ++ x :: str) rval = some f) :
    ∃ (k : ℕ) (s : FnameState),
      fnameLoop (p.drop k ++ x :: str) (naming []) = some (f.sta, s, f.stop) ∧
      f.fname = s.fname ∧ f.pnum.toNat ≤ s.parmnum.toNat := by
  obtain ⟨offset, k, s, hoff, hk, hrun, hname, hpnum⟩ := usmartGetFname_eq_some hf
  have hle : k ≤ p.length := by
    rcases hk with rfl | ⟨rfl, hne⟩
    · exact Nat.zero_le _
    · rcases offsetLoop_le hx hparen h₀ (by simp; omega) hoff with rfl | hle
      · exact absurd rfl hne
      · simpa using hle
  rw [List.drop_append_of_le_length hle] at hrun
  exact ⟨k, s, hrun, hname, hpnum⟩

/-- A line that is accepted has a parenthesis. -/
theorem lparen_mem_of_ok {line rest : List UInt8} {rval : UInt8} {f : Fname} (h₀ : 0 ∉ line)
    (hlen : line.length < 200) (hf : usmartGetFname (line ++ 0 :: rest) rval = some f)
    (hok : f.sta = .ok) : lparen ∈ line := by
  by_contra hmem
  obtain ⟨k, s, hrun, hname, -⟩ := usmartGetFname_start (.inr rfl) hmem h₀ hlen hf
  rw [hok] at hrun
  have hp : lparen ∉ line.drop k := fun h => hmem ((List.drop_sublist k line).subset h)
  exact absurd rfl (not_ok_of_not_mem hp rfl hrun)

/-- **A line that `usmart_get_fname` accepts.** If the name has no quote, the line is a call: the
arguments are balanced, and the scan stops at the parenthesis behind them. -/
theorem usmartGetFname_call {line rest : List UInt8} {rval : UInt8} {f : Fname} (h₀ : 0 ∉ line)
    (hlen : line.length < 200) (hf : usmartGetFname (line ++ 0 :: rest) rval = some f)
    (hok : f.sta = .ok) (hquote : quote ∉ f.fname) :
    ∃ pre args post name, line = pre ++ lparen :: (args ++ rparen :: post) ∧ lparen ∉ pre ∧
      Balanced args ∧ f.stop = rparen :: (post ++ 0 :: rest) ∧
      f.pnum.toNat ≤ (args.foldl FnameState.step (inside name)).parmnum.toNat := by
  obtain ⟨pre, text, rfl, hpre⟩ := List.eq_append_cons_of_mem (lparen_mem_of_ok h₀ hlen hf hok)
  have h₀' : 0 ∉ pre ∧ 0 ∉ text := by
    simp only [List.mem_append, List.mem_cons, not_or] at h₀
    exact ⟨h₀.1, h₀.2.2⟩
  rw [List.length_append, List.length_cons] at hlen
  rw [List.append_assoc, List.cons_append] at hf
  obtain ⟨k, s, hrun, hname, hpnum⟩ :=
    usmartGetFname_start (.inl rfl) hpre h₀'.1 (by omega) hf
  rw [hok] at hrun
  rw [hname] at hquote
  have hsub : pre.drop k ⊆ pre := (List.drop_sublist k pre).subset
  have hp : lparen ∉ pre.drop k := fun h => hpre (hsub h)
  have hz : 0 ∉ pre.drop k := fun h => h₀'.1 (hsub h)
  obtain ⟨hplain, hq⟩ := plain_of_fnameLoop hp hz hrun hquote
  rw [fnameLoop_naming hplain hz hq] at hrun
  obtain ⟨args, post, rfl, hscan⟩ :=
    scans_of_fnameLoop (follows_inside _) h₀'.2 (by simp; omega) hrun
  have hargs : 0 ∉ args := fun h => h₀'.2 (List.mem_append_left _ h)
  rw [List.length_append] at hlen
  rw [List.append_assoc, List.cons_append,
    fnameLoop_scans (follows_inside _) hscan hargs (by simp; omega)] at hrun
  obtain ⟨-, rfl, hstop⟩ : Sta.ok = .ok ∧ _ = s ∧ _ = f.stop := by
    simpa using hrun
  exact ⟨pre, args, post, _, rfl, hpre, hscan, hstop.symm, hpnum⟩

end Usmart

end Enc28j60Udp
