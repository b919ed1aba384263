import Enc28j60Udp.Usmart.Decl
import Mathlib.Data.Nat.Find

/-!
# What a line calls

A line from the serial port need not be a call. `usmart_get_fname` takes for its name what stands
behind the last space or star in front of the first parenthesis (`nameStart`), and copies the
characters from there to the first parenthesis that is not between quotes (`copyName`); nothing
tells it how long the buffer is. A line is accepted when that parenthesis opens a balanced text, in
which it counts the arguments (`callArgs`).

`usmartGetFname_line` says so for every line that fits the counters: the scan never reads over the
terminator, and leaves the buffer just when the name is too long for it.
-/

namespace Enc28j60Udp

namespace Usmart

open FnameState

/-! ## Where the name starts -/

/-- The name may start at `k`: there is neither a space nor a star nor a parenthesis, but a space or
star in front of it, and that is not the first character of the line. -/
def NameAt (text : List UInt8) (k : ℕ) : Prop :=
  2 ≤ k ∧ (text[k - 1]? = some space ∨ text[k - 1]? = some star) ∧
    text[k]? ≠ some space ∧ text[k]? ≠ some star ∧ text[k]? ≠ some lparen

instance (line : List UInt8) : DecidablePred (NameAt line) := fun _ =>
  inferInstanceAs (Decidable (_ ∧ _))

/-- The name starts at the last such place in front of the first parenthesis, or with the line. -/
def nameStart (line : List UInt8) : ℕ :=
  Nat.findGreatest (NameAt line) (line.takeWhile (· ≠ lparen)).length

/-- Where the name starts for an `offset`. -/
def startOf (offset : UInt8) : ℕ := if offset = 0 then 0 else offset.toNat + 1

section Start

variable {line l : List UInt8} {i : ℕ} {c off : UInt8}

theorem nameAt_succ {text : List UInt8} (hl : text.drop i = c :: l) : NameAt text (i + 1) ↔ i ≠ 0 ∧
    (c = space ∨ c = star) ∧ l.head? ≠ some space ∧ l.head? ≠ some star ∧
      l.head? ≠ some lparen := by
  have hc : text[i]? = some c := by
    rw [← List.head?_drop, hl]
    rfl
  have hnext : text[i + 1]? = l.head? := by
    rw [← List.head?_drop, ← List.drop_drop, hl]
    rfl
  rw [NameAt, Nat.add_sub_cancel, hc, hnext, Option.some_inj, Option.some_inj]
  have hi : 2 ≤ i + 1 ↔ i ≠ 0 := by omega
  rw [hi]

/-- Behind the spaces there is a character of the name, or the end. -/
def Followed (l : List UInt8) : Prop :=
  ∃ c, skipSpaces (l ++ [0]) = some c ∧ c ≠ lparen ∧ c ≠ star

theorem followed_space : Followed (space :: l) ↔ Followed l := Iff.rfl

theorem followed_cons (hc : c ≠ space) : Followed (c :: l) ↔ c ≠ lparen ∧ c ≠ star := by
  have hskip : skipSpaces (c :: (l ++ [0])) = some c := if_neg hc
  simp [Followed, hskip]

/-- The code marks a space or star when a character of the name follows, spaces aside. -/
def Marked (i : ℕ) (l : List UInt8) : Prop :=
  i ≠ 0 ∧ (l.head? = some space ∨ l.head? = some star) ∧ Followed l.tail

/-- A mark that is not followed by another one is in front of the name. -/
theorem marked_cons (hl : line.drop i = c :: l) (hnext : ¬Marked (i + 1) l) :
    Marked i (c :: l) ↔ NameAt line (i + 1) := by
  rw [nameAt_succ hl, Marked, List.head?_cons, List.tail_cons, Option.some_inj, Option.some_inj]
  refine and_congr_right fun _ => and_congr_right fun _ => ?_
  cases l with
  | nil =>
    have hend : Followed [] := ⟨0, rfl, by decide, by decide⟩
    simp [hend]
  | cons d l =>
    rw [List.head?_cons]
    by_cases hspace : d = space
    · subst hspace
      have hnot : ¬Followed l := fun h => hnext ⟨Nat.succ_ne_zero i, .inl rfl, h⟩
      simp [followed_space, hnot]
    · rw [followed_cons hspace]
      simp [hspace, and_comm]

/-- A round of the loop marks the next character, or keeps the offset. -/
theorem offsetLoop_round (hc : c ≠ lparen ∧ c ≠ 0) (i : ℕ) :
    ∃ off', offsetLoop (c :: (l ++ [0])) (UInt8.ofNat i) off =
        offsetLoop (l ++ [0]) (UInt8.ofNat (i + 1)) off' ∧
      (Marked (i + 1) l → off' = UInt8.ofNat (i + 1)) ∧ (¬Marked (i + 1) l → off' = off) := by
  have hres : UInt8.ofNat i + 1 = UInt8.ofNat (i + 1) := (UInt8.ofNat_add i 1).symm
  cases l with
  | nil =>
    have hnot : ¬Marked (i + 1) [] := fun h => by simpa using h.2.1
    exact ⟨off, by rw [← hres]; exact offsetLoop_char hc (by decide), fun h => absurd h hnot,
      fun _ => rfl⟩
  | cons d l =>
    have hmarked : Marked (i + 1) (d :: l) ↔ (d = space ∨ d = star) ∧ Followed l := by
      simp [Marked]
    by_cases hsep : d = space ∨ d = star
    · obtain ⟨nchar, hn⟩ : ∃ n, skipSpaces (l ++ [0]) = some n :=
        exists_skipSpaces (List.mem_append_right l (List.mem_singleton_self 0)) (by decide)
      have hfollowed : Followed l ↔ nchar ≠ lparen ∧ nchar ≠ star := by simp [Followed, hn]
      refine ⟨_, by rw [List.cons_append, offsetLoop_sep hc hsep hn, hres], ?_, ?_⟩
      · exact fun h => if_pos (hfollowed.mp (hmarked.mp h).2)
      · exact fun h => if_neg fun hn => h (hmarked.mpr ⟨hsep, hfollowed.mpr hn⟩)
    · refine ⟨off, ?_, fun h => absurd (hmarked.mp h).1 hsep, fun _ => rfl⟩
      rw [List.cons_append, offsetLoop_char hc (not_or.mp hsep), hres]

/-- The loop for the offset finds the start of the name. At position `i` the offset is that of the
best start so far, or `i` itself if it is marked. -/
theorem offsetLoop_start (h₀ : 0 ∉ line) (hlen : line.length < 256) (hl : line.drop i = l)
    (hmarked : Marked i l → off = UInt8.ofNat i)
    (hbest : ¬Marked i l → startOf off = Nat.findGreatest (NameAt line) i) :
    ∃ o, offsetLoop (l ++ [0]) (UInt8.ofNat i) off = some o ∧
      startOf o = Nat.findGreatest (NameAt line) (i + (l.takeWhile (· ≠ lparen)).length) := by
  induction l generalizing i off with
  | nil =>
    refine ⟨off, rfl, ?_⟩
    rw [List.takeWhile_nil, List.length_nil, Nat.add_zero]
    exact hbest fun h => by simp [Marked] at h
  | cons c l ih =>
    by_cases hc : c = lparen
    · subst hc
      refine ⟨off, rfl, ?_⟩
      have hnil : (lparen :: l).takeWhile (· ≠ lparen) = [] := rfl
      have hsep : ¬(lparen = space ∨ lparen = star) := by decide
      rw [hnil, List.length_nil, Nat.add_zero]
      exact hbest fun h => hsep (by simpa [Marked] using h.2.1)
    · have hdrop : line.drop (i + 1) = l := by rw [← List.drop_drop, hl]; rfl
      have hlt : i + 1 + l.length = line.length := by
        have hlength := congrArg List.length hl
        rw [List.length_drop, List.length_cons] at hlength
        omega
      have hne : c ≠ 0 := by
        rintro rfl
        exact h₀ (List.mem_of_mem_drop (hl ▸ List.mem_cons_self))
      have htake : ((c :: l).takeWhile (· ≠ lparen)).length =
          (l.takeWhile (· ≠ lparen)).length + 1 := by
        simp [hc]
      have hmark (hnext : ¬Marked (i + 1) l) :
          startOf off = Nat.findGreatest (NameAt line) (i + 1) := by
        by_cases hstart : NameAt line (i + 1)
        · rw [Nat.findGreatest_eq hstart, hmarked ((marked_cons hl hnext).mpr hstart)]
          have htoNat : (UInt8.ofNat i).toNat = i :=
            UInt8.toNat_ofNat_of_lt' (show _ < 256 by omega)
          have hi : UInt8.ofNat i ≠ 0 := by
            rw [Ne, ← UInt8.toNat_inj, htoNat]
            exact ((nameAt_succ hl).mp hstart).1
          rw [startOf, if_neg hi, htoNat]
        · rw [Nat.findGreatest_of_not hstart, hbest fun h => hstart ((marked_cons hl hnext).mp h)]
      obtain ⟨off', hround, hoff, hkeep⟩ := @offsetLoop_round l c off ⟨hc, hne⟩ i
      rw [htake, Nat.add_comm _ 1, ← Nat.add_assoc, List.cons_append, hround]
      exact ih hdrop hoff fun hnext => by rw [hkeep hnext, hmark hnext]

/-- The offset that is found for a line. -/
theorem exists_offsetLoop (h₀ : 0 ∉ line) (hlen : line.length < 256) :
    ∃ o, offsetLoop (line ++ [0]) 0 0 = some o ∧ startOf o = nameStart line := by
  have hnot : ¬Marked 0 line := fun h => h.1 rfl
  obtain ⟨o, hrun, ho⟩ :=
    @offsetLoop_start line line 0 0 h₀ hlen rfl (fun h => absurd h hnot) fun _ => rfl
  rw [Nat.zero_add] at ho
  exact ⟨o, hrun, ho⟩

theorem nameStart_le (line : List UInt8) : nameStart line ≤ line.length :=
  (Nat.findGreatest_le _).trans (List.takeWhile_sublist _).length_le

end Start

/-! ## The name -/

/-- What is copied of a text, and what is left: everything but spaces, up to a parenthesis that is
not between quotes. -/
def copyName : Bool → List UInt8 → List UInt8 × List UInt8
  | _, [] => ([], [])
  | quoted, c :: l =>
    if (c = lparen ∨ c = rparen) ∧ quoted = false then ([], c :: l)
    else
      let r := copyName (if c = quote then !quoted else quoted) l
      (if c = space then r.1 else c :: r.1, r.2)

/-- The name of a line. -/
def nameOf (line : List UInt8) : List UInt8 := (copyName false (line.drop (nameStart line))).1

/-- What stands behind the name. -/
def behindName (line : List UInt8) : List UInt8 := (copyName false (line.drop (nameStart line))).2

section Copy

variable {l name : List UInt8} {quoted : Bool} {c : UInt8}

theorem copyName_stop (hc : c = lparen ∨ c = rparen) (l : List UInt8) :
    copyName false (c :: l) = ([], c :: l) := by
  rw [copyName, if_pos ⟨hc, rfl⟩]

/-- A character is copied unless it is a space. -/
theorem copyName_char (hc : ¬((c = lparen ∨ c = rparen) ∧ quoted = false)) (l : List UInt8) :
    copyName quoted (c :: l) =
      ([c].filter (· ≠ space) ++ (copyName (if c = quote then !quoted else quoted) l).1,
        (copyName (if c = quote then !quoted else quoted) l).2) := by
  rw [copyName, if_neg hc]
  by_cases hspace : c = space
  · simp [hspace]
  · simp [hspace]

theorem copyName_suffix (quoted : Bool) (l : List UInt8) : (copyName quoted l).2 <:+ l := by
  induction l generalizing quoted with
  | nil => exact List.suffix_rfl
  | cons c l ih =>
    by_cases hc : (c = lparen ∨ c = rparen) ∧ quoted = false
    · rw [copyName, if_pos hc]
    · rw [copyName_char hc]
      exact (ih _).trans (List.suffix_cons c l)

/-- In front of the arguments, with this much of the name copied. -/
def FnameState.copying (quoted : Bool) (name : List UInt8) : FnameState :=
  { naming name with nchar := quoted }

/-- A round of the main loop in the name. -/
theorem fnameLoop_copy_char (hc : ¬((c = lparen ∨ c = rparen) ∧ quoted = false)) (h₀ : c ≠ 0)
    (str : Str) : fnameLoop (c :: str) (copying quoted name) =
      fnameLoop str (copying (if c = quote then !quoted else quoted)
        (name ++ [c].filter (· ≠ space))) := by
  have hcount (q : Bool) :
      (copying q name).count c = copying q (name ++ [c].filter (· ≠ space)) := by
    rw [count_name rfl]
    by_cases hspace : c = space
    · simp [hspace]
    · simp [hspace, copying, naming]
  have hl : ¬(c = lparen ∧ (copying quoted name).nchar = false) := fun h => hc ⟨.inl h.1, h.2⟩
  have hr : ¬(c = rparen ∧ (copying quoted name).nchar = false) := fun h => hc ⟨.inr h.1, h.2⟩
  rw [fnameLoop, if_neg h₀, if_neg hl, if_neg hr]
  by_cases hquote : c = quote
  · rw [if_pos hquote, if_pos hquote]
    exact congrArg (fnameLoop str) (hcount (!quoted))
  · rw [if_neg hquote, if_neg hquote]
    exact congrArg (fnameLoop str) (hcount quoted)

/-- The main loop copies the name. It goes on behind the parenthesis that opens the arguments, and
ends with an error where there is none. -/
theorem fnameLoop_copyName (h₀ : 0 ∉ l) :
    (∃ t, (copyName quoted l).2 = lparen :: t ∧ fnameLoop (l ++ [0]) (copying quoted name) =
      fnameLoop (t ++ [0]) (inside (name ++ (copyName quoted l).1))) ∨
    ((∀ t, (copyName quoted l).2 ≠ lparen :: t) ∧ ∃ s stop,
      fnameLoop (l ++ [0]) (copying quoted name) = some (.funcerr, s, stop) ∧
        s.fname = name ++ (copyName quoted l).1 ∧ s.fpname = []) := by
  induction l generalizing quoted name with
  | nil =>
    refine .inr ⟨fun t => by simp [copyName], copying quoted name, [0], rfl, ?_, rfl⟩
    exact (List.append_nil name).symm
  | cons c l ih =>
    rw [List.mem_cons, not_or] at h₀
    by_cases hc : (c = lparen ∨ c = rparen) ∧ quoted = false
    · obtain ⟨hc, rfl⟩ := hc
      rw [copyName_stop hc, List.append_nil]
      rcases hc with rfl | rfl
      · exact .inl ⟨l, rfl, rfl⟩
      · exact .inr ⟨fun t h => absurd (List.cons.inj h).1 (by decide), copying false name, _, rfl,
          rfl, rfl⟩
    · rw [copyName_char hc, List.cons_append, fnameLoop_copy_char hc (Ne.symm h₀.1)]
      simp only [← List.append_assoc]
      exact ih h₀.2

end Copy

/-! ## The arguments -/

/-- The arguments in a text, as the code counts them: those whose first character other than spaces
and opening parentheses is not inside parentheses. A comma starts a new argument anywhere. -/
def countArgs : Nest → Bool → List UInt8 → ℕ
  | _, _, [] => 0
  | n, fresh, c :: l =>
    match n.step c with
    | none => 0
    | some n' =>
      if c = comma then countArgs n' true l
      else if c = space ∨ c = lparen then countArgs n' fresh l
      else (if fresh = true ∧ n'.depth = 0 then 1 else 0) + countArgs n' false l

/-- The number of arguments that the code reports: one that is `void` is none. -/
def callArgs (args : List UInt8) : ℕ :=
  if countArgs ⟨0, false⟩ true args = 1 ∧ firstWord args = voidText then 0
  else countArgs ⟨0, false⟩ true args

/-- What the loop has counted of an argument, when it has yet to begin, or has begun. -/
structure Counting (s : FnameState) (n : Nest) (fresh : Bool) : Prop where
  follows : s.Follows n
  unread : fresh = true → s.temp.toNat = 1
  begun : fresh = false → 2 ≤ s.temp.toNat
  nested : s.temp.toNat = 2 → n.depth ≠ 0

section Count

variable {s : FnameState} {n n' : Nest} {fresh : Bool} {c : UInt8} {l : List UInt8}

theorem Nest.depth_of_skip (hc : c = space ∨ c = lparen) (h : n.step c = some n') :
    n.depth ≤ n'.depth := by
  rcases hc with rfl | rfl
  · have hsame : n.step space = some n := rfl
    rw [← Option.some_inj.mp (hsame.symm.trans h)]
  · unfold Nest.step at h
    have hne : lparen ≠ rparen := by decide
    split_ifs at h with hopen hclose hquote
    · obtain rfl := Option.some_inj.mp h
      exact Nat.le_succ _
    · exact absurd hclose.1 hne
    · obtain rfl := Option.some_inj.mp h
      exact Nat.le_refl _
    · rw [← Option.some_inj.mp h]

/-- What a round counts. -/
theorem Counting.step (h : Counting s n fresh) (hc : n.step c = some n') (hd : n.depth + 2 < 256)
    (ht : s.temp.toNat + 1 < 256) :
    Counting (s.step c) n' (if c = comma then true else if c = space ∨ c = lparen then fresh
      else false) ∧
    (s.step c).parmnum = if (c ≠ comma ∧ c ≠ space ∧ c ≠ lparen) ∧ fresh = true ∧ n'.depth = 0
      then s.parmnum + 1 else s.parmnum := by
  obtain ⟨hfollows, hfresh, hbegun, hnested⟩ := h
  have hfollows' := hfollows.step hd hc
  obtain ⟨htemp, hparm⟩ := hfollows.step_counts hd hc ht
  by_cases hcomma : c = comma
  · have hafter : tempAfter s.temp.toNat c = 1 := by rw [tempAfter, if_pos hcomma]
    rw [hafter, if_neg (by omega)] at htemp hparm
    rw [if_pos hcomma, if_neg fun h => h.1.1 hcomma]
    exact ⟨⟨hfollows', fun _ => htemp, by simp, by omega⟩, hparm⟩
  · by_cases hskip : c = space ∨ c = lparen
    · have hafter : tempAfter s.temp.toNat c = s.temp.toNat := by
        rw [tempAfter, if_neg hcomma, if_neg fun h => hskip.elim h.1 h.2]
      have hdepth := Nest.depth_of_skip hskip hc
      have hnot : ¬(n'.depth = 0 ∧ s.temp.toNat = 2) := fun h => hnested h.2 (by omega)
      rw [hafter, if_neg hnot] at htemp hparm
      rw [if_neg hcomma, if_pos hskip, if_neg fun h => hskip.elim h.1.2.1 h.1.2.2]
      exact ⟨⟨hfollows', by rwa [htemp], by rwa [htemp], fun h => by
        have := hnested (htemp ▸ h)
        omega⟩, hparm⟩
    · have hchar : c ≠ comma ∧ c ≠ space ∧ c ≠ lparen := ⟨hcomma, not_or.mp hskip⟩
      have hafter : tempAfter s.temp.toNat c = s.temp.toNat + 1 := by
        rw [tempAfter, if_neg hcomma, if_pos hchar.2]
      rw [hafter] at htemp hparm
      rw [if_neg hcomma, if_neg hskip]
      have hone : s.temp.toNat + 1 = 2 ↔ fresh = true := by
        cases fresh with
        | true => simp [hfresh rfl]
        | false =>
          have := hbegun rfl
          simp
          omega
      have htwo : 2 ≤ s.temp.toNat + 1 := by
        cases fresh with
        | true => simp [hfresh rfl]
        | false => exact (hbegun rfl).trans (Nat.le_succ _)
      refine ⟨⟨hfollows', by simp, fun _ => ?_, ?_⟩, ?_⟩
      · rw [htemp]
        split_ifs <;> omega
      · rw [htemp]
        split_ifs with h
        · simp
        · exact fun h₂ h₀ => h ⟨h₀, h₂⟩
      · rw [hparm]
        refine if_congr ?_ rfl rfl
        rw [hone, and_iff_right hchar, and_comm]

/-- What the loop counts of a text. -/
theorem Counting.foldl (h : Counting s n fresh) (hl : Scans Nest.step n l n')
    (hd : n.depth + l.length < 254) (ht : s.temp.toNat + l.length < 256 ∧ 3 + l.length < 256)
    (hp : s.parmnum.toNat + l.length < 256) :
    (l.foldl FnameState.step s).parmnum.toNat = s.parmnum.toNat + countArgs n fresh l := by
  induction l generalizing s n fresh with
  | nil => rfl
  | cons c l ih =>
    obtain ⟨m, hc, hl⟩ := scans_cons.mp hl
    rw [List.length_cons] at hd ht hp
    have hdepth := Nest.depth_step_le hc
    obtain ⟨hstep, hparm⟩ := h.step hc (by omega) (by omega)
    have htemp : (s.step c).temp.toNat ≤ max 3 (s.temp.toNat + 1) := by
      rw [(h.follows.step_counts (by omega) hc (by omega)).1, tempAfter]
      split_ifs <;> omega
    have hsucc : (s.parmnum + 1).toNat = s.parmnum.toNat + 1 := toNat_add_one (by omega)
    have hparm' : (s.step c).parmnum.toNat ≤ s.parmnum.toNat + 1 := by
      rw [hparm]
      split_ifs <;> omega
    rw [List.foldl_cons, ih hstep hl (by omega) (by omega) (by omega), countArgs, hc, hparm]
    by_cases hcomma : c = comma
    · simp [hcomma]
    · by_cases hskip : c = space ∨ c = lparen
      · simp only [if_neg hcomma, if_pos hskip]
        rw [if_neg fun h => hskip.elim h.1.2.1 h.1.2.2]
      · have hchar : c ≠ comma ∧ c ≠ space ∧ c ≠ lparen := ⟨hcomma, not_or.mp hskip⟩
        simp only [if_neg hcomma, if_neg hskip, and_iff_right hchar]
        split_ifs
        · rw [hsucc, Nat.add_assoc]
        · rw [Nat.zero_add]

/-- The number of arguments that is reported for a balanced text. -/
theorem pnum_foldl {args : List UInt8} (hbal : Balanced args) (hlen : args.length < 200)
    (name : List UInt8) :
    (if (args.foldl FnameState.step (inside name)).parmnum = 1 ∧
        usmartStrcmp (args.foldl FnameState.step (inside name)).fpname voidText = 0 then 0
      else (args.foldl FnameState.step (inside name)).parmnum).toNat = callArgs args := by
  have hcounting : Counting (inside name) ⟨0, false⟩ true :=
    ⟨follows_inside name, fun _ => rfl, by simp, by simp [inside]⟩
  have hparm := hcounting.foldl hbal (by simp; omega) (by simp [inside]; omega)
    (by simp [inside]; omega)
  have hword : (args.foldl FnameState.step (inside name)).fpname = (firstWord args).take 5 :=
    fpname_foldl (follows_inside name) hbal (by simp; omega) (by simp [inside]; omega)
      (by simp [inside])
  have hone : (args.foldl FnameState.step (inside name)).parmnum = 1 ↔
      countArgs ⟨0, false⟩ true args = 1 := by
    rw [← UInt8.toNat_inj, hparm]
    simp [inside]
  simp only [usmartStrcmp_eq_zero, hword, take_eq_voidText, hone]
  unfold callArgs
  split_ifs
  · rfl
  · rw [hparm]
    exact Nat.zero_add _

end Count

/-! ## The scan of a line -/

/-- Behind a name, balanced arguments. -/
def IsCall (line args post : List UInt8) : Prop :=
  behindName line = lparen :: (args ++ rparen :: post) ∧ Balanced args

/-- What is collected of a return type has room for its terminator in `fpname`. -/
theorem rtypeLoop_length {str : Str} {fp fp' : List UInt8} (h : fp.length ≤ 5)
    (hrun : rtypeLoop str fp = some fp') : fp'.length ≤ 5 := by
  induction str generalizing fp with
  | nil => cases hrun
  | cons c str ih =>
    rw [rtypeLoop] at hrun
    split_ifs at hrun with h₀ hchar
    · exact Option.some_inj.mp hrun ▸ h
    · exact Option.some_inj.mp hrun ▸ h
    · exact ih (by rw [List.length_append, List.length_singleton]; exact hchar.2) hrun
    · exact Option.some_inj.mp hrun ▸ h
    · exact ih h hrun

section Scan

variable {s s' : FnameState} {n : Nest} {c : UInt8} {l line : List UInt8} {str stop : Str}
  {sta : Sta}

theorem count_fpname_length (h : s.fpname.length ≤ 5) : (s.count c).fpname.length ≤ 5 := by
  by_cases hover : s.fover = 0
  · rw [count_name hover]
    split_ifs
    · exact h
    · exact h
  · rw [count_inside hover, mark_fpname, FnameState.read]
    split_ifs with hcomma hchar hroom
    · exact h
    · rw [List.length_append, List.length_singleton]
      exact hroom.2
    · exact h
    · exact h

/-- What is collected of the first parameter has room for its terminator in `fpname`. -/
theorem fnameLoop_fpname_length (h : s.fpname.length ≤ 5)
    (hrun : fnameLoop str s = some (sta, s', stop)) : s'.fpname.length ≤ 5 := by
  induction str generalizing s with
  | nil => cases hrun
  | cons c str ih =>
    have hcount {t : FnameState} (hrun : fnameLoop str (t.count c) = some (sta, s', stop))
        (ht : t.fpname = s.fpname) : s'.fpname.length ≤ 5 :=
      ih (count_fpname_length (ht ▸ h)) hrun
    rw [fnameLoop] at hrun
    split_ifs at hrun
    · cases hrun
      exact h
    · exact hcount hrun rfl
    · cases hrun
      exact h
    · cases hrun
      exact h
    · exact hcount hrun rfl
    · exact hcount hrun rfl
    · exact hcount hrun rfl

/-- In the arguments the loop ends in front of the terminator, and leaves the name. -/
theorem exists_fnameLoop (h : s.Follows n) (h₀ : 0 ∉ l) (hd : n.depth + l.length + 1 < 256) :
    ∃ sta s' stop, fnameLoop (l ++ [0]) s = some (sta, s', stop) ∧ s'.fname = s.fname := by
  induction l generalizing n s with
  | nil => exact ⟨.funcerr, s, [0], rfl, rfl⟩
  | cons c l ih =>
    rw [List.mem_cons, not_or] at h₀
    rw [List.length_cons] at hd
    rw [List.cons_append]
    cases hc : n.step c with
    | none =>
      obtain ⟨rfl, rfl⟩ := Nest.step_eq_none hc
      exact ⟨.ok, _, _, fnameLoop_close h, rfl⟩
    | some n' =>
      have hdepth := Nest.depth_step_le hc
      have hnest := h.nest (by omega) hc
      obtain ⟨sta, s', stop, hrun, hname⟩ := ih (h.step (by omega) hc) h₀.2 (by omega)
      rw [FnameState.step, count_fname hnest.ne_zero, nest_fname] at hname
      exact ⟨sta, s', stop, by rw [fnameLoop_step h hc (Ne.symm h₀.1), hrun], hname⟩

/-- What the main loop does with a line: it copies the name, succeeds just for a call, and counts
the arguments of that. -/
theorem fnameLoop_line (h₀ : 0 ∉ line) (hlen : line.length < 200) :
    ∃ sta s stop, fnameLoop ((line ++ [0]).drop (nameStart line)) FnameState.start =
        some (sta, s, stop) ∧ s.fname = nameOf line ∧
      (sta = .ok ↔ ∃ args post, IsCall line args post) ∧
      ∀ args post, IsCall line args post →
        (if s.parmnum = 1 ∧ usmartStrcmp s.fpname voidText = 0 then 0 else s.parmnum).toNat =
          callArgs args := by
  rw [List.drop_append_of_le_length (nameStart_le line)]
  have hzero : 0 ∉ line.drop (nameStart line) := fun h => h₀ (List.mem_of_mem_drop h)
  rcases @fnameLoop_copyName (line.drop (nameStart line)) [] false hzero with
    ⟨t, ht, hrun⟩ | ⟨hnot, s, stop, hrun, hname, -⟩
  · have hsuffix : lparen :: t <:+ line :=
      (ht ▸ copyName_suffix false _).trans (List.drop_suffix _ line)
    have htlen := hsuffix.length_le
    rw [List.length_cons] at htlen
    have htzero : 0 ∉ t := fun h => h₀ (hsuffix.subset (List.mem_cons_of_mem _ h))
    have hcall (args post : List UInt8) :
        IsCall line args post ↔ t = args ++ rparen :: post ∧ Balanced args := by
      rw [IsCall, behindName, ht, List.cons.injEq, and_iff_right rfl]
    obtain ⟨sta, s, stop, hend, hname⟩ :=
      exists_fnameLoop (follows_inside (nameOf line)) htzero (by simp; omega)
    -- a balanced text is read to its end
    have hscan {args post : List UInt8} (h : IsCall line args post) : sta = .ok ∧
        s = { args.foldl FnameState.step (inside (nameOf line)) with fover := 0 } ∧
          args.length < 200 ∧ Balanced args := by
      obtain ⟨rfl, hbal⟩ := (hcall args post).mp h
      rw [List.length_append] at htlen
      rw [List.append_assoc, List.cons_append, fnameLoop_scans (follows_inside (nameOf line)) hbal
        (fun hmem => htzero (List.mem_append_left _ hmem)) (by simp; omega)] at hend
      obtain ⟨hsta, hs, -⟩ : .ok = sta ∧ _ = s ∧ _ = stop := by simpa using hend
      exact ⟨hsta.symm, hs.symm, by omega, hbal⟩
    refine ⟨sta, s, stop, hrun.trans hend, hname, ⟨?_, ?_⟩, ?_⟩
    · rintro rfl
      obtain ⟨args, post, rfl, hbal⟩ :=
        scans_of_fnameLoop (follows_inside (nameOf line)) htzero (by simp; omega) hend
      exact ⟨args, post, (hcall args post).mpr ⟨rfl, hbal⟩⟩
    · rintro ⟨args, post, h⟩
      exact (hscan h).1
    · intro args post h
      obtain ⟨-, rfl, hshort, hbal⟩ := hscan h
      exact pnum_foldl hbal hshort (nameOf line)
  · refine ⟨.funcerr, s, stop, hrun, hname, ⟨by simp, ?_⟩, ?_⟩
    · rintro ⟨args, post, h⟩
      exact absurd h.1 (hnot _)
    · intro args post h
      exact absurd h.1 (hnot _)

/-- **The scan of a line.** If the name fits the buffer, it is read, with success just for a call,
whose arguments are counted. -/
theorem usmartGetFname_line (h₀ : 0 ∉ line) (hlen : line.length < 200) (rval : UInt8) :
    ∃ sta pnum rval' stop, usmartGetFname (line ++ [0]) rval =
        (if (nameOf line).length < maxFnameLen then some ⟨sta, nameOf line, pnum, rval', stop⟩
          else none) ∧
      (sta = .ok ↔ ∃ args post, IsCall line args post) ∧
      ∀ args post, IsCall line args post → pnum.toNat = callArgs args := by
  obtain ⟨fp, hfp⟩ := exists_rtypeLoop (List.mem_append_right line (List.mem_singleton_self 0)) []
  obtain ⟨offset, hoff, hstart⟩ := exists_offsetLoop h₀ (by omega)
  obtain ⟨sta, s, stop, hrun, hname, hok, hnum⟩ := fnameLoop_line h₀ hlen
  have hdrop : (if offset = 0 then line ++ [0] else (line ++ [0]).drop (offset.toNat + 1)) =
      (line ++ [0]).drop (nameStart line) := by
    rw [← hstart, startOf]
    split_ifs <;> rfl
  refine ⟨sta, _, if fp = [] then rval else if usmartStrcmp fp voidText = 0 then 0 else 1, stop, ?_,
    hok, hnum⟩
  rw [usmartGetFname, hfp, hoff]
  simp only [Option.bind_eq_bind, Option.bind_some, hdrop, hrun, hname]

end Scan

end Usmart

end Enc28j60Udp
