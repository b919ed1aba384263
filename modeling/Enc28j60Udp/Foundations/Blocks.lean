import Enc28j60Udp.Foundations.Carve
import Mathlib.Data.List.Chain

/-!
# A heap of blocks

A region is cut into blocks one behind the other, each with a header of `hdr` bytes and some data,
and each in use or free. `alloc` takes the first free block that is long enough, and splits it when
what is left has room for a header and `room` bytes; `free` joins the block with its free
neighbours; `trim` gives the end of a block back.

The operations never leave two free blocks side by side (`Spread`), so that the free space between
two blocks in use is one block (`alloc_eq_none_iff`). What is in use changes only at the block of
the operation (`live_alloc`, `live_free`, `live_trim`).
-/

namespace Enc28j60Udp

/-- A block: the length of its data, and whether it is in use. -/
structure Blk where
  len : ℕ
  used : Bool
  deriving DecidableEq

namespace Blk

/-- The bytes of a block with its header. -/
def size (hdr : ℕ) (b : Blk) : ℕ := hdr + b.len

/-- The block has room for `n` bytes. -/
def Fits (n : ℕ) (b : Blk) : Prop := b.used = false ∧ n ≤ b.len

instance (n : ℕ) (b : Blk) : Decidable (b.Fits n) := inferInstanceAs (Decidable (_ ∧ _))

/-- At least one of two blocks is in use. -/
def Apart (b c : Blk) : Prop := b.used = true ∨ c.used = true

end Blk

namespace Blocks

variable (hdr room : ℕ)

/-! ## The operations -/

/-- What becomes of a free block of which `n` bytes are taken. -/
def place (n : ℕ) (b : Blk) : List Blk :=
  if n + hdr + room ≤ b.len then [⟨n, true⟩, ⟨b.len - (n + hdr), false⟩] else [⟨b.len, true⟩]

/-- Take `n` bytes from the first free block with room; the blocks start at `a`. -/
def alloc (n : ℕ) : ℕ → List Blk → Option (ℕ × List Blk)
  | _, [] => none
  | a, b :: bs =>
    if b.Fits n then some (a, place hdr room n b ++ bs)
    else (alloc n (a + b.size hdr) bs).map fun r => (r.1, b :: r.2)

/-- A block in front of others, joined with the first of them if both are free. -/
def join (b : Blk) : List Blk → List Blk
  | [] => [b]
  | c :: bs =>
    if b.used = false ∧ c.used = false then ⟨b.len + hdr + c.len, false⟩ :: bs else b :: c :: bs

/-- Free the block at `p`. -/
def free (p : ℕ) : ℕ → List Blk → List Blk
  | _, [] => []
  | a, b :: bs =>
    if a = p then join hdr ⟨b.len, false⟩ bs else join hdr b (free p (a + b.size hdr) bs)

/-- What becomes of a block in use of which `n` bytes are kept. What is given back goes to the block
behind it if that is free, and else becomes a block if it has room. -/
def shrink (n : ℕ) (b : Blk) : List Blk → List Blk
  | [] => if n + hdr + room ≤ b.len then [⟨n, true⟩, ⟨b.len - (n + hdr), false⟩] else [b]
  | c :: bs =>
    if c.used = false then ⟨n, true⟩ :: ⟨b.len - n + c.len, false⟩ :: bs
    else if n + hdr + room ≤ b.len then ⟨n, true⟩ :: ⟨b.len - (n + hdr), false⟩ :: c :: bs
    else b :: c :: bs

/-- Keep `n` bytes of the block at `p`. -/
def trim (p n : ℕ) : ℕ → List Blk → List Blk
  | _, [] => []
  | a, b :: bs =>
    if a = p then shrink hdr room n b bs else b :: trim p n (a + b.size hdr) bs

/-- Where the first free block starts, or the end of the blocks. -/
def lowest : ℕ → List Blk → ℕ
  | a, [] => a
  | a, b :: bs => if b.used then lowest (a + b.size hdr) bs else a

/-! ## What is in use -/

/-- The block at `p` is in use, with `n` bytes. -/
def Live (a : ℕ) (bs : List Blk) (p n : ℕ) : Prop := (⟨n, true⟩, p) ∈ carve (Blk.size hdr) a bs

/-- No two free blocks lie side by side. -/
def Spread (bs : List Blk) : Prop := bs.IsChain Blk.Apart

variable {hdr room} {a p n q m : ℕ} {b c : Blk} {bs pre post : List Blk}

@[simp] theorem live_nil : ¬Live hdr a [] q m := by simp [Live, carve]

theorem live_cons : Live hdr a (b :: bs) q m ↔
    (b = ⟨m, true⟩ ∧ a = q) ∨ Live hdr (a + b.size hdr) bs q m := by
  rw [Live, carve, List.mem_cons, Prod.mk.injEq, Live, eq_comm (a := q), eq_comm (b := b)]

theorem live_append : Live hdr a (pre ++ bs) q m ↔
    Live hdr a pre q m ∨ Live hdr (a + demand (Blk.size hdr) pre) bs q m := by
  rw [Live, carve_append, List.mem_append, Live, Live]

/-- A block in use lies in the region. -/
theorem Live.within (h : Live hdr a bs q m) :
    a ≤ q ∧ q + hdr + m ≤ a + demand (Blk.size hdr) bs := by
  have hw := carve_within h
  simp only [Blk.size] at hw
  exact ⟨hw.1, by rw [Nat.add_assoc]; exact hw.2⟩

/-- Blocks in use lie apart. -/
theorem Live.apart (h : Live hdr a bs p n) (h' : Live hdr a bs q m) (hne : p ≠ q) :
    p + hdr + n ≤ q ∨ q + hdr + m ≤ p := by
  induction bs generalizing a with
  | nil => exact absurd h live_nil
  | cons b bs ih =>
    rw [live_cons] at h h'
    rcases h with ⟨rfl, rfl⟩ | h <;> rcases h' with ⟨hb, ha⟩ | h'
    · exact absurd ha hne
    · left
      rw [Nat.add_assoc]
      exact h'.within.1
    · right
      subst hb ha
      rw [Nat.add_assoc]
      exact h.within.1
    · exact ih h h'

/-! ## Taking a block -/

/-- The bytes that are taken. -/
def granted (hdr room n : ℕ) (b : Blk) : ℕ := if n + hdr + room ≤ b.len then n else b.len

theorem le_granted (h : n ≤ b.len) : n ≤ granted hdr room n b := by
  unfold granted
  split_ifs <;> omega

theorem granted_lt (hpos : 0 < hdr) : granted hdr room n b < n + hdr + room := by
  unfold granted
  split_ifs <;> omega

theorem demand_place :
    demand (Blk.size hdr) (place hdr room n b) = b.size hdr := by
  unfold place
  split_ifs <;> simp only [demand_cons, demand_nil, Blk.size] <;> omega

theorem live_place : Live hdr a (place hdr room n b) q m ↔ a = q ∧ m = granted hdr room n b := by
  unfold place granted
  split_ifs <;> simp [live_cons, and_comm, eq_comm]

/-- The block taken is the first with room. -/
theorem alloc_eq_some {r : ℕ × List Blk} (h : alloc hdr room n a bs = some r) :
    ∃ pre b post, bs = pre ++ b :: post ∧ (∀ c ∈ pre, ¬c.Fits n) ∧ b.Fits n ∧
      r = (a + demand (Blk.size hdr) pre, pre ++ (place hdr room n b ++ post)) := by
  induction bs generalizing a r with
  | nil => cases h
  | cons b bs ih =>
    rw [alloc] at h
    split_ifs at h with hfits
    · obtain rfl := Option.some_inj.mp h
      exact ⟨[], b, bs, rfl, by simp, hfits, rfl⟩
    · obtain ⟨r', hr', rfl⟩ := Option.map_eq_some_iff.mp h
      obtain ⟨pre, b', post, rfl, hpre, hfits', rfl⟩ := ih hr'
      refine ⟨b :: pre, b', post, rfl, ?_, hfits', ?_⟩
      · exact List.forall_mem_cons.mpr ⟨hfits, hpre⟩
      · rw [demand_cons, Nat.add_assoc, List.cons_append]

theorem alloc_of_fits (hpre : ∀ c ∈ pre, ¬c.Fits n) (hfits : b.Fits n) :
    alloc hdr room n a (pre ++ b :: post) =
      some (a + demand (Blk.size hdr) pre, pre ++ (place hdr room n b ++ post)) := by
  induction pre generalizing a with
  | nil => rw [List.nil_append, alloc, if_pos hfits, demand_nil, Nat.add_zero, List.nil_append]
  | cons c pre ih =>
    obtain ⟨hc, hpre⟩ := List.forall_mem_cons.mp hpre
    rw [List.cons_append, alloc, if_neg hc, ih hpre, Option.map_some, demand_cons, Nat.add_assoc,
      List.cons_append]

theorem alloc_eq_none_iff_fits : alloc hdr room n a bs = none ↔ ∀ b ∈ bs, ¬b.Fits n := by
  induction bs generalizing a with
  | nil => simp [alloc]
  | cons b bs ih =>
    rw [alloc, List.forall_mem_cons]
    split_ifs with hfits
    · exact iff_of_false (by simp) fun h => h.1 hfits
    · rw [Option.map_eq_none_iff, ih, and_iff_right hfits]

/-- The neighbours of a free block are in use, so that any blocks may take its place. -/
theorem Spread.replace {mid : List Blk} (h : Spread (pre ++ b :: post)) (hb : b.used = false)
    (hmid : Spread mid) : Spread (pre ++ (mid ++ post)) := by
  obtain ⟨hpre, hpost, hlast⟩ := List.isChain_append.mp h
  obtain ⟨hfirst, hpost⟩ := List.isChain_cons.mp hpost
  have hused (c : Blk) (hc : c ∈ post.head?) : c.used = true := by
    rcases hfirst c hc with h | h
    · rw [hb] at h
      cases h
    · exact h
  have hused' (c : Blk) (hc : c ∈ pre.getLast?) : c.used = true := by
    rcases hlast c hc b (by simp) with h | h
    · exact h
    · rw [hb] at h
      cases h
  refine hpre.append (hmid.append hpost fun x _ y hy => .inr (hused y hy)) fun x hx y _ => ?_
  exact .inl (hused' x hx)

theorem spread_place (n : ℕ) (b : Blk) : Spread (place hdr room n b) := by
  unfold place Spread
  split_ifs
  · exact List.isChain_cons_cons.mpr ⟨.inl rfl, List.isChain_singleton _⟩
  · exact List.isChain_singleton _

/-- A block is in use now, and else nothing has changed. -/
theorem live_alloc (hpos : 0 < hdr) {r : ℕ × List Blk} (h : alloc hdr room n a bs = some r) :
    ∃ g, n ≤ g ∧ g < n + hdr + room ∧
      ∀ q m, Live hdr a r.2 q m ↔ Live hdr a bs q m ∨ (q = r.1 ∧ m = g) := by
  obtain ⟨pre, b, post, rfl, -, hfits, rfl⟩ := alloc_eq_some h
  refine ⟨granted hdr room n b, le_granted hfits.2, granted_lt hpos, fun q m => ?_⟩
  have hb : ¬b = ⟨m, true⟩ := by
    rintro rfl
    exact Bool.noConfusion hfits.1
  simp only [live_append, live_place, live_cons, demand_place, hb, false_and, false_or]
  constructor
  · rintro (h | ⟨rfl, rfl⟩ | h)
    · exact .inl (.inl h)
    · exact .inr ⟨rfl, rfl⟩
    · exact .inl (.inr h)
  · rintro ((h | h) | ⟨rfl, rfl⟩)
    · exact .inl h
    · exact .inr (.inr h)
    · exact .inr (.inl ⟨rfl, rfl⟩)

/-- Blocks without room leave no window: in a region without two free blocks side by side, every
window for `n` bytes and a header meets a block in use. -/
theorem exists_live_window (hpos : 0 < hdr) (hs : Spread bs) (hfits : ∀ b ∈ bs, ¬b.Fits n) {x : ℕ}
    (hx : a ≤ x) (hend : x + hdr + n ≤ a + demand (Blk.size hdr) bs) :
    ∃ q m, Live hdr a bs q m ∧ q < x + hdr + n ∧ x < q + hdr + m := by
  induction bs generalizing a with
  | nil =>
    rw [demand_nil] at hend
    omega
  | cons b bs ih =>
    obtain ⟨hb, hfits⟩ := List.forall_mem_cons.mp hfits
    obtain ⟨hfirst, hs⟩ := List.isChain_cons.mp hs
    have hsize : b.size hdr = hdr + b.len := rfl
    rw [demand_cons] at hend
    by_cases hx' : a + b.size hdr ≤ x
    · obtain ⟨q, m, hlive, hlo, hhi⟩ := ih hs hfits hx' (by omega)
      exact ⟨q, m, live_cons.mpr (.inr hlive), hlo, hhi⟩
    · cases hu : b.used with
      | true => exact ⟨a, b.len, live_cons.mpr (.inl ⟨by rw [← hu], rfl⟩), by omega, by omega⟩
      | false =>
        -- the block is too short, and the next one is in use
        have hlen : b.len < n := Nat.lt_of_not_le fun h => hb ⟨hu, h⟩
        cases bs with
        | nil =>
          rw [demand_nil] at hend
          omega
        | cons c bs =>
          have hc : c = ⟨c.len, true⟩ := by
            rcases hfirst c (by simp) with h | h
            · rw [hu] at h
              cases h
            · rw [← h]
          exact ⟨a + b.size hdr, c.len, live_cons.mpr (.inr (live_cons.mpr (.inl ⟨hc, rfl⟩))),
            by omega, by omega⟩

/-- A block in use does not meet a free block. -/
theorem Live.apart_free (hb : b.used = false) (h : Live hdr a (pre ++ b :: post) q m) :
    a + demand (Blk.size hdr) pre + b.size hdr ≤ q ∨
      q + hdr + m ≤ a + demand (Blk.size hdr) pre := by
  rw [live_append, live_cons] at h
  rcases h with h | ⟨rfl, -⟩ | h
  · exact .inr h.within.2
  · cases hb
  · exact .inl h.within.1

/-- The block taken was not in use. -/
theorem alloc_not_live (hpos : 0 < hdr) {r : ℕ × List Blk}
    (h : alloc hdr room n a bs = some r) : ¬Live hdr a bs r.1 m := by
  obtain ⟨pre, b, post, rfl, -, hfits, rfl⟩ := alloc_eq_some h
  intro hlive
  have hapart := hlive.apart_free hfits.1
  have hsize : b.size hdr = hdr + b.len := rfl
  omega

/-- **When there is no room.** Nothing is taken exactly when every window for `n` bytes and a header
meets a block in use. -/
theorem alloc_eq_none_iff (hpos : 0 < hdr) (hs : Spread bs) :
    alloc hdr room n a bs = none ↔
      ∀ x, a ≤ x → x + hdr + n ≤ a + demand (Blk.size hdr) bs →
        ∃ q m, Live hdr a bs q m ∧ q < x + hdr + n ∧ x < q + hdr + m := by
  constructor
  · exact fun h x hx hend =>
      exists_live_window hpos hs (alloc_eq_none_iff_fits.mp h) hx hend
  · intro h
    rw [alloc_eq_none_iff_fits]
    intro b hmem hfits
    obtain ⟨pre, post, rfl⟩ := List.append_of_mem hmem
    have hlen := hfits.2
    have hsize : b.size hdr = hdr + b.len := rfl
    obtain ⟨q, m, hlive, hlo, hhi⟩ := h (a + demand (Blk.size hdr) pre) (by omega) (by
      rw [demand_append, demand_cons]
      omega)
    have hapart := hlive.apart_free hfits.1
    omega

/-! ## Giving a block back -/

theorem live_join (b : Blk) (bs : List Blk) :
    Live hdr a (join hdr b bs) q m ↔ Live hdr a (b :: bs) q m := by
  cases bs with
  | nil => rw [join]
  | cons c bs =>
    rw [join]
    split_ifs with h
    · have hb : b ≠ ⟨m, true⟩ := by
        rintro rfl
        exact Bool.noConfusion h.1
      have hc : c ≠ ⟨m, true⟩ := by
        rintro rfl
        exact Bool.noConfusion h.2
      have hsum : a + Blk.size hdr ⟨b.len + hdr + c.len, false⟩ =
          a + b.size hdr + c.size hdr := by
        simp only [Blk.size]
        omega
      simp [live_cons, hb, hc, hsum]
    · rfl

theorem spread_join (b : Blk) (hs : Spread bs) : Spread (join hdr b bs) := by
  cases bs with
  | nil => exact List.isChain_singleton b
  | cons c bs =>
    obtain ⟨hfirst, hs'⟩ := List.isChain_cons.mp hs
    rw [join]
    split_ifs with h
    · refine hs'.cons fun d hd => .inr ?_
      rcases hfirst d hd with hc | hd
      · rw [h.2] at hc
        cases hc
      · exact hd
    · refine hs.cons fun d hd => ?_
      obtain rfl : c = d := by simpa using hd
      rw [not_and_or, Bool.not_eq_false, Bool.not_eq_false] at h
      exact h

theorem spread_free (hs : Spread bs) : Spread (free hdr p a bs) := by
  induction bs generalizing a with
  | nil => exact hs
  | cons b bs ih =>
    obtain ⟨-, hs⟩ := List.isChain_cons.mp hs
    rw [free]
    split_ifs
    · exact spread_join _ hs
    · exact spread_join _ (ih hs)

/-- The block is free now, and else nothing has changed. -/
theorem live_free (hpos : 0 < hdr) :
    Live hdr a (free hdr p a bs) q m ↔ Live hdr a bs q m ∧ q ≠ p := by
  induction bs generalizing a with
  | nil => simp [free]
  | cons b bs ih =>
    rw [free]
    split_ifs with hp
    · subst hp
      have hbehind (h : Live hdr (a + b.size hdr) bs q m) : q ≠ a := by
        have hle := h.within.1
        have hsize : b.size hdr = hdr + b.len := rfl
        omega
      rw [live_join, live_cons, live_cons]
      constructor
      · rintro (⟨h, -⟩ | h)
        · cases h
        · exact ⟨.inr h, hbehind h⟩
      · rintro ⟨⟨-, rfl⟩ | h, hne⟩
        · exact absurd rfl hne
        · exact .inr h
    · rw [live_join, live_cons, live_cons, ih]
      constructor
      · rintro (⟨h, rfl⟩ | ⟨h, hne⟩)
        · exact ⟨.inl ⟨h, rfl⟩, hp⟩
        · exact ⟨.inr h, hne⟩
      · rintro ⟨h | h, hne⟩
        · exact .inl h
        · exact .inr ⟨h, hne⟩

/-- When nothing is in use any more, the region is one block. -/
theorem eq_singleton_of_not_live (hs : Spread bs) (hne : bs ≠ [])
    (h : ∀ q m, ¬Live hdr a bs q m) : ∃ n, bs = [⟨n, false⟩] := by
  have hfree (b : Blk) (hb : b ∈ bs) : b.used = false := by
    obtain ⟨pre, post, rfl⟩ := List.append_of_mem hb
    cases hu : b.used with
    | false => rfl
    | true =>
      refine absurd ?_ (h (a + demand (Blk.size hdr) pre) b.len)
      rw [live_append, live_cons]
      exact .inr (.inl ⟨by rw [← hu], rfl⟩)
  match bs with
  | [b] => exact ⟨b.len, by rw [← hfree b (by simp)]⟩
  | b :: c :: bs =>
    rcases (List.isChain_cons_cons.mp hs).1 with hb | hc
    · rw [hfree b (by simp)] at hb
      cases hb
    · rw [hfree c (by simp)] at hc
      cases hc

/-! ## Where a block is -/

/-- The place of a block in use. -/
theorem Live.split (h : Live hdr a bs p n) :
    ∃ pre post, bs = pre ++ ⟨n, true⟩ :: post ∧ p = a + demand (Blk.size hdr) pre := by
  induction bs generalizing a with
  | nil => exact absurd h live_nil
  | cons b bs ih =>
    rw [live_cons] at h
    rcases h with ⟨rfl, rfl⟩ | h
    · exact ⟨[], bs, rfl, by simp⟩
    · obtain ⟨pre, post, rfl, rfl⟩ := ih h
      exact ⟨b :: pre, post, rfl, by rw [demand_cons, Nat.add_assoc]⟩

theorem trim_append (hpos : 0 < hdr) :
    trim hdr room (a + demand (Blk.size hdr) pre) n a (pre ++ b :: post) =
      pre ++ shrink hdr room n b post := by
  induction pre generalizing a with
  | nil => rw [List.nil_append, trim, demand_nil, if_pos (by omega), List.nil_append]
  | cons c pre ih =>
    have hsize : c.size hdr = hdr + c.len := rfl
    rw [List.cons_append, trim, demand_cons, if_neg (by omega), ← Nat.add_assoc, ih,
      List.cons_append]

theorem join_of_apart (h : b.Apart c) : join hdr b (c :: bs) = b :: c :: bs :=
  if_neg fun h' => by
    rcases h with h | h
    · rw [h'.1] at h
      cases h
    · rw [h'.2] at h
      cases h

/-- Joining changes whether a block is in use neither. -/
theorem join_eq_cons (b : Blk) (bs : List Blk) :
    ∃ d ds, join hdr b bs = d :: ds ∧ d.used = b.used := by
  cases bs with
  | nil => exact ⟨b, [], rfl, rfl⟩
  | cons c bs =>
    rw [join]
    split_ifs with h
    · exact ⟨_, _, rfl, h.1.symm⟩
    · exact ⟨_, _, rfl, rfl⟩

/-- The first block is freed. -/
theorem free_cons : free hdr a a (b :: post) = join hdr ⟨b.len, false⟩ post := if_pos rfl

/-- A block with another in front of it is freed. -/
theorem free_append (hpos : 0 < hdr) (hs : Spread (pre ++ [c])) :
    free hdr (a + demand (Blk.size hdr) (pre ++ [c])) a (pre ++ c :: b :: post) =
      pre ++ join hdr c (join hdr ⟨b.len, false⟩ post) := by
  induction pre generalizing a with
  | nil =>
    have hsize : c.size hdr = hdr + c.len := rfl
    simp only [List.nil_append, demand_cons, demand_nil, Nat.add_zero]
    rw [free, if_neg (by omega), free_cons]
  | cons d pre ih =>
    have hsize : d.size hdr = hdr + d.len := rfl
    obtain ⟨hfirst, hs⟩ := List.isChain_cons.mp hs
    rw [List.cons_append, List.cons_append, demand_cons, free, if_neg (by omega), ← Nat.add_assoc,
      ih hs, List.cons_append]
    cases pre with
    | nil =>
      obtain ⟨e, ds, hjoin, hused⟩ := @join_eq_cons hdr c (join hdr ⟨b.len, false⟩ post)
      rw [List.nil_append, hjoin]
      refine join_of_apart ?_
      rw [Blk.Apart, hused]
      exact hfirst c (by simp)
    | cons e pre => exact join_of_apart (hfirst e (by simp))

/-! ## Giving the end of a block back -/

/-- The bytes that are kept. -/
def kept (hdr room n : ℕ) (b : Blk) : List Blk → ℕ
  | [] => granted hdr room n b
  | c :: _ => if c.used = false then n else granted hdr room n b

theorem kept_le (h : n ≤ b.len) : n ≤ kept hdr room n b bs ∧ kept hdr room n b bs ≤ b.len := by
  cases bs with
  | nil =>
    rw [kept, granted]
    split_ifs <;> omega
  | cons c bs =>
    rw [kept, granted]
    split_ifs <;> omega

theorem live_shrink (hb : b.used = true) (h : n ≤ b.len) :
    Live hdr a (shrink hdr room n b bs) q m ↔
      (a = q ∧ m = kept hdr room n b bs) ∨ Live hdr (a + b.size hdr) bs q m := by
  have hb' : b = ⟨b.len, true⟩ := by rw [← hb]
  have hsplit : a + Blk.size hdr ⟨n, true⟩ + Blk.size hdr ⟨b.len - (n + hdr), false⟩ =
      a + b.size hdr ∨ ¬n + hdr + room ≤ b.len := by
    simp only [Blk.size]
    omega
  cases bs with
  | nil =>
    rw [shrink, kept, granted]
    split_ifs
    · simp [live_cons, eq_comm, and_comm]
    · rw [live_cons, hb']
      simp [eq_comm, and_comm]
  | cons c bs =>
    rw [shrink, kept, granted]
    split_ifs with hc hroom
    · have hsum : a + Blk.size hdr ⟨n, true⟩ + Blk.size hdr ⟨b.len - n + c.len, false⟩ =
          a + b.size hdr + c.size hdr := by
        simp only [Blk.size]
        omega
      have hc' : c ≠ ⟨m, true⟩ := by
        rintro rfl
        cases hc
      simp only [live_cons, hsum, hc', false_and, false_or, Blk.mk.injEq, and_true,
        Bool.false_eq_true, and_false, eq_comm (a := m), and_comm (a := a = q)]
    · rw [live_cons, live_cons, hsplit.resolve_right (not_not.mpr hroom)]
      simp only [Blk.mk.injEq, and_true, Bool.false_eq_true, and_false, false_and, false_or,
        eq_comm (a := m), and_comm (a := a = q)]
    · rw [live_cons]
      refine or_congr_left ?_
      rw [hb', Blk.mk.injEq, and_iff_left rfl, and_comm, eq_comm (a := m)]

theorem spread_shrink (hs : Spread (b :: bs)) :
    Spread (shrink hdr room n b bs) := by
  cases bs with
  | nil =>
    rw [shrink]
    split_ifs
    · exact List.isChain_cons_cons.mpr ⟨.inl rfl, List.isChain_singleton _⟩
    · exact hs
  | cons c bs =>
    obtain ⟨-, hs'⟩ := List.isChain_cons_cons.mp hs
    rw [shrink]
    split_ifs with hc
    · obtain ⟨hfirst, hs''⟩ := List.isChain_cons.mp hs'
      refine List.isChain_cons_cons.mpr ⟨.inl rfl, hs''.cons fun d hd => .inr ?_⟩
      rcases hfirst d hd with h | h
      · rw [hc] at h
        cases h
      · exact h
    · rw [Bool.not_eq_false] at hc
      exact List.isChain_cons_cons.mpr ⟨.inl rfl, List.isChain_cons_cons.mpr ⟨.inr hc, hs'⟩⟩
    · exact hs

section Trim

variable {l : ℕ} (hpos : 0 < hdr) (h : Live hdr a bs p l) (hn : n ≤ l)

include hpos h hn

/-- The block keeps a part, and else nothing has changed. -/
theorem live_trim : ∃ k, n ≤ k ∧ k ≤ l ∧ ∀ q m,
    Live hdr a (trim hdr room p n a bs) q m ↔ (Live hdr a bs q m ∧ q ≠ p) ∨ (q = p ∧ m = k) := by
  obtain ⟨pre, post, rfl, rfl⟩ := h.split
  obtain ⟨hlo, hhi⟩ := @kept_le hdr room n ⟨l, true⟩ post hn
  refine ⟨_, hlo, hhi, fun q m => ?_⟩
  rw [trim_append hpos, live_append, live_shrink rfl hn, live_append, live_cons]
  have hfront (h : Live hdr a pre q m) : q ≠ a + demand (Blk.size hdr) pre := by
    have hle := h.within.2
    omega
  have hbehind (h : Live hdr (a + demand (Blk.size hdr) pre + Blk.size hdr ⟨l, true⟩) post q m) :
      q ≠ a + demand (Blk.size hdr) pre := by
    have hle := h.within.1
    simp only [Blk.size] at hle
    omega
  constructor
  · rintro (h | ⟨rfl, rfl⟩ | h)
    · exact .inl ⟨.inl h, hfront h⟩
    · exact .inr ⟨rfl, rfl⟩
    · exact .inl ⟨.inr (.inr h), hbehind h⟩
  · rintro (⟨h | ⟨-, rfl⟩ | h, hne⟩ | ⟨rfl, rfl⟩)
    · exact .inl h
    · exact absurd rfl hne
    · exact .inr (.inr h)
    · exact .inr (.inl ⟨rfl, rfl⟩)

omit hn in
theorem spread_trim (hs : Spread bs) : Spread (trim hdr room p n a bs) := by
  obtain ⟨pre, post, rfl, rfl⟩ := h.split
  obtain ⟨hpre, hpost, hlast⟩ := List.isChain_append.mp hs
  rw [trim_append hpos]
  refine hpre.append (spread_shrink hpost) fun x _ y hy => .inr ?_
  have hhead : ∀ y ∈ (shrink hdr room n ⟨l, true⟩ post).head?, y.used = true := by
    cases post with
    | nil =>
      rw [shrink]
      split_ifs <;> simp
    | cons c post =>
      rw [shrink]
      split_ifs <;> simp
  exact hhead y hy

end Trim

/-! ## The lowest free block -/

theorem lowest_cons_free (hb : b.used = false) : lowest hdr a (b :: bs) = a := by
  rw [lowest, hb]
  rfl

theorem lowest_cons_used (hb : b.used = true) :
    lowest hdr a (b :: bs) = lowest hdr (a + b.size hdr) bs := by
  rw [lowest, if_pos hb]

theorem lowest_append_used (h : ∀ c ∈ pre, c.used = true) :
    lowest hdr a (pre ++ bs) = lowest hdr (a + demand (Blk.size hdr) pre) bs := by
  induction pre generalizing a with
  | nil => rw [List.nil_append, demand_nil, Nat.add_zero]
  | cons c pre ih =>
    obtain ⟨hc, hpre⟩ := List.forall_mem_cons.mp h
    rw [List.cons_append, lowest, if_pos hc, ih hpre, demand_cons, Nat.add_assoc]

theorem lowest_append_free (h : ∃ c ∈ pre, c.used = false) :
    lowest hdr a (pre ++ bs) = lowest hdr a pre := by
  induction pre generalizing a with
  | nil => simp at h
  | cons c pre ih =>
    rw [List.cons_append, lowest, lowest]
    split_ifs with hc
    · obtain ⟨d, hd, hfree⟩ := h
      rcases List.mem_cons.mp hd with rfl | hd
      · rw [hfree] at hc
        cases hc
      · exact ih ⟨d, hd, hfree⟩
    · rfl

theorem used_or_free (bs : List Blk) :
    (∀ c ∈ bs, c.used = true) ∨ ∃ c ∈ bs, c.used = false := by
  by_cases h : ∀ c ∈ bs, c.used = true
  · exact .inl h
  · push Not at h
    simpa using Or.inr (a := ∀ c ∈ bs, c.used = true) h

theorem le_lowest (a : ℕ) (bs : List Blk) :
    a ≤ lowest hdr a bs ∧ lowest hdr a bs ≤ a + demand (Blk.size hdr) bs := by
  induction bs generalizing a with
  | nil => exact ⟨Nat.le_refl a, Nat.le_add_right a _⟩
  | cons b bs ih =>
    have hrest := ih (a + b.size hdr)
    rw [lowest, demand_cons]
    split_ifs <;> omega

theorem lowest_lt (hpos : 0 < hdr) (h : ∃ c ∈ bs, c.used = false) :
    lowest hdr a bs < a + demand (Blk.size hdr) bs := by
  induction bs generalizing a with
  | nil => simp at h
  | cons b bs ih =>
    have hsize : b.size hdr = hdr + b.len := rfl
    rw [lowest, demand_cons]
    split_ifs with hb
    · obtain ⟨d, hd, hfree⟩ := h
      rcases List.mem_cons.mp hd with rfl | hd
      · rw [hfree] at hb
        cases hb
      · have hrest := @ih (a + b.size hdr) ⟨d, hd, hfree⟩
        omega
    · omega

/-- What is behind a free block does not matter. -/
theorem lowest_free_congr {cs : List Blk} (hb : b.used = false) (hc : c.used = false) :
    lowest hdr a (pre ++ b :: bs) = lowest hdr a (pre ++ c :: cs) := by
  rcases used_or_free pre with h | h
  · rw [lowest_append_used h, lowest_append_used h, lowest_cons_free hb, lowest_cons_free hc]
  · rw [lowest_append_free h, lowest_append_free h]

theorem lowest_le_free (hb : b.used = false) :
    lowest hdr a (pre ++ b :: bs) ≤ a + demand (Blk.size hdr) pre := by
  rcases used_or_free pre with h | h
  · rw [lowest_append_used h, lowest_cons_free hb]
  · rw [lowest_append_free h]
    exact (le_lowest a pre).2

/-- A block that becomes free is the lowest, if it lies in front of the lowest one. -/
theorem lowest_freed (hpos : 0 < hdr) (hc : c.used = true) (hb : b.used = false)
    {cs : List Blk} : lowest hdr a (pre ++ b :: cs) =
      if a + demand (Blk.size hdr) pre < lowest hdr a (pre ++ c :: bs) then
        a + demand (Blk.size hdr) pre
      else lowest hdr a (pre ++ c :: bs) := by
  rcases used_or_free pre with h | h
  · have hsize : c.size hdr = hdr + c.len := rfl
    have hle := (@le_lowest hdr (a + demand (Blk.size hdr) pre + c.size hdr) bs).1
    rw [lowest_append_used h, lowest_append_used h, lowest_cons_free hb, lowest_cons_used hc,
      if_pos (by omega)]
  · have hlt := @lowest_lt hdr a pre hpos h
    rw [lowest_append_free h, lowest_append_free h, if_neg (by omega)]

end Blocks

end Enc28j60Udp
