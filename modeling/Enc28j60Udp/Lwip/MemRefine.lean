import Enc28j60Udp.Lwip.MemLayout

/-!
# `mem_malloc` and `mem_trim` on the blocks

`mem_malloc` searches from `lfree` on, in front of which everything is in use, and so it takes the
first free block with room (`memMalloc_refines`). `mem_trim` gives the end of a block back
(`memTrim_refines`).
-/

namespace Enc28j60Udp

namespace Lwip

open Blocks

/-! ## The size of a request -/

section Size

variable {size : ℕ}

theorem effectiveSize_mod (size : ℕ) : effectiveSize size % 4 = 0 := by
  rw [effectiveSize, lwipMemAlignSize, show minSizeAligned = 12 from rfl,
    show memAlignment = 4 from rfl]
  split_ifs <;> omega

theorem le_effectiveSize (size : ℕ) : 12 ≤ effectiveSize size := by
  rw [effectiveSize, show minSizeAligned = 12 from rfl]
  split_ifs <;> omega

/-- The last three sizes are taken for zero. -/
theorem effectiveSize_of_last (hlast : 65532 < size) (hsize : size < 2 ^ 16) :
    effectiveSize size = 12 := by
  rw [effectiveSize, lwipMemAlignSize, show minSizeAligned = 12 from rfl,
    show memAlignment = 4 from rfl]
  split_ifs <;> omega

theorem le_effectiveSize_iff (hsize : size < 2 ^ 16) :
    size ≤ effectiveSize size ↔ size ≤ 65532 := by
  rw [effectiveSize, lwipMemAlignSize, show minSizeAligned = 12 from rfl,
    show memAlignment = 4 from rfl]
  split_ifs <;> omega

end Size

/-! ## `lfree` -/

theorem length_le_total (bs : List Blk) : 8 * bs.length ≤ total bs := by
  induction bs with
  | nil => exact Nat.le_refl _
  | cons b bs ih =>
    rw [List.length_cons, total_cons]
    omega

section Lfree

variable {h : Heap} {pre post bs : List Blk} {b : Blk} {n : ℕ}

/-- The search for the next free block. -/
theorem lfreeLoop_spec {fuel : ℕ} (hl : Layout h (pre ++ bs)) (hfuel : bs.length < fuel) :
    lfreeLoop h fuel (total pre) = some (lowest sizeofStructMem (total pre) bs) := by
  induction bs generalizing pre fuel with
  | nil =>
    obtain ⟨fuel, rfl⟩ := Nat.exists_eq_succ_of_ne_zero (Nat.ne_of_gt hfuel)
    have hend : total pre = memSizeAligned := by
      rw [← hl.total_eq, List.append_nil]
    rw [Nat.succ_eq_add_one, lfreeLoop, if_neg fun h => h.2 hend, lowest]
  | cons b bs ih =>
    obtain ⟨fuel, rfl⟩ := Nat.exists_eq_succ_of_ne_zero (Nat.ne_of_gt (Nat.zero_lt_of_lt hfuel))
    obtain ⟨hnext, -, hused⟩ := hl.header
    have hle := hl.total_le
    have hne : total pre ≠ memSizeAligned := by
      rw [memSizeAligned_eq]
      omega
    rw [Nat.succ_eq_add_one, lfreeLoop, hused, hnext]
    cases hb : b.used with
    | true =>
      have hl' : Layout h ((pre ++ [b]) ++ bs) := by simpa using hl
      have hpos : total (pre ++ [b]) = total pre + (8 + b.len) := by simp
      have hrest := ih hl' (by simpa using hfuel)
      rw [hpos] at hrest
      rw [if_pos ⟨by simp, hne⟩, hrest, lowest_cons_used hb, size_eq]
    | false => rw [if_neg (by simp), lowest_cons_free hb]

/-- The lowest free block: what lies in front of it is in use. -/
theorem exists_lowest (a : ℕ) (bs : List Blk) :
    ∃ pre post, bs = pre ++ post ∧ (∀ c ∈ pre, c.used = true) ∧
      lowest sizeofStructMem a bs = a + total pre ∧
      (post = [] ∨ ∃ b post', post = b :: post' ∧ b.used = false) := by
  induction bs generalizing a with
  | nil => exact ⟨[], [], rfl, by simp, rfl, .inl rfl⟩
  | cons b bs ih =>
    cases hb : b.used with
    | true =>
      obtain ⟨pre, post, rfl, hpre, hlow, hpost⟩ := ih (a + b.size sizeofStructMem)
      refine ⟨b :: pre, post, rfl, List.forall_mem_cons.mpr ⟨hb, hpre⟩, ?_, hpost⟩
      rw [lowest_cons_used hb, hlow, total_cons, size_eq]
      omega
    | false =>
      exact ⟨[], b :: bs, rfl, by simp, by rw [lowest_cons_free hb, total_nil]; rfl,
        .inr ⟨b, bs, rfl, hb⟩⟩

/-- The lowest free block is free, unless it is the end. -/
theorem Layout.used_lowest (hl : Layout h bs) :
    lowest sizeofStructMem 0 bs = memSizeAligned ∨
      h.used (lowest sizeofStructMem 0 bs) = 0 := by
  obtain ⟨pre, post, rfl, -, hlow, rfl | ⟨b, post, rfl, hb⟩⟩ := exists_lowest 0 bs
  · left
    rw [hlow, ← hl.total_eq, List.append_nil, Nat.zero_add]
  · right
    rw [hlow, Nat.zero_add, hl.header.used_eq, hb]
    rfl

end Lfree

/-! ## `mem_malloc` -/

section Malloc

variable {h : Heap} {pre post bs : List Blk} {b : Blk} {n : ℕ}

/-- `lfree` is the lowest free block again. -/
theorem adjustLfree_spec {h' : Heap} {mid : List Blk} (hb : b.used = false)
    (hlow : h.lfree = lowest sizeofStructMem 0 (pre ++ b :: post))
    (hl : Layout h' (pre ++ (mid ++ post))) (hlfree : h'.lfree = h.lfree) :
    ∃ p, adjustLfree h' (total pre) = some (h'.setLfree p) ∧
      p = lowest sizeofStructMem 0 (pre ++ (mid ++ post)) := by
  refine ⟨_, ?_, rfl⟩
  rw [adjustLfree, hlfree, hlow]
  rcases used_or_free pre with hpre | hpre
  · have hold : lowest sizeofStructMem 0 (pre ++ b :: post) = total pre := by
      rw [lowest_append_used hpre, lowest_cons_free hb]
      exact Nat.zero_add _
    have hnew : lowest sizeofStructMem 0 (pre ++ (mid ++ post)) =
        lowest sizeofStructMem (total pre) (mid ++ post) := by
      rw [lowest_append_used hpre]
      exact congrArg (lowest sizeofStructMem · (mid ++ post)) (Nat.zero_add _)
    have hlen := length_le_total (pre ++ (mid ++ post))
    rw [hl.total_eq, memSizeAligned_eq, List.length_append] at hlen
    have hloop : lfreeLoop h' memSizeAligned (total pre) =
        some (lowest sizeofStructMem (total pre) (mid ++ post)) :=
      lfreeLoop_spec hl (by rw [memSizeAligned_eq]; omega)
    have hassert : lowest sizeofStructMem (total pre) (mid ++ post) = memSizeAligned ∨
        h'.used (lowest sizeofStructMem (total pre) (mid ++ post)) = 0 := by
      rw [← hnew]
      exact hl.used_lowest
    rw [if_pos hold.symm, hold, hloop, hnew]
    simp only [Option.bind_eq_bind, Option.bind_some, assert_of hassert]
  · have hlt := @lowest_lt sizeofStructMem 0 pre (by decide) hpre
    have hpos : 0 + demand (Blk.size sizeofStructMem) pre = total pre := Nat.zero_add _
    have hne : total pre ≠ lowest sizeofStructMem 0 (pre ++ b :: post) := by
      rw [lowest_append_free hpre]
      omega
    have hsame : lowest sizeofStructMem 0 (pre ++ (mid ++ post)) = h'.lfree := by
      rw [hlfree, hlow, lowest_append_free hpre, lowest_append_free hpre]
    rw [if_neg hne, hsame]
    rfl

theorem aligned_place (hn : n % 4 = 0) (hb : b.len % 4 = 0) :
    ∀ c ∈ place sizeofStructMem minSizeAligned n b, c.len % 4 = 0 := by
  unfold place
  split_ifs with hroom
  · rw [show sizeofStructMem = 8 from rfl] at hroom ⊢
    exact List.forall_mem_cons.mpr ⟨hn, List.forall_mem_singleton.mpr (by dsimp only; omega)⟩
  · exact List.forall_mem_singleton.mpr hb

theorem large_place (hn : 12 ≤ n) (hfits : b.Fits n) :
    ∀ c ∈ place sizeofStructMem minSizeAligned n b, c.used = true → 12 ≤ c.len := by
  unfold place
  split_ifs
  · exact List.forall_mem_cons.mpr ⟨fun _ => hn, List.forall_mem_singleton.mpr (by simp)⟩
  · exact List.forall_mem_singleton.mpr fun _ => hn.trans hfits.2

@[simp] theorem setLfree_base (h : Heap) (p : ℕ) : (h.setLfree p).base = h.base := rfl

/-- The last assertions of `mem_malloc`. -/
theorem mallocAt_eq {h₁ : Heap} {mem : ℕ} (h₁_eq : adjustLfree (takeBlock h n mem) mem = some h₁)
    (hassert : h₁.base + mem + sizeofStructMem + n ≤ h₁.base + memSizeAligned ∧
      (h₁.base + mem + sizeofStructMem) % memAlignment = 0 ∧
      (h₁.base + mem) % memAlignment = 0) :
    mallocAt h n mem = some (h₁.base + mem + sizeofStructMem, h₁) := by
  rw [mallocAt, h₁_eq]
  simp only [Option.bind_eq_bind, Option.bind_some, assert_of hassert.1, assert_of hassert.2.1,
    assert_of hassert.2.2]

/-- What is left when a block was taken and `lfree` is right again. -/
theorem result_take {h₁ : Heap} {p : ℕ} (hv : Valid h (pre ++ b :: post)) (hfits : b.Fits n)
    (hn : n % 4 = 0) (hmin : 12 ≤ n)
    (hl : Layout h₁ (pre ++ (place sizeofStructMem minSizeAligned n b ++ post)))
    (hw : Writes h h₁ (total pre) (total pre + (8 + b.len)))
    (hp : p = lowest sizeofStructMem 0
      (pre ++ (place sizeofStructMem minSizeAligned n b ++ post))) :
    Result h (h₁.setLfree p) (pre ++ (place sizeofStructMem minSizeAligned n b ++ post))
      (pre ++ b :: post) where
  valid.layout := hl.setLfree p
  valid.lfree_eq := hp
  valid.spread := hv.spread.replace hfits.1 (spread_place n b)
  valid.aligned c hc := by
    rw [List.mem_append, List.mem_append] at hc
    rcases hc with hc | hc | hc
    · exact hv.aligned c (by simp [hc])
    · exact aligned_place hn (hv.aligned b (by simp)) c hc
    · exact hv.aligned c (by simp [hc])
  valid.large c hc := by
    rw [List.mem_append, List.mem_append] at hc
    rcases hc with hc | hc | hc
    · exact hv.large c (by simp [hc])
    · exact large_place hmin hfits c hc
    · exact hv.large c (by simp [hc])
  valid.base_mod := (congrArg (· % 4) hw.base_eq).trans hv.base_mod
  valid.asserts_eq := hw.asserts_eq.trans hv.asserts_eq
  base_eq := hw.base_eq
  keeps := by
    have hkeeps : Keeps h h₁ (pre ++ ([b] ++ post)) :=
      Writes.keeps (by simpa using hw) (by simpa using hfits.1)
    exact hkeeps
  behind x hx := by
    have hle := hv.layout.total_le
    rw [memSizeAligned_eq] at hx
    exact hw.behind x (by omega) (by omega) (by omega)

/-- A block with room is taken. -/
theorem mallocAt_spec (hv : Valid h (pre ++ b :: post)) (hfits : b.Fits n) (hn : n % 4 = 0)
    (hmin : 12 ≤ n) :
    ∃ h', mallocAt h n (total pre) = some (h.base + total pre + sizeofStructMem, h') ∧
      Result h h' (pre ++ (place sizeofStructMem minSizeAligned n b ++ post))
        (pre ++ b :: post) := by
  obtain ⟨hl, hw, hlfree⟩ := takeBlock_spec n hv.layout
  obtain ⟨p, hadjust, hp⟩ := adjustLfree_spec hfits.1 hv.lfree_eq hl hlfree
  have hle := hv.layout.total_le
  have hlen := hfits.2
  have hbase := hv.base_mod
  have hmod := total_mod fun c hc => hv.aligned c (List.mem_append_left _ hc)
  refine ⟨_, (mallocAt_eq hadjust ?_).trans ?_, result_take hv hfits hn hmin hl hw hp⟩
  · rw [setLfree_base, hw.base_eq, memSizeAligned_eq, show sizeofStructMem = 8 from rfl,
      show memAlignment = 4 from rfl]
    omega
  · rw [setLfree_base, hw.base_eq]

/-- `mem_malloc` returns what `alloc` takes. -/
def Returns (h : Heap) (bs : List Blk) (r : Option (ℕ × Heap)) : Option (ℕ × List Blk) → Prop
  | none => r = some (null, h)
  | some (p, bs') => ∃ h', r = some (h.base + p + sizeofStructMem, h') ∧ Result h h' bs' bs

/-- From a place on where no room for `n` bytes is left, no block has room. -/
theorem not_fits_of_le (hl : Layout h (pre ++ bs)) (hle : memSizeAligned - n ≤ total pre) :
    ∀ c ∈ bs, ¬c.Fits n := by
  intro c hc hfits
  obtain ⟨l, l', rfl⟩ := List.append_of_mem hc
  have htotal := hl.total_eq
  have hlen := hfits.2
  simp only [total_append, total_cons] at htotal
  omega

/-- The search of `mem_malloc`: the blocks in front have no room. -/
theorem mallocLoop_spec {fuel : ℕ} (hv : Valid h (pre ++ bs)) (hpre : ∀ c ∈ pre, ¬c.Fits n)
    (hn : n % 4 = 0) (hmin : 12 ≤ n) (hfuel : bs.length < fuel) :
    Returns h (pre ++ bs) (mallocLoop h n fuel (total pre))
      (alloc sizeofStructMem minSizeAligned n 0 (pre ++ bs)) := by
  induction bs generalizing pre fuel with
  | nil =>
    obtain ⟨fuel, rfl⟩ := Nat.exists_eq_succ_of_ne_zero (Nat.ne_of_gt hfuel)
    have hend : total pre = memSizeAligned := by
      rw [← hv.layout.total_eq, List.append_nil]
    have hnone : alloc sizeofStructMem minSizeAligned n 0 (pre ++ []) = none :=
      alloc_eq_none_iff_fits.mpr (by simpa using hpre)
    rw [hnone, Nat.succ_eq_add_one, mallocLoop, hend, if_neg (by omega)]
    rfl
  | cons b bs ih =>
    obtain ⟨fuel, rfl⟩ := Nat.exists_eq_succ_of_ne_zero (Nat.ne_of_gt (Nat.zero_lt_of_lt hfuel))
    have hle := hv.layout.total_le
    have hsize := hv.layout.userSize
    have hused := hv.layout.header.used_eq
    rw [← memSizeAligned_eq] at hle
    rw [Nat.succ_eq_add_one, mallocLoop, hsize, hused, hv.layout.header.next_eq]
    by_cases hfits : b.Fits n
    · obtain ⟨h', hrun, hresult⟩ := mallocAt_spec hv hfits hn hmin
      have hlen := hfits.2
      rw [alloc_of_fits hpre hfits, if_pos (by omega), if_pos ⟨by rw [hfits.1]; rfl, hlen⟩, hrun]
      refine ⟨h', ?_, hresult⟩
      exact congrArg (fun a => some (h.base + a + sizeofStructMem, h')) (Nat.zero_add _).symm
    · have hnot : ¬((if b.used = true then (1 : UInt8) else 0) = 0 ∧ n ≤ b.len) := by
        rintro ⟨hzero, hlen⟩
        cases hb : b.used with
        | true =>
          rw [hb] at hzero
          exact absurd hzero (by decide)
        | false => exact hfits ⟨hb, hlen⟩
      rw [if_neg hnot]
      have happ : pre ++ b :: bs = (pre ++ [b]) ++ bs := by simp
      split_ifs with hlt
      · have hpos : total (pre ++ [b]) = total pre + (8 + b.len) := by simp
        have hrest := @ih (pre ++ [b]) fuel (happ ▸ hv)
          (List.forall_mem_append.mpr ⟨hpre, by simpa using hfits⟩) (by simpa using hfuel)
        rw [happ, ← hpos]
        exact hrest
      · have hnone : alloc sizeofStructMem minSizeAligned n 0 (pre ++ b :: bs) = none :=
          alloc_eq_none_iff_fits.mpr (List.forall_mem_append.mpr
            ⟨hpre, not_fits_of_le hv.layout (by omega)⟩)
        rw [hnone]
        rfl

/-- **`mem_malloc`** takes the first free block with room, and returns `NULL` if there is none. -/
theorem memMalloc_refines {size : ℕ} (hv : Valid h bs) (hsize : size ≠ 0) :
    Returns h bs (memMalloc h size)
      (alloc sizeofStructMem minSizeAligned (effectiveSize size) 0 bs) := by
  rw [memMalloc, if_neg hsize]
  dsimp only
  split_ifs with hlarge
  · have hnone : alloc sizeofStructMem minSizeAligned (effectiveSize size) 0 bs = none :=
      alloc_eq_none_iff_fits.mpr
        (@not_fits_of_le h [] bs _ hv.layout (by rw [total_nil]; omega))
    rw [hnone]
    rfl
  · obtain ⟨pre, post, rfl, hpre, hlow, -⟩ := exists_lowest 0 bs
    have hlen := length_le_total (pre ++ post)
    rw [hv.layout.total_eq, memSizeAligned_eq, List.length_append] at hlen
    rw [hv.lfree_eq, hlow, Nat.zero_add]
    refine mallocLoop_spec hv (fun c hc hfits => ?_) (effectiveSize_mod size)
      (le_effectiveSize size) (by rw [memSizeAligned_eq]; omega)
    have hused := hfits.1
    rw [hpre c hc] at hused
    cases hused

end Malloc

/-! ## `mem_trim` -/

section Trim

variable {h : Heap} {pre post bs : List Blk} {l n : ℕ}

theorem aligned_shrink (hn : n % 4 = 0) (hl : l % 4 = 0) {u : Bool}
    (hpost : ∀ c ∈ post, c.len % 4 = 0) :
    ∀ c ∈ shrink sizeofStructMem minSizeAligned n ⟨l, u⟩ post, c.len % 4 = 0 := by
  have hrest : n + sizeofStructMem + minSizeAligned ≤ l → (l - (n + sizeofStructMem)) % 4 = 0 := by
    rw [show sizeofStructMem = 8 from rfl]
    omega
  cases post with
  | nil =>
    rw [shrink]
    split_ifs with hroom
    · exact List.forall_mem_cons.mpr ⟨hn, List.forall_mem_singleton.mpr (hrest hroom)⟩
    · exact List.forall_mem_singleton.mpr hl
  | cons c post =>
    obtain ⟨hc, hpost⟩ := List.forall_mem_cons.mp hpost
    rw [shrink]
    split_ifs with hfree hroom
    · have hsum : (l - n + c.len) % 4 = 0 := by omega
      exact List.forall_mem_cons.mpr ⟨hn, List.forall_mem_cons.mpr ⟨hsum, hpost⟩⟩
    · exact List.forall_mem_cons.mpr ⟨hn, List.forall_mem_cons.mpr ⟨hrest hroom,
        List.forall_mem_cons.mpr ⟨hc, hpost⟩⟩⟩
    · exact List.forall_mem_cons.mpr ⟨hl, List.forall_mem_cons.mpr ⟨hc, hpost⟩⟩

theorem lowest_shrunk {k : ℕ} (h : ∀ c ∈ pre, c.used = true) :
    lowest sizeofStructMem 0 (pre ++ ⟨n, true⟩ :: ⟨k, false⟩ :: bs) = total pre + (8 + n) := by
  rw [lowest_append_used h, lowest_cons_used rfl, lowest_cons_free rfl, size_eq]
  exact congrArg (· + (8 + n)) (Nat.zero_add _)

/-- What is left when the blocks behind the place of the shrunken block are right. -/
theorem result_trim {h' : Heap} {old new post' : List Blk}
    (hv : Valid h (pre ++ ⟨l, true⟩ :: post)) (hn : n % 4 = 0) (hmin : 12 ≤ n) (hle : n ≤ l)
    (hold : post = old ++ post') (hfree : ∀ b ∈ old, b.used = false)
    (hnew : shrink sizeofStructMem minSizeAligned n ⟨l, true⟩ post = new ++ post')
    (hl : Layout h' (pre ++ (new ++ post')))
    (hw : Writes h h' (total pre) (total pre + total (⟨l, true⟩ :: old)))
    (hlow : h'.lfree = lowest sizeofStructMem 0 (pre ++ (new ++ post')))
    (hdata : ∀ i < kept sizeofStructMem minSizeAligned n ⟨l, true⟩ post,
      h'.ram (total pre + 8 + i) = h.ram (total pre + 8 + i)) :
    let bs' := trim sizeofStructMem minSizeAligned (total pre) n 0 (pre ++ ⟨l, true⟩ :: post)
    Result h h' bs' bs' := by
  intro bs'
  have hlive : Live sizeofStructMem 0 (pre ++ ⟨l, true⟩ :: post) (total pre) l := by
    rw [live_append, live_cons]
    exact .inr (.inl ⟨rfl, Nat.zero_add _⟩)
  have htrim : bs' = pre ++ shrink sizeofStructMem minSizeAligned n ⟨l, true⟩ post := by
    have heq := @trim_append sizeofStructMem minSizeAligned 0 n ⟨l, true⟩ pre post (by decide)
    rw [Nat.zero_add] at heq
    exact heq
  have hspread : Spread bs' := spread_trim (by decide) hlive hv.spread
  have haligned : ∀ b ∈ bs', b.len % 4 = 0 := by
    rw [htrim]
    exact List.forall_mem_append.mpr ⟨fun b hb => hv.aligned b (by simp [hb]),
      aligned_shrink hn (hv.aligned ⟨l, true⟩ (by simp)) fun b hb => hv.aligned b (by simp [hb])⟩
  have hlarge : ∀ b ∈ bs', b.used = true → 12 ≤ b.len := by
    obtain ⟨k, hk, -, hiff⟩ := @live_trim _ minSizeAligned _ _ _ _ _ (by decide) hlive hle
    rw [large_iff_live]
    intro q m hq
    rcases (hiff q m).mp hq with ⟨hq, -⟩ | ⟨-, rfl⟩
    · exact large_iff_live.mp hv.large q m hq
    · exact hmin.trans hk
  have hend : total pre + (8 + l) + total post = 10240 := hv.layout.total_le
  have hw : Writes h h' (total pre) (total pre + (8 + l + total old)) := by
    rw [total_cons] at hw
    exact hw
  have hpost : total post = total old + total post' := by rw [hold, total_append]
  have heq : bs' = pre ++ (new ++ post') := by rw [htrim, hnew]
  refine ⟨⟨heq ▸ hl, heq ▸ hlow, hspread, haligned, hlarge, ?_, ?_⟩, hw.base_eq,
    fun q m hq i hi => ?_, fun x hx => ?_⟩
  · rw [hw.base_eq]
    exact hv.base_mod
  · exact hw.asserts_eq.trans hv.asserts_eq
  · rw [htrim, live_append, live_shrink rfl hle, hold, live_append] at hq
    rcases hq with hq | ⟨hq, rfl⟩ | hq | hq
    · have hwithin : q + 8 + m ≤ 0 + total pre := hq.within.2
      exact hw.front _ (by omega)
    · obtain rfl : total pre = q := (Nat.zero_add _).symm.trans hq
      rw [← hold] at hi
      exact hdata i hi
    · obtain ⟨l₁, l₂, rfl, -⟩ := hq.split
      cases hfree _ (List.mem_append_right l₁ (List.mem_cons_self ..))
    · have hwithin : 0 + total pre + (8 + l) + total old ≤ q := hq.within.1
      exact hw.behind _ (by omega) (by omega) (by omega)
  · rw [memSizeAligned_eq] at hx
    exact hw.behind x (by omega) (by omega) (by omega)

/-- `lfree` moves, and nothing else. -/
structure Relowered (h h₁ : Heap) : Prop where
  ram_eq : h₁.ram = h.ram
  base_eq : h₁.base = h.base
  asserts_eq : h₁.asserts = h.asserts

theorem relowered_ite (h : Heap) (p : ℕ) (c : Prop) [Decidable c] :
    Relowered h (if c then h.setLfree p else h) := by
  split_ifs <;> exact ⟨rfl, rfl, rfl⟩

theorem Relowered.layout {h₁ : Heap} (hr : Relowered h h₁) (hl : Layout h bs) : Layout h₁ bs := by
  obtain ⟨base, ram, lfree, asserts⟩ := h₁
  obtain ⟨rfl, rfl, rfl⟩ := hr
  exact hl.setLfree lfree

/-- A block is made between the shrunken block and what is behind. -/
theorem result_makeBlock {h₁ : Heap} {old post' : List Blk} {k : ℕ}
    (hv : Valid h (pre ++ ⟨l, true⟩ :: post)) (hn : n % 4 = 0) (hmin : 12 ≤ n) (hle : n ≤ l)
    (hr : Relowered h h₁) (hold : post = old ++ post') (hfree : ∀ b ∈ old, b.used = false)
    (hnew : shrink sizeofStructMem minSizeAligned n ⟨l, true⟩ post =
      [⟨n, true⟩, ⟨k, false⟩] ++ post')
    (htotal : 8 + n + (8 + k) = total (⟨l, true⟩ :: old))
    (hlow : h₁.lfree = lowest sizeofStructMem 0 (pre ++ ⟨n, true⟩ :: ⟨k, false⟩ :: post'))
    (hkept : kept sizeofStructMem minSizeAligned n ⟨l, true⟩ post = n) :
    let bs' := trim sizeofStructMem minSizeAligned (total pre) n 0 (pre ++ ⟨l, true⟩ :: post)
    Result h (linkBack (newBlock h₁ (total pre) (total pre + (8 + n))
      (total pre + total (⟨l, true⟩ :: old))) (total pre + (8 + n))) bs' bs' := by
  have hl₁ : Layout h₁ (pre ++ (⟨l, true⟩ :: old ++ post')) := by
    rw [List.cons_append, ← hold]
    exact hr.layout hv.layout
  obtain ⟨hlayout, hw, hlfree, hdata⟩ := makeBlock_spec hl₁ htotal
    (hr.layout hv.layout).header
  refine result_trim hv hn hmin hle hold hfree hnew hlayout
    ⟨hr.ram_eq ▸ hw.front, hr.ram_eq ▸ hw.behind, hw.base_eq.trans hr.base_eq,
      hw.asserts_eq.trans hr.asserts_eq⟩ (hlfree.trans hlow) ?_
  rw [hkept, ← hr.ram_eq]
  exact hdata

/-- The free block behind moves down. -/
theorem moveNext_spec {c : Blk} (hv : Valid h (pre ++ ⟨l, true⟩ :: c :: post))
    (hc : c.used = false) (hn : n % 4 = 0) (hmin : 12 ≤ n) (hle : n ≤ l) :
    let bs' := trim sizeofStructMem minSizeAligned (total pre) n 0 (pre ++ ⟨l, true⟩ :: c :: post)
    Result h (moveNext h (total pre) (total pre + (8 + n))) bs' bs' := by
  intro bs'
  have hnext : h.next (total pre) = total pre + (8 + l) := hv.layout.header.next_eq
  have hl' : Layout h ((pre ++ [⟨l, true⟩]) ++ c :: post) := by simpa using hv.layout
  have hpos : total (pre ++ [(⟨l, true⟩ : Blk)]) = total pre + (8 + l) := by simp
  have hnext' := hl'.header.next_eq
  rw [hpos] at hnext'
  have htotal : total [(⟨l, true⟩ : Blk), c] = 8 + l + (8 + c.len) := by simp
  have hend : total pre + (8 + l) + (8 + c.len) = total pre + total [(⟨l, true⟩ : Blk), c] := by
    omega
  have hlow :
      (if h.lfree = total pre + (8 + l) then h.setLfree (total pre + (8 + n)) else h).lfree =
      lowest sizeofStructMem 0 (pre ++ ⟨n, true⟩ :: ⟨l - n + c.len, false⟩ :: post) := by
    have hold := hv.lfree_eq
    rcases used_or_free pre with hpre | hpre
    · rw [lowest_append_used hpre, lowest_cons_used rfl, lowest_cons_free hc, size_eq] at hold
      have hold' : h.lfree = total pre + (8 + l) :=
        hold.trans (congrArg (· + (8 + l)) (Nat.zero_add _))
      rw [if_pos hold', lowest_shrunk hpre]
      rfl
    · have hlt := @lowest_lt sizeofStructMem 0 pre (by decide) hpre
      have hpos' : 0 + demand (Blk.size sizeofStructMem) pre = total pre := Nat.zero_add _
      rw [lowest_append_free hpre] at hold
      rw [if_neg (by omega), lowest_append_free hpre, hold]
  rw [moveNext, hnext, hnext', hend]
  exact result_makeBlock hv hn hmin hle (relowered_ite h _ _)
    (show c :: post = [c] ++ post from rfl) (by simp [hc]) (if_pos hc)
    (by rw [htotal]; dsimp only; omega) hlow (if_pos hc)

theorem shrink_of_used (hroom : n + sizeofStructMem + minSizeAligned ≤ l)
    (hpost : ∀ c ∈ post.head?, c.used = true) :
    shrink sizeofStructMem minSizeAligned n ⟨l, true⟩ post =
        [⟨n, true⟩, ⟨l - (n + sizeofStructMem), false⟩] ++ post ∧
      kept sizeofStructMem minSizeAligned n ⟨l, true⟩ post = n := by
  cases post with
  | nil => exact ⟨if_pos hroom, if_pos hroom⟩
  | cons c post =>
    have hc : ¬c.used = false := by
      rw [hpost c (by simp)]
      simp
    exact ⟨(if_neg hc).trans (if_pos hroom), (if_neg hc).trans (if_pos hroom)⟩

/-- What is given back becomes a block. -/
theorem splitOff_spec (hv : Valid h (pre ++ ⟨l, true⟩ :: post)) (hn : n % 4 = 0) (hmin : 12 ≤ n)
    (hroom : n + sizeofStructMem + minSizeAligned ≤ l)
    (hpost : ∀ c ∈ post.head?, c.used = true) :
    let bs' := trim sizeofStructMem minSizeAligned (total pre) n 0 (pre ++ ⟨l, true⟩ :: post)
    Result h (splitOff h (total pre) (total pre + (8 + n))) bs' bs' := by
  intro bs'
  have hroom' : n + 8 + 12 ≤ l := hroom
  have hnext : h.next (total pre) = total pre + (8 + l) := hv.layout.header.next_eq
  have htotal : total [(⟨l, true⟩ : Blk)] = 8 + l := by simp
  obtain ⟨hshrink, hkept⟩ := shrink_of_used hroom hpost
  have hlow :
      (if total pre + (8 + n) < h.lfree then h.setLfree (total pre + (8 + n)) else h).lfree =
      lowest sizeofStructMem 0
        (pre ++ ⟨n, true⟩ :: ⟨l - (n + sizeofStructMem), false⟩ :: post) := by
    have hold := hv.lfree_eq
    rcases used_or_free pre with hpre | hpre
    · have hle := (@le_lowest sizeofStructMem
        (0 + demand (Blk.size sizeofStructMem) pre + (8 + l)) post).1
      have hpos' : 0 + demand (Blk.size sizeofStructMem) pre = total pre := Nat.zero_add _
      rw [lowest_append_used hpre, lowest_cons_used rfl, size_eq] at hold
      dsimp only at hold
      rw [if_pos (by omega), lowest_shrunk hpre]
      rfl
    · have hlt := @lowest_lt sizeofStructMem 0 pre (by decide) hpre
      have hpos' : 0 + demand (Blk.size sizeofStructMem) pre = total pre := Nat.zero_add _
      rw [lowest_append_free hpre] at hold
      rw [if_neg (by omega), lowest_append_free hpre, hold]
  have hram := (relowered_ite h (total pre + (8 + n)) (total pre + (8 + n) < h.lfree)).ram_eq
  have hnext' : (if total pre + (8 + n) < h.lfree then h.setLfree (total pre + (8 + n))
      else h).next (total pre) = total pre + total [(⟨l, true⟩ : Blk)] := by
    rw [htotal, ← hnext, Heap.next, hram, Heap.next]
  rw [splitOff, hnext']
  exact result_makeBlock hv hn hmin (by omega) (relowered_ite h _ _)
    (show post = [] ++ post from rfl) (by simp) hshrink
    (by rw [htotal, show sizeofStructMem = 8 from rfl]; omega) hlow hkept

theorem shrink_of_no_room (hroom : ¬n + sizeofStructMem + minSizeAligned ≤ l)
    (hpost : ∀ c ∈ post.head?, c.used = true) :
    shrink sizeofStructMem minSizeAligned n ⟨l, true⟩ post = ⟨l, true⟩ :: post := by
  cases post with
  | nil => exact if_neg hroom
  | cons c post =>
    have hc : ¬c.used = false := by
      rw [hpost c (by simp)]
      simp
    exact (if_neg hc).trans (if_neg hroom)

/-- The flag of the block behind a block in use. -/
theorem Layout.next_used (hl : Layout h (pre ++ ⟨l, true⟩ :: post)) :
    (h.used (h.next (total pre)) ≠ 0 ∧ ∀ c ∈ post.head?, c.used = true) ∨
      (h.used (h.next (total pre)) = 0 ∧ ∃ c post', post = c :: post' ∧ c.used = false) := by
  have hend : total pre + (8 + l) + total post = 10240 := hl.total_le
  have hnext : h.next (total pre) = total pre + (8 + l) := hl.header.next_eq
  rw [hnext]
  cases post with
  | nil =>
    rw [total_nil, Nat.add_zero, ← memSizeAligned_eq] at hend
    rw [hend, hl.stop_used]
    exact .inl ⟨by simp, by simp⟩
  | cons c post =>
    have hl' : Layout h ((pre ++ [⟨l, true⟩]) ++ c :: post) := by simpa using hl
    have hpos : total (pre ++ [(⟨l, true⟩ : Blk)]) = total pre + (8 + l) := by simp
    have hused := hl'.header.used_eq
    rw [hpos] at hused
    rw [hused]
    cases hc : c.used with
    | true => exact .inl ⟨by simp, by simpa using hc⟩
    | false => exact .inr ⟨by simp, c, post, rfl, hc⟩

/-- **`mem_trim`** gives the end of the block back. -/
theorem memTrim_refines {q newsize : ℕ} (hv : Valid h bs) (hlive : Live sizeofStructMem 0 bs q l)
    (hle : effectiveSize newsize ≤ l) :
    let bs' := trim sizeofStructMem minSizeAligned q (effectiveSize newsize) 0 bs
    ∃ h', memTrim h (h.base + q + sizeofStructMem) newsize =
      some (h.base + q + sizeofStructMem, h') ∧ Result h h' bs' bs' := by
  obtain ⟨pre, post, rfl, hq⟩ := hlive.split
  obtain rfl : q = total pre := hq.trans (Nat.zero_add _)
  obtain ⟨-, hlegal, hout, hfront, hmem⟩ := hv.block_address
  have hend : total pre + (8 + l) + total post = 10240 := hv.layout.total_le
  have hnext : h.next (total pre) = total pre + (8 + l) := hv.layout.header.next_eq
  have hn := effectiveSize_mod newsize
  have hmin := le_effectiveSize newsize
  have hsize : (h.next (total pre) + 2 ^ 32 - total pre - sizeofStructMem) % 2 ^ 16 = l := by
    rw [hnext, show sizeofStructMem = 8 from rfl]
    omega
  have hfits : ¬memSizeAligned < effectiveSize newsize := by
    rw [memSizeAligned_eq]
    omega
  have hptr : (total pre + sizeofStructMem + effectiveSize newsize) % 2 ^ 16 =
      total pre + (8 + effectiveSize newsize) := by
    rw [show sizeofStructMem = 8 from rfl]
    omega
  intro bs'
  have hrun : memTrim h (h.base + total pre + sizeofStructMem) newsize =
      if effectiveSize newsize = l then some (h.base + total pre + sizeofStructMem, h)
      else if h.used (h.next (total pre)) = 0 then
        some (h.base + total pre + sizeofStructMem,
          moveNext h (total pre) (total pre + (8 + effectiveSize newsize)))
      else if effectiveSize newsize + sizeofStructMem + minSizeAligned ≤ l then
        some (h.base + total pre + sizeofStructMem,
          splitOff h (total pre) (total pre + (8 + effectiveSize newsize)))
      else some (h.base + total pre + sizeofStructMem, h) := by
    simp only [memTrim, if_neg hfits, assert_of hlegal, if_neg hout, if_neg hfront, hmem, hsize,
      assert_of hle, if_neg (Nat.not_lt.mpr hle), hptr]
  have htrim : bs' = pre ++ shrink sizeofStructMem minSizeAligned (effectiveSize newsize)
      ⟨l, true⟩ post := by
    have heq := @trim_append sizeofStructMem minSizeAligned 0 (effectiveSize newsize) ⟨l, true⟩ pre
      post (by decide)
    rw [Nat.zero_add] at heq
    exact heq
  have hsame (hshrink : shrink sizeofStructMem minSizeAligned (effectiveSize newsize) ⟨l, true⟩
      post = ⟨l, true⟩ :: post) : Result h h bs' bs' := by
    rw [htrim, hshrink]
    exact ⟨hv, rfl, fun _ _ _ _ _ => rfl, fun _ _ => rfl⟩
  rw [hrun]
  rcases hv.layout.next_used with ⟨hused, hpost⟩ | ⟨hused, c, post, rfl, hc⟩
  · rw [if_neg hused]
    split_ifs with heq hroom
    · refine ⟨h, rfl, hsame ?_⟩
      rw [shrink_of_no_room (by rw [heq, show sizeofStructMem = 8 from rfl]; omega) hpost]
    · exact ⟨_, rfl, splitOff_spec hv hn hmin hroom hpost⟩
    · exact ⟨h, rfl, hsame (shrink_of_no_room hroom hpost)⟩
  · rw [if_pos hused]
    split_ifs with heq
    · refine ⟨h, rfl, hsame ?_⟩
      rw [heq, shrink, if_pos hc, Nat.sub_self, Nat.zero_add, ← hc]
    · exact ⟨_, rfl, moveNext_spec hv hc hn hmin hle⟩

end Trim

end Lwip

end Enc28j60Udp
