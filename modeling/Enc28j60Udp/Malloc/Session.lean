import Enc28j60Udp.Malloc.Scan
import Enc28j60Udp.Foundations.Runs
import Mathlib.Data.Finset.Card
import Mathlib.Order.Interval.Finset.Nat

/-!
# Sessions of allocator calls

A session is a pool together with the ghost list of the allocations that its caller holds: the
pointers `mymalloc` returned and `myfree` was not yet called with. The table alone does not
determine it, since two adjacent allocations of one length look like a single range.

`Overlay base s` is the invariant: the held allocations are disjoint ranges of cells that are free
in `base`, each marked with its own count, and every other cell is as in `base`. It holds of any
table with no allocation held, so it covers both a run from `my_mem_init`, where `base` is the
cleared table, and an interrupt handler that starts on a table in the middle of an update.
-/

namespace Enc28j60Udp

/-- An allocation: the pointer `mymalloc` returned and the size it was asked for. -/
structure Alloc where
  ptr : ℕ
  size : ℕ
  deriving DecidableEq

/-- A pool and the allocations held by the caller. -/
structure Session where
  dev : MallcoDev
  live : List Alloc

/-- The calls of a session: `mymalloc` of a size, `myfree` of a held pointer given by its position
in the list of held allocations. -/
inductive Call
  | malloc (size : ℕ)
  | free (i : ℕ)

section Session

variable (P : Placement) (x : MemX)

/-- The first block of an allocation. -/
def Alloc.first (a : Alloc) : ℕ := (a.ptr - P.membase x) / 32

/-- The blocks of an allocation of `size` bytes. -/
def Alloc.cells (a : Alloc) : Finset ℕ :=
  Finset.Ico (a.first P x) (a.first P x + blocks a.size)

theorem Alloc.mem_cells {a : Alloc} {i : ℕ} :
    i ∈ a.cells P x ↔ a.first P x ≤ i ∧ i < a.first P x + blocks a.size := Finset.mem_Ico

@[simp] theorem Alloc.first_blockAddr (o size : ℕ) :
    (Alloc.mk (blockAddr P x o) size).first P x = o := by
  simp [Alloc.first, blockAddr]

/-- The table with the cells of `S` cleared. -/
def clear (m : ℕ → ℕ) (S : Finset ℕ) : ℕ → ℕ := fun i => if i ∈ S then 0 else m i

theorem fill_eq_clear (m : ℕ → ℕ) (a : Alloc) :
    fill m (a.first P x) (blocks a.size) 0 = clear m (a.cells P x) := by
  funext i
  simp only [clear, fill, Alloc.mem_cells]

/-- One call of a session. -/
def callStep (s : Session) : Call → Session
  | .malloc size =>
    let r := Prog.run memStep (mymalloc P x size) s.dev
    match r.1 with
    | some p => if p = null then ⟨r.2, s.live⟩ else ⟨r.2, ⟨p, size⟩ :: s.live⟩
    | none => ⟨r.2, s.live⟩
  | .free i =>
    match s.live[i]? with
    | some a => ⟨(Prog.run memStep (myfree P x a.ptr) s.dev).2, s.live.eraseIdx i⟩
    | none => s

variable {P x} {s : Session}

theorem callStep_malloc_of_some (hd : s.dev.memrdy = true) {size o : ℕ}
    (hg : grant x s.dev.memmap size = some o) :
    callStep P x s (.malloc size) =
      ⟨{ s.dev with memmap := fill s.dev.memmap o (nmembOf x size) (nmembOf x size) },
        ⟨blockAddr P x o, size⟩ :: s.live⟩ := by
  simp only [callStep, run_mymalloc_of_some P x hd hg, if_neg (blockAddr_ne_null P x o)]

theorem callStep_malloc_of_none (hd : s.dev.memrdy = true) {size : ℕ}
    (hg : grant x s.dev.memmap size = none) : callStep P x s (.malloc size) = s := by
  simp only [callStep, run_mymalloc_of_none P x hd hg, if_true]

theorem callStep_free_of_some (hd : s.dev.memrdy = true) {i o : ℕ} {a : Alloc}
    (hi : s.live[i]? = some a) (ha : a.ptr = blockAddr P x o) (ho : o < memtblsize x) :
    callStep P x s (.free i) =
      ⟨{ s.dev with memmap := fill s.dev.memmap o (s.dev.memmap o) 0 }, s.live.eraseIdx i⟩ := by
  simp only [callStep, hi, ha, run_myfree P x hd ho]

theorem callStep_free_of_none {i : ℕ} (hi : s.live[i]? = none) :
    callStep P x s (.free i) = s := by
  simp only [callStep, hi]

/-! ## The invariant -/

variable (P x) in
/-- The held allocations lie over free cells of `base`, and the table is `base` elsewhere. -/
structure Overlay (base : ℕ → ℕ) (s : Session) : Prop where
  rdy : s.dev.memrdy = true
  pos : ∀ a ∈ s.live, 0 < blocks a.size
  inTable : ∀ a ∈ s.live, a.ptr = blockAddr P x (a.first P x) ∧
    a.first P x + blocks a.size ≤ memtblsize x
  disjoint : s.live.Pairwise fun a b => Disjoint (a.cells P x) (b.cells P x)
  held : ∀ a ∈ s.live, ∀ i ∈ a.cells P x, s.dev.memmap i = blocks a.size
  wasFree : ∀ a ∈ s.live, ∀ i ∈ a.cells P x, base i = 0
  rest : ∀ i, (∀ a ∈ s.live, i ∉ a.cells P x) → s.dev.memmap i = base i

namespace Overlay

variable {base : ℕ → ℕ}

/-- A session that holds nothing. -/
theorem start {d : MallcoDev} (hd : d.memrdy = true) : Overlay P x d.memmap ⟨d, []⟩ where
  rdy := hd
  pos := by simp
  inTable := by simp
  disjoint := List.Pairwise.nil
  held := by simp
  wasFree := by simp
  rest _ _ := rfl

/-- A held allocation covers no free cell. -/
theorem not_mem_cells (h : Overlay P x base s) {i : ℕ} (hi : s.dev.memmap i = 0) {a : Alloc}
    (ha : a ∈ s.live) : i ∉ a.cells P x := by
  intro hc
  have := h.held a ha i hc
  have := h.pos a ha
  omega

/-- A free cell of the table was free in `base`. -/
theorem base_eq_zero (h : Overlay P x base s) {i : ℕ} (hi : s.dev.memmap i = 0) : base i = 0 := by
  rw [← h.rest i fun a ha => h.not_mem_cells hi ha, hi]

/-- What is granted: a run of free cells inside the table. -/
theorem grant_free {m : ℕ → ℕ} {size o : ℕ} (hs : size ≤ maxRequest)
    (hg : grant x m size = some o) : 0 < blocks size ∧ o + blocks size ≤ memtblsize x ∧
      ∀ i, o ≤ i → i < o + blocks size → m i = 0 := by
  have hT := memtblsize_lt x
  by_cases h0 : size = 0
  · simp [grant, h0] at hg
  have hpos := blocks_pos (Nat.pos_of_ne_zero h0)
  rw [grant, if_neg h0, nmembOf_of_le x hs] at hg
  obtain ⟨-, h2, h3⟩ := scan_some (c := 0) (by omega) hpos
    (fun i h1 h2 => absurd h2 (by omega)) hg
  exact ⟨hpos, h2, h3⟩

/-- Freeing what was just granted restores the table. -/
theorem fill_grant_restore {m : ℕ → ℕ} {size o : ℕ} (hs : size ≤ maxRequest)
    (hg : grant x m size = some o) {m' : ℕ → ℕ}
    (hm : m' = fill m o (nmembOf x size) (nmembOf x size)) : fill m' o (m' o) 0 = m := by
  obtain ⟨hpos, -, hfree⟩ := grant_free hs hg
  rw [nmembOf_of_le x hs] at hm
  have ho : m' o = blocks size := by rw [hm, fill_of_mem ⟨Nat.le_refl o, by omega⟩]
  funext i
  rw [ho]
  by_cases hi : o ≤ i ∧ i < o + blocks size
  · rw [fill_of_mem hi, hfree i hi.1 hi.2]
  · rw [fill_of_not_mem hi, hm, fill_of_not_mem hi]

/-- A `mymalloc` whose block count fits keeps the invariant. -/
theorem malloc (h : Overlay P x base s) {size : ℕ} (hs : size ≤ maxRequest) :
    Overlay P x base (callStep P x s (.malloc size)) := by
  cases hg : grant x s.dev.memmap size with
  | none =>
    rw [callStep_malloc_of_none h.rdy hg]
    exact h
  | some o =>
    obtain ⟨hpos, hin, hfree⟩ := grant_free hs hg
    rw [callStep_malloc_of_some h.rdy hg, nmembOf_of_le x hs]
    have hmem : ∀ i, i ∈ (Alloc.mk (blockAddr P x o) size).cells P x ↔
        o ≤ i ∧ i < o + blocks size := by
      intro i
      rw [Alloc.mem_cells, Alloc.first_blockAddr]
    have hnew : ∀ b ∈ s.live, ∀ i ∈ b.cells P x, ¬(o ≤ i ∧ i < o + blocks size) :=
      fun b hb i hi hc => h.not_mem_cells (hfree i hc.1 hc.2) hb hi
    refine ⟨h.rdy, ?_, ?_, ?_, ?_, ?_, ?_⟩
    · exact List.forall_mem_cons.mpr ⟨hpos, h.pos⟩
    · refine List.forall_mem_cons.mpr ⟨?_, h.inTable⟩
      rw [Alloc.first_blockAddr]
      exact ⟨rfl, hin⟩
    · refine List.pairwise_cons.mpr ⟨fun b hb => Finset.disjoint_right.mpr ?_, h.disjoint⟩
      exact fun i hi hc => hnew b hb i hi ((hmem i).mp hc)
    · refine List.forall_mem_cons.mpr ⟨fun i hi => ?_, fun b hb i hi => ?_⟩
      · exact fill_of_mem ((hmem i).mp hi)
      · exact (fill_of_not_mem (hnew b hb i hi)).trans (h.held b hb i hi)
    · refine List.forall_mem_cons.mpr ⟨fun i hi => ?_, h.wasFree⟩
      obtain ⟨h1, h2⟩ := (hmem i).mp hi
      exact h.base_eq_zero (hfree i h1 h2)
    · intro i hi
      obtain ⟨hi, hrest⟩ := List.forall_mem_cons.mp hi
      exact (fill_of_not_mem fun hc => hi ((hmem i).mpr hc)).trans (h.rest i hrest)

/-- The table cell of a held pointer. -/
theorem memmap_first (h : Overlay P x base s) {a : Alloc} (ha : a ∈ s.live) :
    a.first P x < memtblsize x ∧ s.dev.memmap (a.first P x) = blocks a.size := by
  have hpos := h.pos a ha
  have hin := (h.inTable a ha).2
  exact ⟨by omega, h.held a ha _ ((Alloc.mem_cells P x).mpr (by omega))⟩

/-- `myfree` of a held pointer clears its cells and nothing else. -/
theorem callStep_free (h : Overlay P x base s) {i : ℕ} {a : Alloc} (hi : s.live[i]? = some a) :
    callStep P x s (.free i) =
      ⟨{ s.dev with memmap := clear s.dev.memmap (a.cells P x) }, s.live.eraseIdx i⟩ := by
  have ha := List.mem_of_getElem? hi
  obtain ⟨hlt, hcount⟩ := h.memmap_first ha
  rw [callStep_free_of_some h.rdy hi (h.inTable a ha).1 hlt, hcount, fill_eq_clear]

/-- A `myfree` of a held pointer keeps the invariant. -/
theorem free (h : Overlay P x base s) (i : ℕ) : Overlay P x base (callStep P x s (.free i)) := by
  cases hi : s.live[i]? with
  | none =>
    rw [callStep_free_of_none hi]
    exact h
  | some a =>
    have ha := List.mem_of_getElem? hi
    have hsub : ∀ b ∈ s.live.eraseIdx i, b ∈ s.live := fun b hb =>
      (List.eraseIdx_sublist s.live i).subset hb
    have hdis : ∀ b ∈ s.live.eraseIdx i, ∀ j ∈ b.cells P x, j ∉ a.cells P x := by
      intro b hb j hj hja
      obtain ⟨k, hk, hbk⟩ := List.mem_eraseIdx_iff_getElem?.mp hb
      obtain ⟨hilt, rfl⟩ := List.getElem?_eq_some_iff.mp hi
      obtain ⟨hklt, rfl⟩ := List.getElem?_eq_some_iff.mp hbk
      rcases Nat.lt_or_gt_of_ne hk with hlt | hlt
      · exact Finset.disjoint_left.mp
          (List.pairwise_iff_getElem.mp h.disjoint k i hklt hilt hlt) hj hja
      · exact Finset.disjoint_left.mp
          (List.pairwise_iff_getElem.mp h.disjoint i k hilt hklt hlt) hja hj
    rw [h.callStep_free hi]
    refine ⟨h.rdy, fun b hb => h.pos b (hsub b hb), fun b hb => h.inTable b (hsub b hb),
      h.disjoint.sublist (List.eraseIdx_sublist s.live i), fun b hb j hj => ?_,
      fun b hb => h.wasFree b (hsub b hb), fun j hj => ?_⟩
    · exact (if_neg (hdis b hb j hj)).trans (h.held b (hsub b hb) j hj)
    · by_cases hja : j ∈ a.cells P x
      · exact (if_pos hja).trans (h.wasFree a ha j hja).symm
      · refine (if_neg hja).trans (h.rest j fun b hb hjb => ?_)
        obtain ⟨k, hk⟩ := List.mem_iff_getElem?.mp hb
        by_cases hki : k = i
        · obtain rfl : a = b := by
            rw [hki, hi] at hk
            exact Option.some.inj hk
          exact hja hjb
        · exact hj b (List.mem_eraseIdx_iff_getElem?.mpr ⟨k, hki, hk⟩) hjb

end Overlay

end Session

end Enc28j60Udp
