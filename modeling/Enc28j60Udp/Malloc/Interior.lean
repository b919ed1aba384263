import Enc28j60Udp.Malloc.Fit
import Enc28j60Udp.Malloc.Sound

/-!
# Freeing any offset

`my_mem_free` checks that the offset lies in the pool, and nothing else. It reads the count in the
cell of the offset and clears that many cells from there on. At the first block of an allocation
these are its own cells. At block number `j > 0` of an allocation they are its cells from `j` on
and the `j` cells after it. `freeSafe_iff` is the exact condition on these `j` cells.
-/

namespace Enc28j60Udp

section Interior

variable (P : Placement) (x : MemX)

/-- Every `mymalloc` that is granted has a block count that fits in the `u16` variable. -/
def GrantFits (s : Session) (c : Call) : Prop :=
  ∀ size, c = .malloc size → grant x s.dev.memmap size ≠ none → size ≤ maxRequest

/-- The program writes cell `i` of the table. -/
def Writes {α : Type} (p : MemProg α) (d : MallcoDev) (i : ℕ) : Prop :=
  ∃ v d', (MemOp.wrMap i v, d') ∈ Prog.performed memStep p d

/-- `my_mem_free` of an offset writes cells of the table only, and changes no live allocation but
the one that the offset lies in. -/
structure FreeSafe (s : Session) (offset : ℕ) : Prop where
  inTable : ∀ i, Writes (myMemFree P x offset) s.dev i → i < memtblsize x
  others : ∀ a ∈ s.live, offset / 32 ∉ a.cells P x → ∀ i ∈ a.cells P x,
    (Prog.run memStep (myMemFree P x offset) s.dev).2.memmap i = s.dev.memmap i

/-- An offset in block number `j` of a live allocation has `j` cells after the allocation that lie
in the table and belong to no live allocation. -/
def RoomAfter (s : Session) (offset : ℕ) : Prop :=
  ∀ a ∈ s.live, offset / 32 ∈ a.cells P x →
    ∀ i, a.first P x + blocks a.size ≤ i → i < offset / 32 + blocks a.size →
      i < memtblsize x ∧ ∀ b ∈ s.live, i ∉ b.cells P x

variable {P x} {s : Session} {d : MallcoDev}

/-- A call whose granted requests fit keeps a pool sound. -/
theorem Sound.step (h : Sound P x s) (c : Call) (hc : GrantFits x s c) :
    Sound P x (callStep P x s c) := by
  cases c with
  | free i => exact h.step_free i
  | malloc size =>
    cases hg : grant x s.dev.memmap size with
    | none =>
      rw [callStep_malloc_of_none h.rdy hg]
      exact h
    | some o =>
      have hpos : 0 < size := by
        rw [Nat.pos_iff_ne_zero]
        rintro rfl
        simp [grant] at hg
      exact h.step_malloc hpos (hc size rfl (by simp [hg]))

theorem grantFits_malloc {size : ℕ} (hs : size ≤ maxRequest) (s : Session) :
    GrantFits x s (.malloc size) := by
  intro size' h _
  obtain rfl := Call.malloc.inj h
  exact hs

/-- An empty pool grants its last blocks. -/
theorem grant_afterInit (d : MallcoDev) {size : ℕ} (hpos : 0 < size)
    (hin : blocks size ≤ memtblsize x) :
    grant x (afterInit P x d).dev.memmap size = some (memtblsize x - blocks size) := by
  have hT := memtblsize_lt x
  have hs : size ≤ maxRequest := by
    unfold blocks maxRequest at *
    omega
  have hfree : ∀ k, k + blocks size ≤ memtblsize x →
      FreeRun x (afterInit P x d).dev.memmap k (blocks size) := fun k hk =>
    ⟨hk, fun i _ hi => (Sound.afterInit d).drained rfl i (by omega)⟩
  obtain ⟨o, hg⟩ := exists_grant_of_free x hpos hs (o := 0) (by omega) (hfree 0 (by omega)).2
  have ho := grant_isGreatest (by
    rw [nmembOf_of_le x hs]
    exact blocks_pos hpos) hg
  rw [nmembOf_of_le x hs] at ho
  have hlast := ho.2 (hfree (memtblsize x - blocks size) (by omega))
  have hle := ho.1.1
  rw [hg, Option.some.injEq]
  omega

/-- A cell belongs to at most one live allocation. -/
theorem Sound.eq_of_mem_cells (h : Sound P x s) {a b : Alloc} (ha : a ∈ s.live) (hb : b ∈ s.live)
    {i : ℕ} (hia : i ∈ a.cells P x) (hib : i ∈ b.cells P x) : a = b := by
  by_contra hne
  have : Std.Symm fun a b : Alloc => Disjoint (a.cells P x) (b.cells P x) :=
    ⟨fun _ _ hab => hab.symm⟩
  exact Finset.disjoint_left.mp (h.disjoint.forall ha hb hne) hia hib

/-- The cells that a loop over the table writes. -/
theorem writes_forFrom (v o n : ℕ) (d : MallcoDev) (i : ℕ) :
    Writes (Prog.forFrom (fun i => wrMap i v) o n) d i ↔ o ≤ i ∧ i < o + n := by
  induction n generalizing o d with
  | zero =>
    refine iff_of_false ?_ (by omega)
    rintro ⟨v, d', hm⟩
    simp [Prog.forFrom, Prog.performed] at hm
  | succ n ih =>
    have hsplit : Writes (Prog.forFrom (fun i => wrMap i v) o (n + 1)) d i ↔
        i = o ∨ Writes (Prog.forFrom (fun i => wrMap i v) (o + 1) n)
          { d with memmap := Function.update d.memmap o v } i := by
      constructor
      · rintro ⟨v', d', hm⟩
        rcases List.mem_cons.mp hm with he | hm
        · exact Or.inl (MemOp.wrMap.inj (congrArg Prod.fst he)).1
        · exact Or.inr ⟨v', d', hm⟩
      · rintro (rfl | ⟨v', d', hm⟩)
        · exact ⟨v, d, List.mem_cons_self⟩
        · exact ⟨v', d', List.mem_cons_of_mem _ hm⟩
    rw [hsplit, ih]
    omega

/-- The cells that `my_mem_free` writes on a ready pool. -/
theorem writes_myMemFree (hd : d.memrdy = true) (offset i : ℕ) :
    Writes (myMemFree P x offset) d i ↔ offset < memsize x ∧ offset / 32 ≤ i ∧
      i < offset / 32 + d.memmap (offset / 32) := by
  by_cases ho : offset < memsize x
  · let loop : MemProg Unit :=
      Prog.forFrom (fun i => wrMap i 0) (offset / 32) (d.memmap (offset / 32))
    have hloop : Prog.performed memStep (loop >>= fun _ => pure 0 : MemProg ℕ) d =
        Prog.performed memStep loop d := by
      rw [Prog.performed_bind_of memStep (run_forFrom_wrMap 0 _ _ d)]
      exact List.append_nil _
    have hperformed : Prog.performed memStep (myMemFree P x offset) d =
        (MemOp.rdRdy, d) :: (MemOp.rdMap (offset / 32), d) :: Prog.performed memStep loop d := by
      rw [myMemFree, memblksize_eq]
      change (_ :: Prog.performed memStep (if d.memrdy = true then _ else _) d) = _
      rw [if_pos hd, if_pos ho, ← hloop]
      rfl
    rw [and_iff_right ho, ← writes_forFrom 0 _ _ d]
    simp [Writes, hperformed, loop]
  · have hperformed : Prog.performed memStep (myMemFree P x offset) d = [(MemOp.rdRdy, d)] := by
      rw [myMemFree]
      change (_ :: Prog.performed memStep (if d.memrdy = true then _ else _) d) = _
      rw [if_pos hd, if_neg ho]
      rfl
    simp [Writes, hperformed, ho]

/-- The table after `my_mem_free`. -/
theorem memmap_myMemFree (hd : d.memrdy = true) {offset : ℕ} (ho : offset < memsize x) :
    (Prog.run memStep (myMemFree P x offset) d).2.memmap =
      fill d.memmap (offset / 32) (d.memmap (offset / 32)) 0 := by
  rw [run_myMemFree P x hd, if_pos ho]

namespace Sound

/-- An offset in a live allocation clears the allocation from its block on, and as many cells
after it as it has blocks before. -/
theorem freeSafe_iff_of_mem (h : Sound P x s) {offset : ℕ} {a : Alloc} (ha : a ∈ s.live)
    (hia : offset / 32 ∈ a.cells P x) :
    FreeSafe P x s offset ↔ ∀ i, a.first P x + blocks a.size ≤ i →
      i < offset / 32 + blocks a.size → i < memtblsize x ∧ ∀ b ∈ s.live, i ∉ b.cells P x := by
  have hin := (h.inTable a ha).2
  have hcount := h.held a ha _ hia
  have hi := (Alloc.mem_cells P x).mp hia
  have ho : offset < memsize x := by
    rw [memsize_eq]
    omega
  have hwrites : ∀ i, Writes (myMemFree P x offset) s.dev i ↔
      offset / 32 ≤ i ∧ i < offset / 32 + blocks a.size := by
    intro i
    rw [writes_myMemFree h.rdy, and_iff_right ho, hcount]
  have hmap := memmap_myMemFree (P := P) h.rdy ho
  rw [hcount] at hmap
  constructor
  · intro hsafe i hi₁ hi₂
    refine ⟨hsafe.inTable i ((hwrites i).mpr (by omega)), fun b hb hib => ?_⟩
    have hne : offset / 32 ∉ b.cells P x := by
      intro hb'
      obtain rfl := h.eq_of_mem_cells ha hb hia hb'
      rw [Alloc.mem_cells] at hib
      omega
    have hkeep := hsafe.others b hb hne i hib
    rw [hmap, fill_of_mem (by omega), h.held b hb i hib] at hkeep
    exact absurd (blocks_pos (h.pos b hb)) (by omega)
  · intro hroom
    refine ⟨fun i hw => ?_, fun b hb hne i hib => ?_⟩
    · rw [hwrites] at hw
      by_cases hlt : i < a.first P x + blocks a.size
      · omega
      · exact (hroom i (by omega) hw.2).1
    · rw [hmap]
      refine fill_of_not_mem fun hi' => ?_
      by_cases hlt : i < a.first P x + blocks a.size
      · have hia' : i ∈ a.cells P x := (Alloc.mem_cells P x).mpr (by omega)
        obtain rfl := h.eq_of_mem_cells ha hb hia' hib
        exact hne hia
      · exact (hroom i (by omega) hi'.2).2 b hb hib

/-- An offset in no live allocation: a free block, or outside the pool. Nothing is written. -/
theorem freeSafe_of_not_mem (h : Sound P x s) {offset : ℕ}
    (hno : ∀ a ∈ s.live, offset / 32 ∉ a.cells P x) : FreeSafe P x s offset := by
  by_cases ho : offset < memsize x
  · have hlt : offset / 32 < memtblsize x := by
      rw [memsize_eq] at ho
      omega
    have hcell := h.free _ hlt hno
    refine ⟨fun i hw => ?_, fun a ha hne i hia => ?_⟩
    · rw [writes_myMemFree h.rdy, hcell] at hw
      omega
    · rw [memmap_myMemFree h.rdy ho, hcell, fill_zero]
  · refine ⟨fun i hw => ?_, fun a ha hne i hia => ?_⟩
    · exact absurd ((writes_myMemFree h.rdy offset i).mp hw).1 ho
    · rw [run_myMemFree P x h.rdy, if_neg ho]

theorem freeSafe_iff (h : Sound P x s) (offset : ℕ) :
    FreeSafe P x s offset ↔ RoomAfter P x s offset := by
  by_cases hex : ∃ a ∈ s.live, offset / 32 ∈ a.cells P x
  · obtain ⟨a, ha, hia⟩ := hex
    rw [h.freeSafe_iff_of_mem ha hia]
    constructor
    · intro hroom b hb hib
      obtain rfl := h.eq_of_mem_cells ha hb hia hib
      exact hroom
    · exact fun hroom => hroom a ha hia
  · simp only [not_exists, not_and] at hex
    exact iff_of_true (h.freeSafe_of_not_mem hex) fun a ha hia => absurd hia (hex a ha)

end Sound

/-- **Freeing any offset.** After any run of `mymalloc` and `myfree` whose granted requests fit,
`my_mem_free` of any offset is safe exactly when the cells after the allocation that the offset
lies in leave room: always at the first block of an allocation, in a free block and outside the
pool. -/
theorem myMemFree_safe_iff (P : Placement) (x : MemX) (d : MallcoDev) (cs : List Call)
    (hcs : Runs.Along (callStep P x) (GrantFits x) (afterInit P x d) cs) (offset : ℕ) :
    FreeSafe P x (Runs.exec (callStep P x) (afterInit P x d) cs) offset ↔
      RoomAfter P x (Runs.exec (callStep P x) (afterInit P x d) cs) offset := by
  have hsound := Runs.always_of_along (fun _ c h hc => h.step c hc) (Sound.afterInit d) hcs
  exact hsound.last.freeSafe_iff offset

/-- The first byte of an allocation of two blocks. -/
theorem myMemFree_safe_iff_first :
    FreeSafe imagePlacement .sramin (Runs.exec (callStep imagePlacement .sramin)
        (afterInit imagePlacement .sramin zeroDev) [.malloc 64]) 40896 ↔
      RoomAfter imagePlacement .sramin (Runs.exec (callStep imagePlacement .sramin)
        (afterInit imagePlacement .sramin zeroDev) [.malloc 64]) 40896 :=
  myMemFree_safe_iff imagePlacement .sramin zeroDev [.malloc 64]
    (Runs.along_cons.mpr ⟨grantFits_malloc (by decide) _, Runs.along_nil⟩) 40896

/-- Byte `32` of an allocation of two blocks at the end of the pool: cell `1280` is written. -/
theorem myMemFree_not_safe_second :
    ¬FreeSafe imagePlacement .sramin (Runs.exec (callStep imagePlacement .sramin)
        (afterInit imagePlacement .sramin zeroDev) [.malloc 64]) 40928 := by
  have h₀ := Sound.afterInit (P := imagePlacement) (x := .sramin) zeroDev
  have hg : grant .sramin (afterInit imagePlacement .sramin zeroDev).dev.memmap 64 =
      some 1278 := grant_afterInit zeroDev (by decide) (by decide)
  have h := h₀.step (.malloc 64) (grantFits_malloc (by decide) _)
  have hmem : ⟨blockAddr imagePlacement .sramin 1278, 64⟩ ∈
      (callStep imagePlacement .sramin (afterInit imagePlacement .sramin zeroDev)
        (.malloc 64)).live := by
    rw [callStep_malloc_of_some h₀.rdy hg]
    exact List.mem_cons_self
  rw [Runs.exec_cons, Runs.exec_nil, h.freeSafe_iff_of_mem hmem (by
    rw [Alloc.mem_cells, Alloc.first_blockAddr]
    decide)]
  intro hroom
  have hlast := hroom 1280 (by rw [Alloc.first_blockAddr]; decide) (by decide)
  exact absurd hlast.1 (by decide)

end Interior

end Enc28j60Udp
