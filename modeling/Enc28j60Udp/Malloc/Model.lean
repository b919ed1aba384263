import Enc28j60Udp.Foundations.Prog
import Mathlib.Algebra.GroupWithZero.Nat
import Mathlib.Logic.Function.Basic

/-!
# The block allocator

`malloc.c`: two pools of 32-byte blocks, each with a table `memmap` of `u16` cells. A granted
block of `n` cells holds `n` in each of them, a free cell holds `0`.

The functions are programs over the accesses they make to the allocator's data, so that an
interrupt may run between any two accesses (`Malloc/Interrupt.lean`). `MallcoDev` is the part of
`mallco_dev` that belongs to one pool. Its table is a function on all of `ℕ`: the cells from
`memtblsize` on stand for the memory after the table, which the code can reach but must not.
-/

namespace Enc28j60Udp

/-- `memx`: the internal pool `SRAMIN` or the external pool `SRAMEX`. -/
inductive MemX
  | sramin
  | sramex
  deriving DecidableEq

/-- `memsize`: `MEM1_MAX_SIZE` and `MEM2_MAX_SIZE`. -/
def memsize : MemX → ℕ
  | .sramin => 40 * 1024
  | .sramex => 192 * 1024

/-- `memblksize`: `MEM1_BLOCK_SIZE` and `MEM2_BLOCK_SIZE`. -/
def memblksize : MemX → ℕ
  | .sramin => 32
  | .sramex => 32

/-- `memtblsize`: `MEM1_ALLOC_TABLE_SIZE` and `MEM2_ALLOC_TABLE_SIZE`. -/
def memtblsize (x : MemX) : ℕ := memsize x / memblksize x

@[simp] theorem memblksize_eq (x : MemX) : memblksize x = 32 := by cases x <;> rfl

theorem memsize_eq (x : MemX) : memsize x = 32 * memtblsize x := by cases x <;> rfl

theorem memtblsize_pos (x : MemX) : 0 < memtblsize x := by cases x <;> decide

theorem memtblsize_lt (x : MemX) : memtblsize x < 2 ^ 16 := by cases x <;> decide

/-- Where the linker places the pools: below `2 ^ 32`, and not at `NULL`. -/
structure Placement where
  membase : MemX → ℕ
  membase_pos : ∀ x, 0 < membase x
  membase_add_le : ∀ x, membase x + memsize x ≤ 2 ^ 32

/-- The placement of the shipped image: `mem2base` is fixed by the source. -/
def imagePlacement : Placement where
  membase
    | .sramin => 0x20000358
    | .sramex => 0x68000000
  membase_pos x := by cases x <;> decide
  membase_add_le x := by cases x <;> decide

/-- The allocator data of one pool, and the memory the pool lies in. -/
structure MallcoDev where
  memmap : ℕ → ℕ
  memrdy : Bool
  mem : ℕ → UInt8

/-- The accesses of the allocator to its data. -/
inductive MemOp
  /-- Read `memmap[memx][i]`. -/
  | rdMap (i : ℕ)
  /-- `memmap[memx][i] = v`. -/
  | wrMap (i v : ℕ)
  /-- Read `memrdy[memx]`. -/
  | rdRdy
  /-- `memrdy[memx] = 1`. -/
  | setRdy
  /-- Load the byte at an address. -/
  | rdByte (a : ℕ)
  /-- Store a byte at an address. -/
  | wrByte (a : ℕ) (v : UInt8)

/-- What each access returns. -/
abbrev MemOp.Res : MemOp → Type
  | .rdMap _ => ℕ
  | .wrMap _ _ => Unit
  | .rdRdy => Bool
  | .setRdy => Unit
  | .rdByte _ => UInt8
  | .wrByte _ _ => Unit

/-- The meaning of an access. -/
def memStep : (o : MemOp) → MallcoDev → o.Res × MallcoDev
  | .rdMap i, d => (d.memmap i, d)
  | .wrMap i v, d => ((), { d with memmap := Function.update d.memmap i v })
  | .rdRdy, d => (d.memrdy, d)
  | .setRdy, d => ((), { d with memrdy := true })
  | .rdByte a, d => (d.mem a, d)
  | .wrByte a v, d => ((), { d with mem := Function.update d.mem a v })

/-- Programs of the allocator. -/
abbrev MemProg := Prog MemOp MemOp.Res

/-- Cell `i` of the table. -/
def rdMap (i : ℕ) : MemProg ℕ := Prog.lift (MemOp.rdMap i)

/-- `memmap[memx][i] = v`. -/
def wrMap (i v : ℕ) : MemProg Unit := Prog.lift (MemOp.wrMap i v)

/-- `memrdy[memx]`. -/
def rdRdy : MemProg Bool := Prog.lift MemOp.rdRdy

/-- `memrdy[memx] = 1`. -/
def setRdy : MemProg Unit := Prog.lift MemOp.setRdy

/-- `*a`. -/
def rdByte (a : ℕ) : MemProg UInt8 := Prog.lift (MemOp.rdByte a)

/-- `*a = v`. -/
def wrByte (a : ℕ) (v : UInt8) : MemProg Unit := Prog.lift (MemOp.wrByte a v)

section Access

variable {α : Type} (d : MallcoDev)

@[simp] theorem run_rdMap (i : ℕ) : Prog.run memStep (rdMap i) d = (some (d.memmap i), d) := rfl

@[simp] theorem run_rdMap_bind (i : ℕ) (f : ℕ → MemProg α) :
    Prog.run memStep (rdMap i >>= f) d = Prog.run memStep (f (d.memmap i)) d := rfl

@[simp] theorem run_wrMap_bind (i v : ℕ) (f : Unit → MemProg α) :
    Prog.run memStep (wrMap i v >>= f) d =
      Prog.run memStep (f ()) { d with memmap := Function.update d.memmap i v } := rfl

@[simp] theorem run_rdRdy_bind (f : Bool → MemProg α) :
    Prog.run memStep (rdRdy >>= f) d = Prog.run memStep (f d.memrdy) d := rfl

end Access

/-- The error offset of `my_mem_malloc`. -/
def noOffset : ℕ := 0xFFFFFFFF

/-- `NULL`. -/
def null : ℕ := 0

section Model

variable (P : Placement) (x : MemX)

/-- `my_mem_init`: clear the table, clear the pool, mark it ready. -/
def myMemInit : MemProg Unit := do
  Prog.forFrom (fun i => wrMap i 0) 0 (memtblsize x)
  Prog.forFrom (fun i => wrByte (P.membase x + i) 0) 0 (memsize x)
  setRdy

/-- The counting loop of `my_mem_perused`. -/
def perusedLoop : ℕ → ℕ → ℕ → MemProg ℕ
  | _, 0, used => pure used
  | i, n + 1, used => do
    let v ← rdMap i
    perusedLoop (i + 1) n (if v ≠ 0 then used + 1 else used)

/-- `my_mem_perused`: the percentage of used cells, as a `u8`. -/
def myMemPerused : MemProg ℕ := do
  let used ← perusedLoop 0 (memtblsize x) 0
  pure (used * 100 / memtblsize x % 2 ^ 8)

/-- The block count of a request, in the `u16` variable `nmemb`. -/
def nmembOf (size : ℕ) : ℕ :=
  let nmemb := size / memblksize x % 2 ^ 16
  if size % memblksize x ≠ 0 then (nmemb + 1) % 2 ^ 16 else nmemb

/-- The downward scan of `my_mem_malloc`, about to look at the cell below the first argument, with
the `u16` run counter `cmemb`. -/
def scanLoop (nmemb : ℕ) : ℕ → ℕ → MemProg (Option ℕ)
  | 0, _ => pure none
  | offset + 1, cmemb => do
    let v ← rdMap offset
    let cmemb := if v = 0 then (cmemb + 1) % 2 ^ 16 else 0
    if cmemb = nmemb then pure (some offset) else scanLoop nmemb offset cmemb

/-- `my_mem_malloc`: the byte offset of the granted block, or `0xFFFFFFFF`. -/
def myMemMalloc (size : ℕ) : MemProg ℕ := do
  let rdy ← rdRdy
  if rdy then pure () else myMemInit P x
  if size = 0 then pure noOffset else do
    let nmemb := nmembOf x size
    let r ← scanLoop nmemb (memtblsize x) 0
    match r with
    | some offset => do
      Prog.forFrom (fun i => wrMap i nmemb) offset nmemb
      pure (offset * memblksize x)
    | none => pure noOffset

/-- `my_mem_free`: `0` when the cells were cleared, `1` when the pool was not ready, `2` when the
offset lies outside the pool. -/
def myMemFree (offset : ℕ) : MemProg ℕ := do
  let rdy ← rdRdy
  if rdy then
    if offset < memsize x then do
      let index := offset / memblksize x
      let nmemb ← rdMap index
      Prog.forFrom (fun i => wrMap i 0) index nmemb
      pure 0
    else pure 2
  else do
    myMemInit P x
    pure 1

/-- `mymalloc`: the address of the granted block, or `NULL`. -/
def mymalloc (size : ℕ) : MemProg ℕ := do
  let offset ← myMemMalloc P x size
  if offset = noOffset then pure null else pure ((P.membase x + offset) % 2 ^ 32)

/-- `myfree`: the offset is a `u32` difference of addresses. -/
def myfree (ptr : ℕ) : MemProg Unit :=
  if ptr = null then pure () else do
    let offset := (ptr + 2 ^ 32 - P.membase x) % 2 ^ 32
    let _ ← myMemFree P x offset
    pure ()

/-- `mymemcpy`: the pointers are `u32` addresses. -/
def mymemcpy (des src n : ℕ) : MemProg Unit :=
  Prog.forFrom (fun i => do
    let v ← rdByte ((src + i) % 2 ^ 32)
    wrByte ((des + i) % 2 ^ 32) v) 0 n

/-- `myrealloc`: the address of the new block, or `NULL`. The whole new size is copied. -/
def myrealloc (ptr size : ℕ) : MemProg ℕ := do
  let offset ← myMemMalloc P x size
  if offset = noOffset then pure null else do
    mymemcpy ((P.membase x + offset) % 2 ^ 32) ptr size
    myfree P x ptr
    pure ((P.membase x + offset) % 2 ^ 32)

end Model

end Enc28j60Udp
