import Enc28j60Udp.Comm.Regions
import Mathlib.Logic.Function.Basic

/-!
# The heap of lwIP

`mem_malloc` takes memory from a heap of `MEM_SIZE_ALIGNED` bytes. In front of every block stands a
`struct mem`, with the places of the next and of the previous one and a flag; behind the last block
stands one more, which is always in use. `lfree` is the lowest free one, from which `mem_malloc`
searches on. `mem_free` joins a block with its free neighbours, and `mem_trim` gives the end of a
block back.

A pointer into the heap is its distance from `ram`, where the heap starts; the pointers that are
returned, and those that are handed in, are addresses. `mem_size_t` has 16 bits. An assertion that
fails is printed, and the code goes on.
-/

namespace Enc28j60Udp

namespace Lwip

/-- `SIZEOF_STRUCT_MEM`: two `mem_size_t` and a `u8_t`, aligned. -/
def sizeofStructMem : ℕ := lwipMemAlignSize 6

/-- `MIN_SIZE_ALIGNED`. -/
def minSizeAligned : ℕ := lwipMemAlignSize 12

/-- `MEM_SIZE_ALIGNED`. -/
def memSizeAligned : ℕ := lwipMemAlignSize lwipMemSize

/-- The `u16` at `a`. -/
def load16 (m : ℕ → UInt8) (a : ℕ) : ℕ := (m a).toNat + 256 * (m (a + 1)).toNat

/-- Store a `u16` at `a`. -/
def store16 (m : ℕ → UInt8) (a v : ℕ) : ℕ → UInt8 :=
  Function.update (Function.update m a (UInt8.ofNat v)) (a + 1) (UInt8.ofNat (v / 256))

/-- The heap: the address `ram`, the bytes from there on, the pointer `lfree`, and the assertions
that have failed. -/
structure Heap where
  base : ℕ
  ram : ℕ → UInt8
  lfree : ℕ
  asserts : List String

namespace Heap

/-- `mem->next`. -/
def next (h : Heap) (mem : ℕ) : ℕ := load16 h.ram mem

/-- `mem->prev`. -/
def prev (h : Heap) (mem : ℕ) : ℕ := load16 h.ram (mem + 2)

/-- `mem->used`. -/
def used (h : Heap) (mem : ℕ) : UInt8 := h.ram (mem + 4)

def setNext (h : Heap) (mem v : ℕ) : Heap := { h with ram := store16 h.ram mem v }

def setPrev (h : Heap) (mem v : ℕ) : Heap := { h with ram := store16 h.ram (mem + 2) v }

def setUsed (h : Heap) (mem : ℕ) (v : UInt8) : Heap :=
  { h with ram := Function.update h.ram (mem + 4) v }

def setLfree (h : Heap) (mem : ℕ) : Heap := { h with lfree := mem }

/-- `LWIP_ASSERT`. -/
def assert (h : Heap) (message : String) (assertion : Prop) [Decidable assertion] : Heap :=
  if assertion then h else { h with asserts := h.asserts ++ [message] }

/-- `mem->next - (ptr + SIZEOF_STRUCT_MEM)`, in 32 bits: the size of the data of a block. -/
def userSize (h : Heap) (ptr : ℕ) : ℕ := (h.next ptr + 2 ^ 32 - (ptr + sizeofStructMem)) % 2 ^ 32

end Heap

/-- `mem_init` on the region at `ramHeap`. -/
def memInitHeap (ramHeap : ℕ) (memory : ℕ → UInt8) : Heap :=
  let init := memInit ramHeap
  let stop := init.ramEnd - init.ram
  let h : Heap := ⟨init.ram, memory, init.lfree - init.ram, []⟩
  let h := ((h.setNext 0 init.start.next).setPrev 0 init.start.prev).setUsed 0 0
  ((h.setUsed stop 1).setNext stop init.stop.next).setPrev stop init.stop.prev

/-- The size for which `mem_malloc` and `mem_trim` take a request. -/
def effectiveSize (size : ℕ) : ℕ :=
  let size := lwipMemAlignSize size % 2 ^ 16
  if size < minSizeAligned then minSizeAligned else size

/-- A free `struct mem` is made at `ptr2`, behind the one at `mem` and in front of `next`. -/
def newBlock (h : Heap) (mem ptr2 next : ℕ) : Heap :=
  (((h.setUsed ptr2 0).setNext ptr2 next).setPrev ptr2 mem).setNext mem ptr2

/-- The one behind it points back to it, unless it is the end of the heap. -/
def linkBack (h : Heap) (ptr2 : ℕ) : Heap :=
  if h.next ptr2 ≠ memSizeAligned then h.setPrev (h.next ptr2) ptr2 else h

/-! ## `mem_malloc` -/

/-- The block at `mem` is taken, and what is left becomes a block if it is large enough. -/
def takeBlock (h : Heap) (size mem : ℕ) : Heap :=
  if size + sizeofStructMem + minSizeAligned ≤ h.userSize mem then
    let ptr2 := (mem + sizeofStructMem + size) % 2 ^ 16
    linkBack ((newBlock h mem ptr2 (h.next mem)).setUsed mem 1) ptr2
  else h.setUsed mem 1

/-- The loop that looks for the next free block; `none` without fuel. -/
def lfreeLoop (h : Heap) : ℕ → ℕ → Option ℕ
  | 0, _ => none
  | fuel + 1, cur =>
    if h.used cur ≠ 0 ∧ cur ≠ memSizeAligned then lfreeLoop h fuel (h.next cur) else some cur

/-- `lfree` moves on when its block was taken. -/
def adjustLfree (h : Heap) (mem : ℕ) : Option Heap :=
  if mem = h.lfree then do
    let cur ← lfreeLoop h memSizeAligned h.lfree
    some ((h.setLfree cur).assert "mem_malloc: !lfree->used"
      (cur = memSizeAligned ∨ h.used cur = 0))
  else some h

/-- The rounds from the block at `mem` on, which has room: the pointer that is returned. -/
def mallocAt (h : Heap) (size mem : ℕ) : Option (ℕ × Heap) := do
  let h ← adjustLfree (takeBlock h size mem) mem
  let h := h.assert "mem_malloc: allocated memory not above ram_end."
    (h.base + mem + sizeofStructMem + size ≤ h.base + memSizeAligned)
  let h := h.assert "mem_malloc: allocated memory properly aligned."
    ((h.base + mem + sizeofStructMem) % memAlignment = 0)
  let h := h.assert "mem_malloc: sanity check alignment" ((h.base + mem) % memAlignment = 0)
  some (h.base + mem + sizeofStructMem, h)

/-- The loop of `mem_malloc`; `none` without fuel. -/
def mallocLoop (h : Heap) (size : ℕ) : ℕ → ℕ → Option (ℕ × Heap)
  | 0, _ => none
  | fuel + 1, ptr =>
    if ptr < memSizeAligned - size then
      if h.used ptr = 0 ∧ size ≤ h.userSize ptr then mallocAt h size ptr
      else mallocLoop h size fuel (h.next ptr)
    else some (null, h)

/-- `mem_malloc`. -/
def memMalloc (h : Heap) (size : ℕ) : Option (ℕ × Heap) :=
  if size = 0 then some (null, h)
  else
    let size := effectiveSize size
    if memSizeAligned < size then some (null, h)
    else mallocLoop h size memSizeAligned h.lfree

/-! ## `mem_free` -/

/-- The first part of `plug_holes`. -/
def plugForward (h : Heap) (mem : ℕ) : Heap :=
  let nmem := h.next mem
  if mem ≠ nmem ∧ h.used nmem = 0 ∧ nmem ≠ memSizeAligned then
    let h := if h.lfree = nmem then h.setLfree mem else h
    let h := h.setNext mem (h.next nmem)
    h.setPrev (h.next nmem) mem
  else h

/-- The second part of `plug_holes`. -/
def plugBackward (h : Heap) (mem : ℕ) : Heap :=
  let pmem := h.prev mem
  if pmem ≠ mem ∧ h.used pmem = 0 then
    let h := if h.lfree = mem then h.setLfree pmem else h
    let h := h.setNext pmem (h.next mem)
    h.setPrev (h.next mem) pmem
  else h

/-- `plug_holes`. A pointer into the heap is not below `ram`. -/
def plugHoles (h : Heap) (mem : ℕ) : Heap :=
  let h := h.assert "plug_holes: mem < ram_end" (mem < memSizeAligned)
  let h := h.assert "plug_holes: mem->used == 0" (h.used mem = 0)
  let h := h.assert "plug_holes: mem->next <= MEM_SIZE_ALIGNED" (h.next mem ≤ memSizeAligned)
  plugBackward (plugForward h mem) mem

/-- `mem_free`. A `struct mem` in front of `ram` is not read. -/
def memFree (h : Heap) (rmem : ℕ) : Option Heap :=
  if rmem = null then some h
  else
    let h := h.assert "mem_free: sanity check alignment" (rmem % memAlignment = 0)
    let h := h.assert "mem_free: legal memory"
      (h.base ≤ rmem ∧ rmem < h.base + memSizeAligned)
    if rmem < h.base ∨ h.base + memSizeAligned ≤ rmem then some h
    else if rmem < h.base + sizeofStructMem then none
    else
      let mem := rmem - sizeofStructMem - h.base
      let h := h.assert "mem_free: mem->used" (h.used mem ≠ 0)
      let h := h.setUsed mem 0
      let h := if mem < h.lfree then h.setLfree mem else h
      some (plugHoles h mem)

/-! ## `mem_trim` -/

/-- The block behind is free, and moves down to `ptr2`. -/
def moveNext (h : Heap) (ptr ptr2 : ℕ) : Heap :=
  let mem2 := h.next ptr
  let next := h.next mem2
  let h := if h.lfree = mem2 then h.setLfree ptr2 else h
  linkBack (newBlock h ptr ptr2 next) ptr2

/-- What is given back becomes a block at `ptr2`. -/
def splitOff (h : Heap) (ptr ptr2 : ℕ) : Heap :=
  let h := if ptr2 < h.lfree then h.setLfree ptr2 else h
  linkBack (newBlock h ptr ptr2 (h.next ptr)) ptr2

/-- `mem_trim`. A `struct mem` in front of `ram` is not read. -/
def memTrim (h : Heap) (rmem newsize : ℕ) : Option (ℕ × Heap) :=
  let newsize := effectiveSize newsize
  if memSizeAligned < newsize then some (null, h)
  else
    let h := h.assert "mem_trim: legal memory"
      (h.base ≤ rmem ∧ rmem < h.base + memSizeAligned)
    if rmem < h.base ∨ h.base + memSizeAligned ≤ rmem then some (rmem, h)
    else if rmem < h.base + sizeofStructMem then none
    else
      let ptr := rmem - sizeofStructMem - h.base
      let size := (h.next ptr + 2 ^ 32 - ptr - sizeofStructMem) % 2 ^ 16
      let h := h.assert "mem_trim can only shrink memory" (newsize ≤ size)
      if size < newsize then some (null, h)
      else if newsize = size then some (rmem, h)
      else
        let ptr2 := (ptr + sizeofStructMem + newsize) % 2 ^ 16
        if h.used (h.next ptr) = 0 then some (rmem, moveNext h ptr ptr2)
        else if newsize + sizeofStructMem + minSizeAligned ≤ size then
          some (rmem, splitOff h ptr ptr2)
        else some (rmem, h)

end Lwip

end Enc28j60Udp
