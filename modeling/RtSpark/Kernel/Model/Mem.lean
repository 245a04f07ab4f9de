import Mathlib.Logic.Function.Basic
import RtSpark.Common.Loop
import RtSpark.Common.Word
/-!
# The small memory heap

The allocator behind `rt_malloc`: a heap of memory items, each a header of
three words in front of the data, linked forwards and backwards by their
offsets. The heap is its words at their offsets from `heap_ptr`, which is
also what the pointers into it are given as.
-/

namespace RtSpark

namespace Kernel

open Word

/-- `RT_ALIGN_SIZE`. -/
def rtAlignSize : ℕ := 4

/-- `RT_ALIGN(size, RT_ALIGN_SIZE)`. -/
def rtAlign (size : ℕ) : ℕ := u32 (size + rtAlignSize - 1) / rtAlignSize * rtAlignSize

/-- `RT_ALIGN_DOWN(size, RT_ALIGN_SIZE)`. -/
def rtAlignDown (size : ℕ) : ℕ := size / rtAlignSize * rtAlignSize

/-- `SIZEOF_STRUCT_MEM`: `pool_ptr`, `next` and `prev`. -/
def sizeofStructMem : ℕ := 12

/-- `MIN_SIZE_ALIGNED`. -/
def minSizeAligned : ℕ := 12

/-- `sizeof(struct rt_small_mem)`. -/
def sizeofSmallMem : ℕ := 56

/-- `struct rt_small_mem`, with the words of the heap it looks after. `addr`
is its own address. -/
structure RtSmallMem where
  addr : ℕ
  heapPtr : ℕ
  heap : ℕ → ℕ
  heapEnd : ℕ
  lfree : ℕ
  memSizeAligned : ℕ
  used : ℕ
  max : ℕ

namespace RtSmallMem

/-- `MEM_USED()`. -/
def memUsed (m : RtSmallMem) : ℕ := m.addr / 2 * 2 + 1

/-- `MEM_FREED()`. -/
def memFreed (m : RtSmallMem) : ℕ := m.addr / 2 * 2

/-- `mem->pool_ptr` of the item at `mem`. -/
def poolPtr (m : RtSmallMem) (mem : ℕ) : ℕ := m.heap mem

/-- `mem->next`. -/
def next (m : RtSmallMem) (mem : ℕ) : ℕ := m.heap (mem + 4)

/-- `mem->prev`. -/
def prev (m : RtSmallMem) (mem : ℕ) : ℕ := m.heap (mem + 8)

/-- `MEM_ISUSED`. -/
def memIsUsed (m : RtSmallMem) (mem : ℕ) : Bool := m.poolPtr mem % 2 = 1

/-- `MEM_POOL`. -/
def memPool (m : RtSmallMem) (mem : ℕ) : ℕ := m.poolPtr mem / 2 * 2

/-- A word of the heap written. -/
def store (m : RtSmallMem) (a v : ℕ) : RtSmallMem :=
  { m with heap := Function.update m.heap a v }

/-- `mem->pool_ptr = v`. -/
def setPoolPtr (m : RtSmallMem) (mem v : ℕ) : RtSmallMem := m.store mem v

/-- `mem->next = v`. -/
def setNext (m : RtSmallMem) (mem v : ℕ) : RtSmallMem := m.store (mem + 4) v

/-- `mem->prev = v`. -/
def setPrev (m : RtSmallMem) (mem v : ℕ) : RtSmallMem := m.store (mem + 8) v

/-- `m->lfree = v`. -/
def setLfree (m : RtSmallMem) (v : ℕ) : RtSmallMem := { m with lfree := v }

/-- The writes by which the item at `x` takes in the item at `y` behind it,
the same in both halves of `plug_holes`. -/
def takeIn (m : RtSmallMem) (x y : ℕ) : RtSmallMem :=
  let m := if m.lfree = y then m.setLfree x else m
  let m := m.setPoolPtr y 0
  let m := m.setNext x (m.next y)
  m.setPrev (m.next y) x

/-- The first half of `plug_holes`: the item behind is taken in. -/
def plugForward (m : RtSmallMem) (mem : ℕ) : RtSmallMem :=
  let nmem := m.next mem
  if mem ≠ nmem ∧ m.memIsUsed nmem = false ∧ nmem ≠ m.heapEnd then m.takeIn mem nmem else m

/-- The second half: the item is taken into the one before. -/
def plugBackward (m : RtSmallMem) (mem : ℕ) : RtSmallMem :=
  let pmem := m.prev mem
  if pmem ≠ mem ∧ m.memIsUsed pmem = false then m.takeIn pmem mem else m

/-- `plug_holes`; `none` where an assertion of it fails. -/
def plugHoles (m : RtSmallMem) (mem : ℕ) : Option RtSmallMem :=
  if mem < m.heapEnd then some ((m.plugForward mem).plugBackward mem) else none

end RtSmallMem

/-- What `rt_smem_init` sets up: the object and its first and last items. -/
def smemSetUp (smallMem beginAlign memSize : ℕ) (heap : ℕ → ℕ) : RtSmallMem :=
  let m : RtSmallMem :=
    { addr := smallMem, heapPtr := beginAlign, heap := heap, memSizeAligned := memSize,
      heapEnd := memSize + sizeofStructMem, lfree := 0, used := 0, max := 0 }
  -- the start of the heap
  let m := m.setPoolPtr 0 m.memFreed
  let m := m.setNext 0 (memSize + sizeofStructMem)
  let m := m.setPrev 0 0
  -- the end of the heap
  let m := m.setPoolPtr m.heapEnd m.memUsed
  let m := m.setNext m.heapEnd (memSize + sizeofStructMem)
  m.setPrev m.heapEnd (memSize + sizeofStructMem)

/-- `rt_smem_init`, over a memory that holds `heap` from its first item on. -/
def rtSmemInit (beginAddr size : ℕ) (heap : ℕ → ℕ) : Option RtSmallMem :=
  let smallMem := rtAlign beginAddr
  let startAddr := u32 (smallMem + sizeofSmallMem)
  let beginAlign := rtAlign startAddr
  let endAlign := rtAlignDown (u32 (beginAddr + size))
  if 2 * sizeofStructMem < endAlign ∧ startAddr ≤ endAlign - 2 * sizeofStructMem then
    some (smemSetUp smallMem beginAlign (endAlign - beginAlign - 2 * sizeofStructMem) heap)
  else none

namespace RtSmallMem

/-- What the walk over the items of the heap passes, from `mem` to
`heap_end`: the length of each, and whether it is used. -/
def walk (m : RtSmallMem) : ℕ → ℕ → List (ℕ × Bool)
  | 0, _ => []
  | fuel + 1, mem =>
    if mem = m.heapEnd then [] else (m.next mem - mem, m.memIsUsed mem) :: m.walk fuel (m.next mem)

/-- The item at `ptr` is free and has room for `size` bytes of data. -/
def fits (m : RtSmallMem) (size ptr : ℕ) : Bool :=
  m.memIsUsed ptr = false ∧ size ≤ m.next ptr - (ptr + sizeofStructMem)

/-- One pass of the search of `rt_smem_alloc`: past an item that does not
do. -/
def allocPass (m : RtSmallMem) (size ptr : ℕ) : Option ℕ :=
  if ptr ≤ m.memSizeAligned - size ∧ m.fits size ptr = false then some (m.next ptr) else none

/-- Where the search ends. -/
def allocPtr (m : RtSmallMem) (size : ℕ) : ℕ :=
  Loop.run (m.allocPass size) m.heapEnd m.lfree

/-- One pass of `while (MEM_ISUSED(lfree) && lfree != heap_end)`. -/
def lfreePass (m : RtSmallMem) (lfree : ℕ) : Option ℕ :=
  if m.memIsUsed lfree ∧ lfree ≠ m.heapEnd then some (m.next lfree) else none

/-- Where that loop leaves `lfree`. -/
def nextFree (m : RtSmallMem) : ℕ := Loop.run m.lfreePass m.heapEnd m.lfree

/-- `used` raised by `n`, and `max` with it. -/
def addUsed (m : RtSmallMem) (n : ℕ) : RtSmallMem :=
  { m with used := m.used + n, max := if m.max < m.used + n then m.used + n else m.max }

/-- The item at `ptr` cut after `size` bytes of data. -/
def cut (m : RtSmallMem) (ptr size : ℕ) : RtSmallMem :=
  let ptr2 := ptr + sizeofStructMem + size
  let m := m.setPoolPtr ptr2 m.memFreed
  let m := m.setNext ptr2 (m.next ptr)
  let m := m.setPrev ptr2 ptr
  let m := m.setNext ptr ptr2
  if m.next ptr2 ≠ m.memSizeAligned + sizeofStructMem then m.setPrev (m.next ptr2) ptr2 else m

/-- The item `rt_smem_alloc` settles on, cut to size and marked. -/
def place (m : RtSmallMem) (mem size : ℕ) : RtSmallMem :=
  let m :=
    if size + sizeofStructMem + minSizeAligned ≤ m.next mem - (mem + sizeofStructMem) then
      (m.cut mem size).addUsed (size + sizeofStructMem)
    else m.addUsed (m.next mem - mem)
  m.setPoolPtr mem m.memUsed

/-- What `rt_smem_alloc` does with the item it settles on. -/
def take (m : RtSmallMem) (mem size : ℕ) : RtSmallMem :=
  let m := m.place mem size
  if mem = m.lfree then m.setLfree m.nextFree else m

end RtSmallMem

open RtSmallMem

/-- `rt_smem_alloc`: the heap after it and the data it answers, or no answer
of its own where an assertion fails. -/
def rtSmemAlloc (m : RtSmallMem) (size : ℕ) : Option (RtSmallMem × Option ℕ) :=
  if size = 0 then some (m, none)
  else
    let size := max (rtAlign size) minSizeAligned
    if m.memSizeAligned < size then some (m, none)
    else
      let mem := m.allocPtr size
      if mem ≤ m.memSizeAligned - size then
        let m' := m.take mem size
        -- the assertions on `lfree`, the end of the item and its alignment
        if (mem = m.lfree → m'.lfree = m'.heapEnd ∨ m'.memIsUsed m'.lfree = false) ∧
            mem + sizeofStructMem + size ≤ m'.heapEnd ∧
            (m.heapPtr + mem + sizeofStructMem) % rtAlignSize = 0 ∧
            (m.heapPtr + mem) % rtAlignSize = 0 then
          some (m', some (mem + sizeofStructMem))
        else none
      else some (m, none)

/-- `rt_smem_free`, of data the header of which names this heap; `none`
where an assertion fails. -/
def rtSmemFree (m : RtSmallMem) : Option ℕ → Option RtSmallMem
  | none => some m
  | some rmem =>
    let mem := rmem - sizeofStructMem
    if (m.heapPtr + rmem) % rtAlignSize = 0 ∧ m.memPool mem = m.addr ∧ m.memIsUsed mem ∧
        rmem < m.heapEnd ∧ m.memPool (m.next mem) = m.addr then
      let m := m.setPoolPtr mem m.memFreed
      let m := if mem < m.lfree then m.setLfree mem else m
      let m := { m with used := m.used - (m.next mem - mem) }
      m.plugHoles mem
    else none

/-- `rt_memcpy(dst, src, n)` within the heap, of whole words. -/
def memcpy (heap : ℕ → ℕ) (dst src n : ℕ) : ℕ → ℕ :=
  fun a => if dst ≤ a ∧ a < dst + n then heap (a - dst + src) else heap a

/-- The branch of `rt_smem_realloc` that splits the memory block at `ptr`, of
`size` bytes, after `newsize` bytes. -/
def RtSmallMem.shrink (m : RtSmallMem) (ptr size newsize : ℕ) : Option RtSmallMem :=
  let mem2 := ptr + sizeofStructMem + newsize
  let m := { m with used := m.used - (size - newsize) }
  let m := m.cut ptr newsize
  let m := if mem2 < m.lfree then m.setLfree mem2 else m
  m.plugHoles mem2

/-- `rt_smem_realloc`. -/
def rtSmemRealloc (m : RtSmallMem) (rmem : Option ℕ) (newsize : ℕ) :
    Option (RtSmallMem × Option ℕ) :=
  let newsize := rtAlign newsize
  if m.memSizeAligned < newsize then some (m, none)
  else if newsize = 0 then (rtSmemFree m rmem).map fun m => (m, none)
  else
    match rmem with
    | none => rtSmemAlloc m newsize
    | some rmem =>
      if (m.heapPtr + rmem) % rtAlignSize = 0 ∧ rmem < m.heapEnd then
        let ptr := rmem - sizeofStructMem
        let size := m.next ptr - ptr - sizeofStructMem
        if size = newsize then some (m, some rmem)
        else if newsize + sizeofStructMem + minSizeAligned < size then
          (m.shrink ptr size newsize).map fun m => (m, some rmem)
        else
          match rtSmemAlloc m newsize with
          | none => none
          | some (m, none) => some (m, none)
          | some (m, some nmem) =>
            let m := { m with heap := memcpy m.heap nmem rmem (min size newsize) }
            (rtSmemFree m (some rmem)).map fun m => (m, some nmem)
      else none

end Kernel

end RtSpark
