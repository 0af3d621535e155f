import DualStm.Library.ByteHeap
import DualStm.Library.Links
import DualStm.Library.Run

/-!
# The reference implementation

The memory of the reference implementation, byte by byte. A segment that `tm_alloc` returns
has a header before it, and the headers are the nodes of a doubly linked list that the region
points to. `malloc` and `posix_memalign` are up to the environment, which may place a block
wherever no other is; what is in it is up to the environment as well.

All of it happens under the lock of the region, one call after the other. The lock itself is
left out. A function returns `none` where its behaviour is undefined.
-/

namespace DualStm

namespace Reference

/-! ## The memory

The memory of a client is a heap of bytes, and the region is a `struct` of it. Pointers are 64
bits wide, and a header is the two pointers before a segment. -/

/-- A pointer, as wide as the machine has it. -/
abbrev Ptr := UInt64

/-- `sizeof(struct segment_node)`, two pointers. -/
def sizeofNode : UInt64 := 16

/-- `sizeof(void*)`, the least alignment a segment gets. -/
def sizeofPtr : UInt64 := 8

/-- A block that the environment grants. -/
structure Grant where
  /-- where it begins -/
  ptr : Ptr
  /-- what is in it -/
  junk : ℕ → UInt8

/-- `struct region`, without its `lock`. -/
structure Region where
  /-- `start` -/
  start : Ptr
  /-- `allocs` -/
  allocs : Ptr
  /-- `size` -/
  size : UInt64
  /-- `align` -/
  align : UInt64

/-- The memory, and the region that is in it. -/
structure State where
  /-- the memory -/
  heap : ByteHeap
  /-- where the region is -/
  shared : Ptr
  /-- what it holds -/
  region : Region

/-- `malloc`; `NULL` unless a block is granted. -/
def malloc (heap : ByteHeap) (size : ℕ) : Option Grant → Option (ByteHeap × Option Ptr)
  | none => some (heap, none)
  | some g => (heap.alloc ⟨g.ptr.toNat, size⟩ g.junk).map fun heap => (heap, some g.ptr)

/-- `posix_memalign`: a granted block is aligned, or the call has no result in the model. -/
def posixMemalign (heap : ByteHeap) (align size : UInt64) :
    Option Grant → Option (ByteHeap × Option Ptr)
  | none => some (heap, none)
  | some g => if g.ptr % align = 0 then malloc heap size.toNat (some g) else none

namespace State

/-- `sn->prev`, the first word of the header. -/
def prev (s : State) (sn : Ptr) : Option Ptr := s.heap.load64 sn.toNat

/-- `sn->next`, the second word of the header. -/
def next (s : State) (sn : Ptr) : Option Ptr := s.heap.load64 (sn.toNat + 8)

/-- `sn->prev = p`, if there is a header to store to. -/
def setPrev (s : State) (sn p : Ptr) : Option State :=
  (s.heap.store64 sn.toNat p).map fun heap => { s with heap := heap }

/-- `sn->next = p`, if there is a header to store to. -/
def setNext (s : State) (sn p : Ptr) : Option State :=
  (s.heap.store64 (sn.toNat + 8) p).map fun heap => { s with heap := heap }

/-- `region->allocs = p`, the head of the list. -/
def setAllocs (s : State) (p : Ptr) : State := { s with region := { s.region with allocs := p } }

/-- `free(p)`, which has no result in the model unless `p` is the base of a live block. -/
def free (s : State) (p : Ptr) : Option State :=
  (s.heap.free p.toNat).map fun heap => { s with heap := heap }

/-- `memcpy`, and `memset` with bytes that are the same. -/
def copy (s : State) (target : Ptr) (source : List UInt8) : Option State :=
  (s.heap.store target.toNat source).map fun heap => { s with heap := heap }

end State

/-! ## The calls

Each call of the library as the source has it, with every load and store. A call that would
access memory it does not have is `none`. -/

/-- What `tm_create` leaves: a region, or the memory and `invalid_shared`. -/
inductive Created where
  /-- `invalid_shared` -/
  | invalid (heap : ByteHeap)
  /-- a region -/
  | shared (s : State)

/-- `alloc_t`, and the address returned with `success_alloc`. -/
inductive Alloc where
  /-- `success_alloc` -/
  | success (target : Ptr)
  /-- `nomem_alloc` -/
  | nomem
  deriving DecidableEq

/-- `tm_create`. The environment decides about the blocks and about `shared_lock_init`. -/
def tmCreate (sizeofRegion : ℕ) (heap : ByteHeap) (size align : UInt64)
    (region start : Option Grant) (lockInit : Bool) : Option Created := do
  match ← malloc heap sizeofRegion region with
  | (heap, none) => return .invalid heap
  | (heap, some shared) =>
    match ← posixMemalign heap align size start with
    | (heap, none) => return .invalid (← heap.free shared.toNat)
    | (heap, some start) =>
      if lockInit = false then
        let heap ← heap.free start.toNat
        return .invalid (← heap.free shared.toNat)
      else
        let heap ← heap.store start.toNat (List.replicate size.toNat 0)
        return .shared ⟨heap, shared, ⟨start, 0, size, align⟩⟩

/-- `if (sn->next) sn->next->prev = sn`. -/
def linkNext (s : State) (sn : Ptr) : Option State := do
  if (← s.next sn) ≠ 0 then s.setPrev (← s.next sn) sn else return s

/-- `tm_alloc`: a block for a header and the segment after it, put at the head of the list. -/
def tmAlloc (s : State) (size : UInt64) (grant : Option Grant) : Option (State × Alloc) := do
  let align := if s.region.align < sizeofPtr then sizeofPtr else s.region.align
  match ← posixMemalign s.heap align (sizeofNode + size) grant with
  | (heap, none) => return ({ s with heap := heap }, .nomem)
  | (heap, some sn) =>
    let s := { s with heap := heap }
    let s ← s.setPrev sn 0
    let s ← s.setNext sn s.region.allocs
    let s ← linkNext s sn
    let s := s.setAllocs sn
    let segment := sn + sizeofNode
    let s ← s.copy segment (List.replicate size.toNat 0)
    return (s, .success segment)

/-- `if (sn->prev) sn->prev->next = sn->next; else region->allocs = sn->next`. -/
def unlinkPrev (s : State) (sn : Ptr) : Option State := do
  if (← s.prev sn) ≠ 0 then s.setNext (← s.prev sn) (← s.next sn)
  else return s.setAllocs (← s.next sn)

/-- `if (sn->next) sn->next->prev = sn->prev`. -/
def unlinkNext (s : State) (sn : Ptr) : Option State := do
  if (← s.next sn) ≠ 0 then s.setPrev (← s.next sn) (← s.prev sn) else return s

/-- `tm_free`: the header before the segment is taken out of the list, and its block is freed. -/
def tmFree (s : State) (segment : Ptr) : Option State := do
  let sn := segment - sizeofNode
  let s ← unlinkPrev s sn
  let s ← unlinkNext s sn
  s.free sn

/-- `tm_read`, by what it copies. -/
def tmRead (s : State) (source : Ptr) (size : UInt64) : Option (List UInt8) :=
  s.heap.load source.toNat size.toNat

/-- `tm_write`, which copies the source to the target. -/
def tmWrite (s : State) (source : List UInt8) (target : Ptr) : Option State := s.copy target source

/-- The loop of `tm_destroy`, up to a number of turns. -/
def destroyAllocs : ℕ → State → Option State
  | 0, _ => none
  | fuel + 1, s => do
    if s.region.allocs = 0 then return s
    else
      let tail ← s.next s.region.allocs
      let s ← s.free s.region.allocs
      destroyAllocs fuel (s.setAllocs tail)

/-- `tm_destroy`: the segments of the list are freed, then the first segment and the region.
The fuel bounds the walk over the list. -/
def tmDestroy (fuel : ℕ) (s : State) : Option ByteHeap := do
  let s ← destroyAllocs fuel s
  let s ← s.free s.region.start
  let s ← s.free s.shared
  return s.heap

/-! ## Calls in any order

A client calls the library in any order. What was allocated and not freed since can be told
from the calls alone. -/

/-- What the client may call, with what the allocator answers to it. -/
inductive Call where
  /-- `tm_alloc`, and the block that the environment grants -/
  | alloc (size : UInt64) (grant : Option Grant)
  /-- `tm_free` -/
  | free (segment : Ptr)
  /-- `tm_write` -/
  | write (source : List UInt8) (target : Ptr)

/-- What a call did, as the client sees it. -/
inductive Event where
  /-- `tm_alloc` returned -/
  | alloc (size : UInt64) (result : Alloc)
  /-- `tm_free` returned -/
  | free (segment : Ptr)
  /-- `tm_write` returned -/
  | write (target : Ptr) (size : ℕ)
  deriving DecidableEq

/-- The transition function: one call of the client. -/
def step (s : State) : Call → Option (State × Event)
  | .alloc size grant => (tmAlloc s size grant).map fun (s, result) => (s, .alloc size result)
  | .free segment => (tmFree s segment).map fun s => (s, .free segment)
  | .write source target =>
    (tmWrite s source target).map fun s => (s, .write target source.length)

/-- A segment, as the client sees it: an address and a size. -/
structure Segment where
  /-- where it begins -/
  address : Ptr
  /-- how many bytes it has -/
  size : UInt64
  deriving DecidableEq

namespace Segment

/-- The header of a segment, which is right before it. -/
def header (g : Segment) : Ptr := g.address - sizeofNode

/-- The block that a segment is in, its header included. -/
def block (g : Segment) : ByteBlock := ⟨g.header.toNat, sizeofNode.toNat + g.size.toNat⟩

end Segment

/-- The live allocated segments, the last one first. -/
def segments : List Event → List Segment
  | [] => []
  | .alloc size (.success target) :: h => ⟨target, size⟩ :: segments h
  | .free segment :: h => (segments h).eraseP fun g => g.address == segment
  | _ :: h => segments h

/-- The segment that the region was created with. -/
def Region.first (r : Region) : Segment := ⟨r.start, r.size⟩

/-- The client frees live allocated segments only, and writes to live segments only. -/
def Clients (r : Region) : Discipline State Event := fun h _ e =>
  match e with
  | .alloc _ _ => True
  | .free segment => ∃ g ∈ segments h, g.address = segment
  | .write target size => ∃ g ∈ r.first :: segments h,
      g.address.toNat ≤ target.toNat ∧ target.toNat + size ≤ g.address.toNat + g.size.toNat

instance (r : Region) (h : List Event) (s : State) (e : Event) : Decidable (Clients r h s e) :=
  match e with
  | .alloc _ _ => inferInstanceAs (Decidable True)
  | .free _ => inferInstanceAs (Decidable (∃ g ∈ segments h, _))
  | .write _ _ => inferInstanceAs (Decidable (∃ g ∈ _ :: segments h, _))

end Reference

end DualStm
