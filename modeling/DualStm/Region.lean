import DualStm.Ownership
import Mathlib.Data.Int.Init
import Mathlib.Order.Basic
import Mathlib.Data.List.Basic
import Mathlib.Algebra.Group.Nat.Defs

/-!
# The region

`region_t` with its array of segments and its stack of free indices, the
virtual addresses of `tm.c`, and the operations that work on whole segments:
`tm_alloc`, `tm_free` and the commit of an epoch.

Memory allocation succeeds throughout (`realloc` only grows the array); `Allocation` has
the functions with an allocator that may refuse. Memory that `malloc` leaves
uninitialised is a parameter.

The arrays have no end here: `is_ro_flags` is a flag for every id, and a `push` that would
leave `vals` has no result. The source stores there all the same, and what it stores over is
in `Raw`. So everything below is about ids smaller than `MAX_NUM_SEGMENTS` and a stack of at
most `MAX_STACK_SIZE`, and the theorems about the library say so.
-/

namespace DualStm

variable {W : Type}

/-- `MAX_NUM_SEGMENTS`, the length of `is_ro_flags`. -/
def MAX_NUM_SEGMENTS : ℕ := 0x10000

/-- `MAX_STACK_SIZE`, the length of `vals`. -/
def MAX_STACK_SIZE : ℕ := 0x10000

/-- `N_INIT_SEGMENTS`, the length of the first array of segments. -/
def N_INIT_SEGMENTS : ℕ := 128

/-! ## Virtual addresses

A virtual address has the offset within a segment in its lower 16 bits and the index of the
segment above them, with one more bit that no index reaches. -/

/-- The value an `int` takes: a conversion to it, or a sum of two of them. -/
def toInt32 (n : ℤ) : ℤ := n.bmod (2 ^ 32)

theorem toInt32_of_lt {k : ℕ} (hk : k < 2 ^ 31) : toInt32 k = k := by
  rw [toInt32, Int.bmod_def]
  split <;> omega

/-- `VIRT_ADDR_OFFSET`, what sets a virtual address apart from `NULL`. -/
def VIRT_ADDR_OFFSET : ℕ := 0x8000000

/-- `GET_VIRT_START_ADDR`, the address of the first segment. -/
def getVirtStartAddr : ℕ := VIRT_ADDR_OFFSET <<< 16

/-- `GET_VIRT_ADDR`, the address of the first word of a segment. -/
def getVirtAddr (segId : ℕ) : ℕ := (VIRT_ADDR_OFFSET ||| segId) <<< 16

/-- `EXTRACT_SEG_ID_FROM_VIRT_ADDR`, converted to the `int` it is assigned to. -/
def extractSegIdFromVirtAddr (addr : ℕ) : ℤ :=
  toInt32 ((VIRT_ADDR_OFFSET ^^^ (addr >>> 16) : ℕ) : ℤ)

/-- `EXTRACT_WORD_INDEX_FROM_VIRT_ADDR`. -/
def extractWordIndexFromVirtAddr (addr align : ℕ) : ℕ := (addr &&& 0xFFFF) / align

/-! ## The stack of free indices

The indices of freed segments, the last one pushed first. The stack of the source is an array
and its `top`, and the list is what is below `top`. -/

/-- `stack_t`: `vals[top]` comes first, so that `top` is the length less one. -/
structure Stack where
  /-- `vals[top]`, `vals[top - 1]`, … `vals[0]` -/
  vals : List ℕ
  deriving DecidableEq

/-- `pop`; `none` for the index `-1` of an empty stack. -/
def pop (stack : Stack) : Option ℕ × Stack :=
  match stack.vals with
  | [] => (none, stack)
  | index :: vals => (some index, ⟨vals⟩)

/-- `push`; `none` when it would store past the end of `vals`, which the source does not
look at: such a step is one of `Raw`, with any region after it. -/
def push (stack : Stack) (idx : ℕ) : Option Stack :=
  if stack.vals.length < MAX_STACK_SIZE then some ⟨idx :: stack.vals⟩ else none

/-! ## The region

The region holds all segments that were ever in use. A segment is referred to by its index, at
which the source has a `segment_t`. -/

/-- `region_t`, less its locks, its address and its batcher. -/
structure Region (W : Type) where
  /-- how many segments are in use -/
  nSegments : ℕ
  /-- the array of segments -/
  segments : ℕ → Segment W
  /-- the size of a word in bytes -/
  align : ℕ
  /-- the size of the first segment -/
  segSize : ℕ
  /-- which transactions are read-only; the array ends at `MAX_NUM_SEGMENTS`, and what a
  store past its end does is in `Raw` -/
  isRoFlags : ℕ → Bool
  /-- freed segments, to be reused -/
  freeSegIndices : Stack

namespace Region

/-- Store a segment at an index of the region. -/
def setSegment (region : Region W) (i : ℕ) (seg : Segment W) : Region W :=
  { region with segments := Function.update region.segments i seg }

@[simp] theorem setSegment_self (region : Region W) (i : ℕ) (seg : Segment W) :
    (region.setSegment i seg).segments i = seg := by
  simp [setSegment]

theorem setSegment_ne (region : Region W) {i k : ℕ} (seg : Segment W) (hk : k ≠ i) :
    (region.setSegment i seg).segments k = region.segments k := by
  simp [setSegment, Function.update_of_ne hk]

@[simp] theorem setSegment_nSegments (region : Region W) (i : ℕ) (seg : Segment W) :
    (region.setSegment i seg).nSegments = region.nSegments := rfl

@[simp] theorem setSegment_freeSegIndices (region : Region W) (i : ℕ) (seg : Segment W) :
    (region.setSegment i seg).freeSegIndices = region.freeSegIndices := rfl

end Region

/-- `tm_create`, its allocations succeeding: one segment, no free index. -/
def tmCreate [Zero W] (size align : ℕ) (segments : ℕ → Segment W) (isRoFlags : ℕ → Bool) :
    Region W :=
  { freeSegIndices := ⟨[]⟩
    segSize := size
    align := align
    nSegments := 1
    segments := Function.update segments 0 (initSegment align size)
    isRoFlags := isRoFlags }

/-- `add_segment`: the index after the last one in use, initialised. -/
def addSegment [Zero W] (region : Region W) (size : ℕ) : ℕ × Region W :=
  let idx := region.nSegments
  let region := { region with nSegments := region.nSegments + 1 }
  (idx, region.setSegment idx (initSegment region.align size))

/-- `tm_alloc`: the index of the segment it hands out, whose virtual address
goes to `*target`. -/
def tmAlloc [Zero W] (region : Region W) (size : ℕ) : ℕ × Region W :=
  match pop region.freeSegIndices with
  | (none, _) => addSegment region size
  | (some segmentIndex, stack) =>
    (segmentIndex, { region with freeSegIndices := stack }.setSegment segmentIndex
      (initSegment region.align size))

/-- `tm_free` on a segment index; `none` when the transaction has to abort. -/
def tmFree (region : Region W) (tx segmentIndex : ℕ) : Option (Region W) :=
  let segment := region.segments segmentIndex
  if segment.deregistered = NONE then
    some (region.setSegment segmentIndex { segment with deregistered := tx })
  else if segment.deregistered ≠ tx then none
  else some region

/-- The end of the segment loop of `abort_transaction_tx`: undo a free. -/
def undoFree (region : Region W) (tx i : ℕ) : Region W :=
  if (region.segments i).deregistered = tx then
    region.setSegment i { region.segments i with deregistered := NONE }
  else region

/-- The body of the segment loop of `commit_transcations_in_epoch`. -/
def commitStep (region : Region W) (i : ℕ) : Option (Region W) :=
  let segment := region.segments i
  if segment.deregistered ≠ NONE then
    (push region.freeSegIndices i).map fun stack => { region with freeSegIndices := stack }
  else some (region.setSegment i (commitSegment segment))

/-- `commit_transcations_in_epoch`; `none` when a push runs off the stack. -/
def commitTranscationsInEpoch (region : Region W) : Option (Region W) :=
  (List.range region.nSegments).foldlM commitStep region

/-! ## What the operations leave alone

`tm_alloc` initialises one segment and leaves the others alone; `tm_free` and the abort change
marks; a commit changes words and marks of no segment but those in use. -/

/-- `tm_alloc` initialises one segment, and leaves the others alone. -/
theorem tmAlloc_ne [Zero W] {region : Region W} {size k : ℕ} (hk : k ≠ (tmAlloc region size).1) :
    (tmAlloc region size).2.segments k = region.segments k := by
  rw [tmAlloc] at hk ⊢
  split at hk <;> exact Region.setSegment_ne _ _ hk

/-- The segment it hands out is a new one. -/
theorem tmAlloc_self [Zero W] (region : Region W) (size : ℕ) :
    (tmAlloc region size).2.segments (tmAlloc region size).1 =
      initSegment region.align size := by
  rw [tmAlloc]
  split <;> exact Region.setSegment_self ..

/-- Only the segment that `tm_alloc` hands out may come into use. -/
theorem lt_of_lt_tmAlloc [Zero W] {region : Region W} {size k : ℕ}
    (hlt : k < (tmAlloc region size).2.nSegments) (hk : k ≠ (tmAlloc region size).1) :
    k < region.nSegments := by
  rw [tmAlloc] at hlt hk
  rcases hp : pop region.freeSegIndices with ⟨_ | i, stack⟩
  · simp only [hp] at hlt hk
    have hlt : k < region.nSegments + 1 := hlt
    have hk : k ≠ region.nSegments := hk
    omega
  · simp only [hp] at hlt
    exact hlt

theorem tmAlloc_align [Zero W] (region : Region W) (size : ℕ) :
    (tmAlloc region size).2.align = region.align := by
  rw [tmAlloc]
  split <;> rfl

theorem tmAlloc_nSegments_le [Zero W] (region : Region W) (size : ℕ) :
    region.nSegments ≤ (tmAlloc region size).2.nSegments := by
  rw [tmAlloc]
  split
  · exact Nat.le_succ _
  · exact Nat.le_refl _

/-- `tm_alloc` hands out a new index, or the one on top of the stack. -/
theorem tmAlloc_cases [Zero W] (region : Region W) (size : ℕ) :
    (region.freeSegIndices.vals = [] ∧ (tmAlloc region size).1 = region.nSegments ∧
        (tmAlloc region size).2.nSegments = region.nSegments + 1 ∧
        (tmAlloc region size).2.freeSegIndices.vals = []) ∨
      region.freeSegIndices.vals =
          (tmAlloc region size).1 :: (tmAlloc region size).2.freeSegIndices.vals ∧
        (tmAlloc region size).2.nSegments = region.nSegments := by
  rcases hvals : region.freeSegIndices.vals with _ | ⟨i, vals⟩
  · have hp : pop region.freeSegIndices = (none, region.freeSegIndices) := by
      rw [pop]
      split
      · rfl
      · rename_i hc
        rw [hvals] at hc
        cases hc
    rw [tmAlloc, hp]
    exact .inl ⟨rfl, rfl, rfl, hvals⟩
  · have hp : pop region.freeSegIndices = (some i, ⟨vals⟩) := by
      rw [pop]
      split
      · rename_i hc
        rw [hvals] at hc
        cases hc
      · rename_i hc
        rw [hvals] at hc
        obtain ⟨rfl, rfl⟩ := List.cons.inj hc
        rfl
    rw [tmAlloc, hp]
    exact .inr ⟨rfl, rfl⟩

/-- `tm_free` marks its segment if nobody has, and does nothing else. -/
theorem tmFree_eq_some {region region' : Region W} {tx i : ℕ}
    (hf : tmFree region tx i = some region') :
    region' = region.setSegment i { region.segments i with deregistered := tx } := by
  simp only [tmFree] at hf
  split at hf
  · exact (Option.some.inj hf).symm
  · split at hf
    · cases hf
    · rename_i heq
      have hsame : ({ region.segments i with deregistered := tx } : Segment W) =
          region.segments i := by
        rw [← not_not.mp heq]
      rw [hsame, Region.setSegment, Function.update_eq_self]
      exact (Option.some.inj hf).symm

/-- What the commit does, all segments at once. -/
structure CommitSpec (n : ℕ) (region region' : Region W) : Prop where
  /-- no segment comes or goes -/
  nSegments : region'.nSegments = region.nSegments
  /-- the alignment stays -/
  align : region'.align = region.align
  /-- the flags stay -/
  isRoFlags : region'.isRoFlags = region.isRoFlags
  /-- words are committed in the segments nobody freed -/
  segments : ∀ i, region'.segments i =
    if i < n ∧ (region.segments i).deregistered = NONE then commitSegment (region.segments i)
    else region.segments i
  /-- freed segments are pushed -/
  freeSegIndices : region'.freeSegIndices.vals =
    ((List.range n).filter fun i => (region.segments i).deregistered ≠ NONE).reverse ++
      region.freeSegIndices.vals

theorem commitSpec_upTo {region : Region W} : ∀ {n : ℕ} {region' : Region W},
    (List.range n).foldlM commitStep region = some region' → CommitSpec n region region' := by
  intro n
  induction n with
  | zero =>
    intro region' h
    obtain rfl := Option.some.inj h
    exact ⟨rfl, rfl, rfl, fun i => by simp, rfl⟩
  | succ n ih =>
    intro region' h
    rw [List.range_succ, List.foldlM_append] at h
    rcases hn : (List.range n).foldlM commitStep region with _ | r
    · rw [hn] at h
      cases h
    · rw [hn] at h
      have hr := ih hn
      have hseg : r.segments n = region.segments n := by
        rw [hr.segments n, if_neg (by omega)]
      have hstep : commitStep r n = some region' := by simpa using h
      unfold commitStep at hstep
      simp only [hseg] at hstep
      by_cases hd : (region.segments n).deregistered = NONE
      · -- nobody freed it: its words are committed
        rw [if_neg (by simpa using hd)] at hstep
        obtain rfl := Option.some.inj hstep
        refine ⟨hr.nSegments, hr.align, hr.isRoFlags, ?_, ?_⟩
        · intro i
          obtain rfl | hi := eq_or_ne i n
          · rw [Region.setSegment_self, if_pos ⟨Nat.lt_succ_self _, hd⟩]
          · rw [Region.setSegment_ne _ _ hi, hr.segments i]
            have hlt : i < n + 1 ↔ i < n := by omega
            simp only [hlt]
        · rw [Region.setSegment_freeSegIndices, hr.freeSegIndices, List.range_succ,
            List.filter_append]
          simp [hd]
      · -- it was freed: its index is pushed
        rw [if_pos hd, Option.map_eq_some_iff] at hstep
        obtain ⟨stack, hpush, rfl⟩ := hstep
        unfold push at hpush
        split at hpush
        · obtain rfl := Option.some.inj hpush
          refine ⟨hr.nSegments, hr.align, hr.isRoFlags, ?_, ?_⟩
          · intro i
            simp only [hr.segments i]
            obtain rfl | hi := eq_or_ne i n
            · rw [if_neg (by omega), if_neg (fun hc => hd hc.2)]
            · have hlt : i < n + 1 ↔ i < n := by omega
              simp only [hlt]
          · simp only [hr.freeSegIndices, List.range_succ, List.filter_append]
            simp [hd]
        · cases hpush

theorem commitTranscationsInEpoch_spec {region region' : Region W}
    (h : commitTranscationsInEpoch region = some region') :
    CommitSpec region.nSegments region region' := commitSpec_upTo h

/-- No segment in use is marked as freed. -/
def Region.Unmarked (r : Region W) : Prop :=
  ∀ i < r.nSegments, (r.segments i).deregistered = NONE

instance (r : Region W) : Decidable r.Unmarked := inferInstanceAs (Decidable (∀ i < _, _))

/-- A commit that has nothing to push. -/
theorem Region.Unmarked.commit {r : Region W} (hr : r.Unmarked) :
    ∃ r', commitTranscationsInEpoch r = some r' := by
  have hupTo : ∀ k ≤ r.nSegments, ∃ r', (List.range k).foldlM commitStep r = some r' := by
    intro k
    induction k with
    | zero => exact fun _ => ⟨r, rfl⟩
    | succ k ih =>
      intro hk
      obtain ⟨r', hr'⟩ := ih (Nat.le_of_succ_le hk)
      have hsame : r'.segments k = r.segments k := by
        rw [(commitSpec_upTo hr').segments, if_neg fun hc => Nat.lt_irrefl _ hc.1]
      rw [List.range_succ, List.foldlM_append, hr']
      exact ⟨r'.setSegment k (commitSegment (r'.segments k)), by simp [commitStep, hsame, hr k hk]⟩
  exact hupTo _ (Nat.le_refl _)

end DualStm
