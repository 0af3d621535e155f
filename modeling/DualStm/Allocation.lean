import DualStm.Library.HeapLedger
import DualStm.Region
import Mathlib.Algebra.Ring.Int.Defs

/-!
# Allocation with failures

The functions that call `malloc`, `calloc` and `realloc`, on a region together with
the heap blocks that its pointers point to. Any of these calls may return `NULL`;
which ones do is up to the environment. While nothing fails they are the functions of
the region; here it matters what they leave behind when something does.

The words behind a pointer stay with the region. What the arrays of a segment hold
once they are freed, or before they are there, is of no interest.
-/

namespace DualStm

variable {W : Type}

/-- `success_alloc`, the status with the value 0. -/
def successAlloc : ℤ := 0

/-- `nomem_alloc`, the status with the value 2. -/
def nomemAlloc : ℤ := 2

/-- The pointers of a `segment_t`: the blocks they point to, `none` for `NULL`. -/
structure Arrays where
  /-- `words_array_A` -/
  wordsArrayA : Option ℕ
  /-- `words_array_B` -/
  wordsArrayB : Option ℕ
  /-- `control` -/
  control : Option ℕ
  /-- `control_lock` -/
  controlLock : Option ℕ
  deriving DecidableEq

/-- The blocks of the heap that the four pointers of a segment point to. -/
def Arrays.blocks (a : Arrays) : List ℕ :=
  [a.wordsArrayA, a.wordsArrayB, a.control, a.controlLock].filterMap id

/-- The heap blocks of a region: its own, the array of segments, and the arrays of each
segment. -/
structure Blocks where
  /-- the `region_t` itself -/
  self : ℕ
  /-- `segments` -/
  segments : Option ℕ
  /-- the pointers in the array of segments -/
  arrays : ℕ → Arrays
  /-- the books of the allocator -/
  ledger : HeapLedger

/-- What `tm_alloc` returned and left behind. -/
structure Outcome (W : Type) where
  /-- the `alloc_t` returned -/
  code : ℤ
  /-- what was written to `*target`, if anything was -/
  target : Option ℕ
  /-- the region -/
  region : Region W
  /-- the heap blocks of the region -/
  blocks : Blocks
  /-- the call returned with `global_lock` held -/
  locked : Bool

namespace Blocks

variable [Zero W] (grant : ℕ → Bool)

/-- `init_segment`, on a segment and its pointers. -/
def initSegment (segment : Segment W) (a : Arrays) (align size : ℕ) (l : HeapLedger) :
    Bool × Segment W × Arrays × HeapLedger :=
  let segment := { segment with align := align, nWords := size / align, deregistered := NONE }
  let (p, l) := l.alloc grant
  let a := { a with wordsArrayA := p }
  if a.wordsArrayA = none then (false, segment, a, l)
  else
    let (p, l) := l.alloc grant
    let a := { a with wordsArrayB := p }
    if a.wordsArrayB = none then (false, segment, a, l.free a.wordsArrayA)
    else
      let (p, l) := l.alloc grant
      let a := { a with control := p }
      if a.control = none then (false, segment, a, (l.free a.wordsArrayA).free a.wordsArrayB)
      else
        let (p, l) := l.alloc grant
        let a := { a with controlLock := p }
        if a.controlLock = none then
          (false, segment, a, ((l.free a.control).free a.wordsArrayA).free a.wordsArrayB)
        else (true, DualStm.initSegment align size, a, l)

/-- `allocate_more_segments`: from `N_INIT_SEGMENTS` on a `realloc`, whose answer overwrites
the pointer to the array even when it is `NULL`. -/
def allocateMoreSegments (nSegments : ℕ) (b : Blocks) : Bool × Blocks :=
  if N_INIT_SEGMENTS ≤ nSegments then
    match b.ledger.alloc grant with
    -- `realloc` releases the array it has copied
    | (some k, l) => (true, { b with segments := some k, ledger := l.free b.segments })
    | (none, l) => (false, { b with segments := none, ledger := l })
  else (true, b)

/-- `init_segment` on a segment of the region. -/
def initAt (region : Region W) (b : Blocks) (i size : ℕ) : Bool × Region W × Blocks :=
  match initSegment grant (region.segments i) (b.arrays i) region.align size b.ledger with
  | (ok, segment, a, l) =>
    (ok, region.setSegment i segment,
      { b with arrays := Function.update b.arrays i a, ledger := l })

/-- `add_segment`: an index, or `-1`, or `nomem_alloc`. -/
def addSegment (region : Region W) (b : Blocks) (size : ℕ) : ℤ × Region W × Blocks :=
  let idx := region.nSegments
  let region := { region with nSegments := region.nSegments + 1 }
  match allocateMoreSegments grant region.nSegments b with
  | (false, b) => (-1, region, b)
  | (true, b) =>
    match initAt grant region b idx size with
    | (false, region, b) => (nomemAlloc, region, b)
    | (true, region, b) => (idx, region, b)

/-- `tm_alloc`, with the allocator that grants what `grant` says. -/
def tmAlloc (region : Region W) (b : Blocks) (size : ℕ) : Outcome W :=
  match pop region.freeSegIndices with
  | (none, _) =>
    match addSegment grant region b size with
    | (segmentIndex, region, b) =>
      if segmentIndex = -1 then ⟨nomemAlloc, none, region, b, true⟩
      else ⟨successAlloc, some (getVirtAddr segmentIndex.toNat), region, b, false⟩
  | (some i, stack) =>
    match initAt grant { region with freeSegIndices := stack } b i size with
    | (false, region, b) => ⟨nomemAlloc, none, region, b, true⟩
    | (true, region, b) => ⟨successAlloc, some (getVirtAddr i), region, b, false⟩

/-- `tm_create`: the region, unless it returned `invalid_shared`, and the books. The two
flags say whether `lock_init` succeeded on `global_lock` and on the lock of the batcher;
both initialisers run whatever the first one returned. -/
def tmCreate (globalLock batcherLock : Bool) (size align : ℕ) (segments : ℕ → Segment W)
    (arrays : ℕ → Arrays) (isRoFlags : ℕ → Bool) (l : HeapLedger) :
    Option (Region W × Blocks) × HeapLedger :=
  match l.alloc grant with
  | (none, l) => (none, l)
  | (some self, l) =>
    match l.alloc grant with
    | (none, l) => (none, l.free (some self))
    | (some p, l) =>
      if globalLock = false then (none, (l.free (some p)).free (some self))
      else
        match initSegment grant (segments 0) (arrays 0) align size l with
        | (ok, segment, a, l) =>
          if batcherLock = false ∨ ok = false then (none, (l.free (some p)).free (some self))
          else
            (some (⟨1, Function.update segments 0 segment, align, size, isRoFlags, ⟨[]⟩⟩,
              ⟨self, some p, Function.update arrays 0 a, l⟩), l)

omit [Zero W] in
/-- `segment_destroy`; `none` when it runs into a `NULL` array of locks. -/
def segmentDestroy (nWords : ℕ) (a : Arrays) (l : HeapLedger) : Option HeapLedger :=
  if 0 < nWords ∧ a.controlLock = none then none
  else
    some ((((l.free a.controlLock).free a.control).free a.wordsArrayA).free a.wordsArrayB)

omit [Zero W] in
/-- `tm_destroy`; `none` when it runs into a `NULL` pointer. -/
def tmDestroy (region : Region W) (b : Blocks) : Option HeapLedger :=
  match b.segments with
  | none => none
  | some p =>
    ((List.range region.nSegments).foldlM
      (fun l i => segmentDestroy (region.segments i).nWords (b.arrays i) l) b.ledger).map
      fun l => (l.free (some p)).free (some b.self)

/-! ## What the functions do with the allocator

The calls of the allocator are numbered, and what a function does depends on which of them are
granted. So each function is described by its ways through, with the calls made on each. -/

section

variable {grant : ℕ → Bool} {segment : Segment W} {a : Arrays} {align size : ℕ} {l : HeapLedger}

/-- The pointers of a segment whose arrays come from four calls in a row. -/
def fresh (k : ℕ) : Arrays := ⟨some k, some (k + 1), some (k + 2), some (k + 3)⟩

omit [Zero W] in
@[simp] theorem alloc_snd (l : HeapLedger) : (l.alloc grant).2 = l.called := rfl

variable (grant segment a align size l) in
theorem initSegment_calls_le :
    (initSegment grant segment a align size l).2.2.2.calls ≤ l.calls + 4 := by
  simp only [initSegment]
  split_ifs <;> simp only [HeapLedger.free_calls, alloc_snd, HeapLedger.called_calls] <;> omega

variable (grant segment a align size l) in
theorem initSegment_cases :
    ((∀ k < 4, grant (l.calls + k) = true) ∧
      initSegment grant segment a align size l =
        (true, DualStm.initSegment align size, fresh l.calls, l.called.called.called.called)) ∨
    ∃ segment' a' l', initSegment grant segment a align size l = (false, segment', a', l') ∧
      HeapLedger.Refused grant l l' ∧
      ∀ held, HeapLedger.Holds grant l held → HeapLedger.Holds grant l' held := by
  have hlast : ∀ {l' : HeapLedger} {k : ℕ}, l'.calls = l.calls + k + 1 →
      grant (l.calls + k) = false → HeapLedger.Refused grant l l' := fun hcalls hk =>
    ⟨l.calls + _, by rw [hcalls]; exact Nat.lt_succ_self _, Nat.le_add_right _ _, hk⟩
  by_cases hA : grant l.calls = true
  · have hallocA := HeapLedger.alloc_of_grant hA
    by_cases hB : grant l.called.calls = true
    · have hallocB := HeapLedger.alloc_of_grant hB
      by_cases hC : grant l.called.called.calls = true
      · have hallocC := HeapLedger.alloc_of_grant hC
        by_cases hL : grant l.called.called.called.calls = true
        · left
          constructor
          · intro k hk
            match k, hk with
            | 0, _ => exact hA
            | 1, _ => exact hB
            | 2, _ => exact hC
            | 3, _ => exact hL
          · simp only [initSegment, hallocA, hallocB, hallocC, HeapLedger.alloc_of_grant hL,
              reduceCtorEq, if_false]
            rfl
        · -- the locks fail: what the first three calls granted is released
          rw [Bool.not_eq_true] at hL
          right
          refine ⟨_, _, _, by
            simp only [initSegment, hallocA, hallocB, hallocC, HeapLedger.alloc_of_not_grant hL,
              reduceCtorEq, if_false, if_true]; rfl, hlast (k := 3) rfl hL, fun held hl => ?_⟩
          apply HeapLedger.Holds.free
          apply HeapLedger.Holds.free
          apply HeapLedger.Holds.free
          refine (((hl.granted hA).granted hB).granted hC).perm ?_ |>.refused hL
          exact (List.Perm.swap ..).cons _
      · rw [Bool.not_eq_true] at hC
        right
        refine ⟨_, _, _, by
          simp only [initSegment, hallocA, hallocB, HeapLedger.alloc_of_not_grant hC,
            reduceCtorEq, if_false, if_true]; rfl, hlast (k := 2) rfl hC, fun held hl => ?_⟩
        apply HeapLedger.Holds.free
        apply HeapLedger.Holds.free
        exact ((hl.granted hA).granted hB).perm (List.Perm.swap ..) |>.refused hC
    · rw [Bool.not_eq_true] at hB
      right
      refine ⟨_, _, _, by
        simp only [initSegment, hallocA, HeapLedger.alloc_of_not_grant hB,
          reduceCtorEq, if_false, if_true]; rfl, hlast (k := 1) rfl hB, fun held hl => ?_⟩
      apply HeapLedger.Holds.free
      exact (hl.granted hA).refused hB
  · rw [Bool.not_eq_true] at hA
    right
    exact ⟨_, _, _, by simp only [initSegment, HeapLedger.alloc_of_not_grant hA, if_true]; rfl,
      hlast (k := 0) rfl hA, fun held hl => hl.refused hA⟩

variable {region : Region W} {b : Blocks}

variable (grant region b size) in
/-- `init_segment` on a segment of the region succeeds or changes nothing but it. -/
theorem initAt_cases (i : ℕ) :
    (¬ HeapLedger.Refused grant b.ledger (initAt grant region b i size).2.2.ledger ∧
      initAt grant region b i size =
        (true, region.setSegment i (DualStm.initSegment region.align size),
          { b with
            arrays := Function.update b.arrays i (fresh b.ledger.calls)
            ledger := b.ledger.called.called.called.called })) ∨
    ∃ segment' a' l', initAt grant region b i size =
        (false, region.setSegment i segment',
          { b with arrays := Function.update b.arrays i a', ledger := l' }) ∧
      HeapLedger.Refused grant b.ledger l' ∧ l'.calls ≤ b.ledger.calls + 4 := by
  rcases initSegment_cases grant (region.segments i) (b.arrays i) region.align size b.ledger with
    ⟨hg, heq⟩ | ⟨_, _, _, heq, href, -⟩
  · left
    have hat : initAt grant region b i size =
        (true, region.setSegment i (DualStm.initSegment region.align size),
          { b with
            arrays := Function.update b.arrays i (fresh b.ledger.calls)
            ledger := b.ledger.called.called.called.called }) := by
      rw [initAt, heq]
    refine ⟨?_, hat⟩
    rw [hat]
    rintro ⟨k, hk, hle, hno⟩
    have hk : k < b.ledger.calls + 4 := hk
    have hyes := hg (k - b.ledger.calls) (by omega)
    rw [show b.ledger.calls + (k - b.ledger.calls) = k by omega, hno] at hyes
    cases hyes
  · right
    have hle := initSegment_calls_le grant (region.segments i) (b.arrays i) region.align size
      b.ledger
    rw [heq] at hle
    exact ⟨_, _, _, by rw [initAt, heq], href, hle⟩

/-- `realloc` is called from the 128th segment on; it grows the array, or loses it. -/
theorem allocateMoreSegments_cases (grant : ℕ → Bool) (b : Blocks) (n : ℕ) :
    (∃ b', allocateMoreSegments grant n b = (true, b') ∧
      ¬ HeapLedger.Refused grant b.ledger b'.ledger ∧ b'.arrays = b.arrays ∧
      b'.self = b.self ∧ b.ledger.calls ≤ b'.ledger.calls) ∨
    allocateMoreSegments grant n b =
        (false, { b with segments := none, ledger := b.ledger.called }) ∧
      HeapLedger.Refused grant b.ledger b.ledger.called := by
  rw [allocateMoreSegments]
  split
  · by_cases hg : grant b.ledger.calls = true
    · rw [HeapLedger.alloc_of_grant hg]
      refine .inl ⟨_, rfl, ?_, rfl, rfl, ?_⟩
      · rintro ⟨k, hk, hle, hno⟩
        rw [HeapLedger.free_calls, HeapLedger.called_calls] at hk
        obtain rfl : k = b.ledger.calls := by omega
        rw [hg] at hno
        cases hno
      · rw [HeapLedger.free_calls, HeapLedger.called_calls]
        exact Nat.le_succ _
    · rw [Bool.not_eq_true] at hg
      rw [HeapLedger.alloc_of_not_grant hg]
      exact .inr ⟨rfl, b.ledger.calls, Nat.lt_succ_self _, Nat.le_refl _, hg⟩
  · exact .inl ⟨b, rfl, fun ⟨k, hk, hle, _⟩ => absurd hk (Nat.not_lt.mpr hle), rfl, rfl,
      Nat.le_refl _⟩

end

/-- The ways through `tm_alloc`: which calls of the allocator it makes, and what comes of each
of them being refused. -/
inductive Allocates (grant : ℕ → Bool) (region : Region W) (b : Blocks) (size : ℕ) :
    Outcome W → Prop where
  /-- the call reuses a freed index -/
  | reused {i : ℕ} {vals : List ℕ} (hvals : region.freeSegIndices.vals = i :: vals)
      (hno : ¬ HeapLedger.Refused grant b.ledger b.ledger.called.called.called.called) :
    Allocates grant region b size
      ⟨successAlloc, some (getVirtAddr i), (DualStm.tmAlloc region size).2,
        { b with
          arrays := Function.update b.arrays i (fresh b.ledger.calls)
          ledger := b.ledger.called.called.called.called }, false⟩
  /-- the call cannot initialise the freed segment again -/
  | reuseFailed {i : ℕ} {vals : List ℕ} {segment' : Segment W} {a' : Arrays} {l' : HeapLedger}
      (hvals : region.freeSegIndices.vals = i :: vals) (hno : HeapLedger.Refused grant b.ledger l')
      (hle : l'.calls ≤ b.ledger.calls + 4) :
    Allocates grant region b size
      ⟨nomemAlloc, none, { region with freeSegIndices := ⟨vals⟩ }.setSegment i segment',
        { b with arrays := Function.update b.arrays i a', ledger := l' }, true⟩
  /-- the call adds a segment -/
  | added {b' : Blocks} (hvals : region.freeSegIndices.vals = [])
      (hgrow : allocateMoreSegments grant (region.nSegments + 1) b = (true, b'))
      (hno : ¬ HeapLedger.Refused grant b.ledger b'.ledger.called.called.called.called) :
    Allocates grant region b size
      ⟨successAlloc, some (getVirtAddr region.nSegments), (DualStm.tmAlloc region size).2,
        { b' with
          arrays := Function.update b'.arrays region.nSegments (fresh b'.ledger.calls)
          ledger := b'.ledger.called.called.called.called }, false⟩
  /-- `realloc` fails -/
  | growFailed (hvals : region.freeSegIndices.vals = [])
      (hno : HeapLedger.Refused grant b.ledger b.ledger.called) :
    Allocates grant region b size
      ⟨nomemAlloc, none, { region with nSegments := region.nSegments + 1 },
        { b with segments := none, ledger := b.ledger.called }, true⟩
  /-- the call cannot initialise the new segment, and takes the error code for an index -/
  | addFailed {b' : Blocks} {segment' : Segment W} {a' : Arrays} {l' : HeapLedger}
      (hvals : region.freeSegIndices.vals = [])
      (hgrow : allocateMoreSegments grant (region.nSegments + 1) b = (true, b'))
      (hno : HeapLedger.Refused grant b.ledger l') (hle : l'.calls ≤ b'.ledger.calls + 4) :
    Allocates grant region b size
      ⟨successAlloc, some (getVirtAddr 2),
        { region with nSegments := region.nSegments + 1 }.setSegment region.nSegments segment',
        { b' with arrays := Function.update b'.arrays region.nSegments a', ledger := l' }, false⟩

variable {grant : ℕ → Bool} {region : Region W} {b : Blocks}

/-- Where nothing fails it is the `tm_alloc` of the region. -/
theorem Allocates.region_eq {size : ℕ} {o : Outcome W} (ha : Allocates grant region b size o)
    (hno : ¬ HeapLedger.Refused grant b.ledger o.blocks.ledger) :
    o.region = (DualStm.tmAlloc region size).2 := by
  cases ha with
  | reused => rfl
  | added => rfl
  | reuseFailed _ href _ => exact absurd href hno
  | growFailed _ href => exact absurd href hno
  | addFailed _ _ href _ => exact absurd href hno

variable (grant region b) in
theorem tmAlloc_allocates (size : ℕ) :
    Allocates grant region b size (tmAlloc grant region b size) := by
  rcases hvals : region.freeSegIndices.vals with _ | ⟨i, vals⟩
  · have hpop : pop region.freeSegIndices = (none, region.freeSegIndices) := by
      simp only [pop, hvals]
    have hregion : (DualStm.tmAlloc region size).2 =
        { region with nSegments := region.nSegments + 1 }.setSegment region.nSegments
          (DualStm.initSegment region.align size) := by
      rw [DualStm.tmAlloc, hpop]
      rfl
    rw [tmAlloc, hpop]
    rcases allocateMoreSegments_cases grant b (region.nSegments + 1) with
      ⟨b', hgrow, hno, -, -, hle⟩ | ⟨hgrow, hno⟩
    · rcases initAt_cases grant size { region with nSegments := region.nSegments + 1 } b'
        region.nSegments with ⟨hno', hat⟩ | ⟨_, _, _, hat, href, hle'⟩
      · rw [hat] at hno'
        have hadded := @Allocates.added W _ grant region b size b' hvals hgrow
          fun h => (h.split b'.ledger).elim hno hno'
        rw [hregion] at hadded
        simp only [addSegment, hgrow, hat]
        rw [if_neg (by omega)]
        exact hadded
      · simp only [addSegment, hgrow, hat]
        rw [if_neg (by decide)]
        exact .addFailed hvals hgrow (href.of_le hle) hle'
    · simp only [addSegment, hgrow]
      rw [if_pos trivial]
      exact .growFailed hvals hno
  · have hpop : pop region.freeSegIndices = (some i, ⟨vals⟩) := by
      simp only [pop, hvals]
    have hregion : (DualStm.tmAlloc region size).2 =
        { region with freeSegIndices := ⟨vals⟩ }.setSegment i
          (DualStm.initSegment region.align size) := by
      rw [DualStm.tmAlloc, hpop]
    rw [tmAlloc, hpop]
    rcases initAt_cases grant size { region with freeSegIndices := ⟨vals⟩ } b i with
      ⟨hno, hat⟩ | ⟨_, _, _, hat, href, hle⟩
    · rw [hat] at hno
      have hreused := @Allocates.reused W _ grant region b size i vals hvals hno
      rw [hregion] at hreused
      simp only [hat]
      exact hreused
    · simp only [hat]
      exact .reuseFailed hvals href hle

/-! ## What becomes of the blocks

A granted call adds a block, a refused one none, and `free` takes one away. What a region holds
afterwards is what it held and the blocks of the new segment. -/

omit [Zero W] in
/-- Four calls that are all granted add the four arrays of a segment to what is held. -/
theorem holds_fresh {l : HeapLedger} {held : List ℕ} (hl : HeapLedger.Holds grant l held)
    (hno : ¬ HeapLedger.Refused grant l l.called.called.called.called) :
    HeapLedger.Holds grant l.called.called.called.called ((fresh l.calls).blocks ++ held) := by
  have hg : ∀ k < 4, grant (l.calls + k) = true := fun k hk =>
    HeapLedger.grant_of_not_refused hno (Nat.add_lt_add_left hk _)
  refine (((hl.granted (hg 0 (by decide))).granted (hg 1 (by decide))).granted
    (hg 2 (by decide))).granted (hg 3 (by decide)) |>.perm ?_
  exact (List.reverse_perm [l.calls + 3, l.calls + 2, l.calls + 1, l.calls]).symm.append_right held

omit [Zero W] in
/-- `realloc` takes back the array that it has copied. -/
theorem allocateMoreSegments_holds {n : ℕ} {b' : Blocks} {front back : List ℕ}
    (hgrow : allocateMoreSegments grant n b = (true, b'))
    (hl : HeapLedger.Holds grant b.ledger (front ++ (b.segments.toList ++ back))) :
    HeapLedger.Holds grant b'.ledger (front ++ (b'.segments.toList ++ back)) := by
  rw [allocateMoreSegments] at hgrow
  split at hgrow
  · by_cases hg : grant b.ledger.calls = true
    · rw [HeapLedger.alloc_of_grant hg] at hgrow
      obtain rfl := (Prod.mk.inj hgrow).2
      refine (hl.granted hg).perm ?_ |>.free_toList
      calc (b.ledger.calls :: (front ++ (b.segments.toList ++ back))).Perm
            (front ++ b.ledger.calls :: (b.segments.toList ++ back)) := List.perm_middle.symm
        _ |>.Perm (front ++ (b.segments.toList ++ b.ledger.calls :: back)) :=
            List.perm_middle.symm.append_left _
        _ |>.Perm (b.segments.toList ++ (front ++ b.ledger.calls :: back)) := by
            rw [← List.append_assoc, ← List.append_assoc]
            exact List.perm_append_comm.append_right _
    · rw [Bool.not_eq_true] at hg
      rw [HeapLedger.alloc_of_not_grant hg] at hgrow
      cases hgrow
  · obtain rfl := (Prod.mk.inj hgrow).2
    exact hl

omit [Zero W] in
/-- `allocate_more_segments` changes the array of segments and nothing else of the region's
blocks. -/
theorem allocateMoreSegments_kept {n : ℕ} {b' : Blocks}
    (hgrow : allocateMoreSegments grant n b = (true, b')) (harray : b.segments ≠ none) :
    b'.arrays = b.arrays ∧ b'.self = b.self ∧ b'.segments ≠ none ∧
      b.ledger.calls ≤ b'.ledger.calls := by
  rw [allocateMoreSegments] at hgrow
  split at hgrow
  · by_cases hg : grant b.ledger.calls = true
    · rw [HeapLedger.alloc_of_grant hg] at hgrow
      obtain rfl := (Prod.mk.inj hgrow).2
      refine ⟨rfl, rfl, Option.some_ne_none _, ?_⟩
      rw [HeapLedger.free_calls]
      exact Nat.le_succ _
    · rw [Bool.not_eq_true] at hg
      rw [HeapLedger.alloc_of_not_grant hg] at hgrow
      cases hgrow
  · obtain rfl := (Prod.mk.inj hgrow).2
    exact ⟨rfl, rfl, harray, Nat.le_refl _⟩

/-! ## How many calls there are

Whether a call of the allocator is refused is a statement about its number, so the number of
the calls made before has to be known. -/

/-- The calls of a `tm_alloc` that meets no failure. -/
def tmAllocCalls (region : Region W) : ℕ :=
  if region.freeSegIndices.vals = [] ∧ N_INIT_SEGMENTS ≤ region.nSegments + 1 then 5 else 4

variable (grant b) in
omit [Zero W] in
theorem allocateMoreSegments_calls (hvals : region.freeSegIndices.vals = []) :
    (allocateMoreSegments grant (region.nSegments + 1) b).2.ledger.calls + 4 =
      b.ledger.calls + tmAllocCalls region := by
  rw [allocateMoreSegments, tmAllocCalls]
  by_cases hn : N_INIT_SEGMENTS ≤ region.nSegments + 1
  · rw [if_pos hn, if_pos ⟨hvals, hn⟩]
    by_cases hg : grant b.ledger.calls = true
    · rw [HeapLedger.alloc_of_grant hg]
      simp only [HeapLedger.free_calls, HeapLedger.called_calls]
    · rw [Bool.not_eq_true] at hg
      rw [HeapLedger.alloc_of_not_grant hg]
      simp only [HeapLedger.called_calls]
  · rw [if_neg hn, if_neg fun h => hn h.2]

omit [Zero W] in
theorem tmAllocCalls_of_cons {i : ℕ} {vals : List ℕ}
    (hvals : region.freeSegIndices.vals = i :: vals) :
    tmAllocCalls region = 4 := by
  rw [tmAllocCalls, if_neg]
  rw [hvals]
  exact fun h => List.cons_ne_nil _ _ h.1

theorem Allocates.calls_le {size : ℕ} {o : Outcome W} (ha : Allocates grant region b size o) :
    o.blocks.ledger.calls ≤ b.ledger.calls + tmAllocCalls region := by
  cases ha with
  | reused hvals _ =>
    rw [tmAllocCalls_of_cons hvals]
    exact Nat.le_refl _
  | reuseFailed hvals _ hle => rwa [tmAllocCalls_of_cons hvals]
  | added hvals hgrow _ =>
    rw [← allocateMoreSegments_calls grant b hvals, hgrow]
    exact Nat.le_refl _
  | growFailed hvals _ =>
    rw [tmAllocCalls]
    split <;> exact Nat.add_le_add_left (by decide) _
  | addFailed hvals hgrow _ hle => rwa [← allocateMoreSegments_calls grant b hvals, hgrow]

/-- A call fails when one of those it would make without a failure is not granted. -/
theorem Allocates.refused_iff {size : ℕ} {o : Outcome W} (ha : Allocates grant region b size o) :
    HeapLedger.Refused grant b.ledger o.blocks.ledger ↔
      ∃ k < tmAllocCalls region, grant (b.ledger.calls + k) = false := by
  constructor
  · rintro ⟨k, hk, hle, hno⟩
    have hcalls := ha.calls_le
    refine ⟨k - b.ledger.calls, by omega, ?_⟩
    rwa [Nat.add_sub_cancel' hle]
  · rintro ⟨k, hk, hno⟩
    cases ha with
    | reused hvals _ =>
      rw [tmAllocCalls_of_cons hvals] at hk
      exact ⟨_, Nat.add_lt_add_left hk _, Nat.le_add_right _ _, hno⟩
    | reuseFailed _ href _ => exact href
    | added hvals hgrow _ =>
      have hcalls := allocateMoreSegments_calls grant b hvals
      simp only [hgrow] at hcalls
      refine ⟨_, ?_, Nat.le_add_right _ _, hno⟩
      simp only [HeapLedger.called_calls]
      omega
    | growFailed _ href => exact href
    | addFailed _ _ href _ => exact href

/-! ## What a failure leaves behind

A failed `init_segment` of `add_segment` comes back as `nomem_alloc`, which `tm_alloc` takes
for an index. The other failures return with `global_lock` held, and the index is gone. -/

/-- `tm_alloc` failed and changed nothing. -/
structure FailsCleanly (region : Region W) (b : Blocks) (o : Outcome W) : Prop where
  /-- the status says that there is no memory -/
  code : o.code = nomemAlloc
  /-- nothing is handed out -/
  target : o.target = none
  /-- no segment comes -/
  nSegments : o.region.nSegments = region.nSegments
  /-- the segments are as they were -/
  segments : o.region.segments = region.segments ∧ o.blocks.segments = b.segments ∧
    o.blocks.arrays = b.arrays
  /-- the free indices are as they were -/
  freeSegIndices : o.region.freeSegIndices = region.freeSegIndices

/-- A failure loses a free index or adds a segment. -/
theorem Allocates.not_failsCleanly {size : ℕ} {o : Outcome W}
    (ha : Allocates grant region b size o) :
    ¬ FailsCleanly region b o := by
  have hcode : successAlloc ≠ nomemAlloc := by decide
  intro hf
  cases ha with
  | reused => exact hcode hf.code
  | reuseFailed hvals _ _ =>
    have hstack := congrArg Stack.vals hf.freeSegIndices
    rw [hvals] at hstack
    exact List.cons_ne_self _ _ hstack.symm
  | added => exact hcode hf.code
  | growFailed => exact absurd hf.nSegments (Nat.succ_ne_self _)
  | addFailed => exact hcode hf.code

/-- The code fails cleanly only where it does not fail. -/
theorem tm_alloc_fails_cleanly_iff (size : ℕ) :
    (HeapLedger.Refused grant b.ledger (tmAlloc grant region b size).blocks.ledger →
        FailsCleanly region b (tmAlloc grant region b size)) ↔
      ∀ k < tmAllocCalls region, grant (b.ledger.calls + k) = true := by
  constructor
  · intro h k hk
    by_contra hno
    rw [Bool.not_eq_true] at hno
    exact (tmAlloc_allocates grant region b size).not_failsCleanly
      (h ((tmAlloc_allocates grant region b size).refused_iff.mpr ⟨k, hk, hno⟩))
  · intro hall href
    obtain ⟨k, hk, hno⟩ := (tmAlloc_allocates grant region b size).refused_iff.mp href
    rw [hall k hk] at hno
    cases hno

/-- The `calloc` for the second segment fails: `tm_alloc` succeeds and hands out the third. -/
theorem failed_tm_alloc_succeeds :
    ∃ (region : Region ℤ) (b : Blocks) (l : HeapLedger),
      tmCreate (fun k => decide (k < 6)) true true 64 8 (fun _ => DualStm.initSegment 8 0)
        (fun _ => ⟨none, none, none, none⟩) (fun _ => false) ⟨0, []⟩ = (some (region, b), l) ∧
      HeapLedger.Refused (fun k => decide (k < 6)) b.ledger
        (tmAlloc (fun k => decide (k < 6)) region b 64).blocks.ledger ∧
      (tmAlloc (fun k => decide (k < 6)) region b 64).code = successAlloc ∧
      (tmAlloc (fun k => decide (k < 6)) region b 64).target = some (getVirtAddr 2) ∧
      (tmAlloc (fun k => decide (k < 6)) region b 64).region.nSegments = 2 ∧
      ¬ FailsCleanly region b (tmAlloc (fun k => decide (k < 6)) region b 64) := by
  refine ⟨_, _, _, rfl, by decide +kernel, by decide +kernel, by decide +kernel, by decide +kernel,
    ?_⟩
  intro hf
  exact absurd hf.code (by decide +kernel)

end Blocks

end DualStm
