import DualStm.Gate
import DualStm.Region

/-!
# The transactional memory as a system of threads

The functions of `tm.h` called by any number of threads on one region. A step is
what the source does atomically: a lock-held section of the batcher, one
`read_word` or `write_word` of the loops of `tm_read` and `tm_write`, one word
or one segment of the loop of `abort_transaction_tx`, a `tm_alloc`, a `tm_free`.
Each step emits an event; a history of events is all the theorems talk about.

A thread is its position in the gate together with its `Call`, the library
function it is inside and the locals of that function. What a client is bound to
(no access outside a segment, a read-only transaction only reads) is a guard.

A step is one in which the source does what it sets out to do. What it may do beyond that
is in `Raw`, whose sound steps are those of this file: the loops keep a `segment_t *` into an
array that `realloc` may release, the arrays are stored to past their ends, offsets are
`int`s, and a wait ends by itself. An allocation that fails is in `Allocation`, `HeapBalance`
and `Statements`, and in none of these are the accesses of one step seen in parts.

`step` is the executable transition function. `Step` is the same thing as a
relation, one constructor for each thing that can happen, guards included;
`step_cases` leads from the first to the second and nothing below unfolds `step`.
-/

namespace DualStm

/-- The name of a transaction: its id is unique within its epoch. -/
structure Txn where
  /-- the epoch it runs in -/
  epoch : ℕ
  /-- its `tx_t` -/
  id : ℕ
  deriving DecidableEq

/-- A word of the region: its segment and its index there. -/
abbrev Loc := ℕ × ℕ

/-- The library function a thread is inside, with its locals. The `segment_t *` of the loops
is the index of its segment; which array of segments the pointer is into is in `Raw`. -/
inductive Call (W : Type) where
  /-- none -/
  | rest
  /-- `tm_begin`, its flag not stored yet -/
  | beginning
  /-- the loop of `tm_read`: `seg`, `source_start_index`, `source_word_idx`, the
  bound of the loop, `target_word_addr` as an offset, and what was copied where -/
  | reading (seg start idx : ℕ) (stop : ℤ) (off : ℕ) (target : List (ℕ × W))
  /-- the loop of `tm_write`: `segment`, `start_target_word_index`, `target_idx`,
  the bound of the loop, the source buffer as the words at its byte offsets, and
  `word_source` as an offset -/
  | writing (seg start idx : ℕ) (stop : ℤ) (source : ℕ → W) (off : ℕ)
  /-- the loops of `abort_transaction_tx`, at word `j` of segment `i` -/
  | aborting (i j : ℕ)

/-- A thread, apart from its position in the gate. -/
structure Thread (W : Type) where
  /-- the `is_ro` it passed to its last `tm_begin` -/
  isRo : Bool
  /-- what it is doing -/
  call : Call W

/-- The state of the region, the batcher and the threads. -/
structure State (τ W : Type) where
  /-- the shared region -/
  region : Region W
  /-- the batcher and the threads around it -/
  gate : Gate τ
  /-- the threads -/
  thread : τ → Thread W

/-- What the threads may do next: a call, a section that holds a lock, or a turn of a loop. -/
inductive Action (τ W : Type) where
  /-- call `tm_begin` -/
  | tmBegin (t : τ) (isRo : Bool)
  /-- the first lock-held section of `enter_batcher` -/
  | enter (t : τ)
  /-- the second one, after the broadcast -/
  | wake (t : τ)
  /-- store the flag and return from `tm_begin` -/
  | setFlag (t : τ)
  /-- call `tm_read` -/
  | tmRead (t : τ) (source size : ℕ)
  /-- call `tm_write` -/
  | tmWrite (t : τ) (source : ℕ → W) (size target : ℕ)
  /-- one turn of the loop of the pending `tm_read` or `tm_write`, or its return -/
  | word (t : τ)
  /-- `tm_alloc` -/
  | tmAlloc (t : τ) (size : ℕ)
  /-- `tm_free` -/
  | tmFree (t : τ) (target : ℕ)
  /-- one turn of the loops of `abort_transaction_tx`, or its leave -/
  | abort (t : τ)
  /-- `tm_end` -/
  | tmEnd (t : τ)

/-- What a step did, as far as the theorems speak of it. -/
inductive Event (τ W : Type) where
  /-- a thread called `tm_begin` -/
  | called (t : τ) (isRo : Bool)
  /-- it blocks in the batcher -/
  | waiting (t : τ)
  /-- it got its id -/
  | began (t : τ) (T : Txn)
  /-- `read_word` succeeded -/
  | read (T : Txn) (ℓ : Loc) (v : W)
  /-- `write_word` succeeded -/
  | wrote (T : Txn) (ℓ : Loc) (v : W)
  /-- `read_word` or `write_word` returned `abort_alloc` -/
  | refused (T : Txn) (ℓ : Loc)
  /-- the abort loop passed a word -/
  | released (T : Txn) (ℓ : Loc)
  /-- `tm_read` returned `true`; what it copied to which offsets -/
  | readDone (T : Txn) (seg start : ℕ) (target : List (ℕ × W))
  /-- `tm_write` returned `true` -/
  | writeDone (T : Txn) (seg start : ℕ)
  /-- `tm_alloc` handed out a segment -/
  | alloced (T : Txn) (seg : ℕ)
  /-- `tm_free` returned `true` -/
  | freed (T : Txn) (seg : ℕ)
  /-- `tm_free` had to abort -/
  | freeRefused (T : Txn) (seg : ℕ)
  /-- the transaction left through `tm_end`; `last` when that committed the epoch -/
  | ended (T : Txn) (last : Bool)
  /-- the transaction left through its abort -/
  | aborted (T : Txn) (last : Bool)
  /-- nothing to be seen from outside -/
  | silent
  deriving DecidableEq

namespace State

variable {τ W : Type} [DecidableEq τ]

/-- Where a thread stands in the gate. -/
abbrev client (s : State τ W) (t : τ) : Client := s.gate.client t

/-- The library function that a thread is inside, with its locals. -/
abbrev call (s : State τ W) (t : τ) : Call W := (s.thread t).call

/-- The epoch that the batcher is in. -/
abbrev epoch (s : State τ W) : ℕ := s.gate.batcher.curEpoch

/-- The transaction that has this id in the current epoch. -/
abbrev txn (s : State τ W) (id : ℕ) : Txn := ⟨s.epoch, id⟩

/-- The location is that of a word inside a segment in use. -/
def Valid (s : State τ W) (ℓ : Loc) : Prop :=
  ℓ.1 < s.region.nSegments ∧ ℓ.2 < (s.region.segments ℓ.1).nWords

instance (s : State τ W) (ℓ : Loc) : Decidable (s.Valid ℓ) :=
  inferInstanceAs (Decidable (_ ∧ _))

/-- The committed value of a word, all zero outside the segments in use. -/
def committed [Zero W] (s : State τ W) (ℓ : Loc) : W :=
  if s.Valid ℓ then readReadOnlyCopy ℓ.2 (s.region.segments ℓ.1) else 0

/-- Move on to another point of the library. -/
def setCall (s : State τ W) (t : τ) (c : Call W) : State τ W :=
  { s with thread := Function.update s.thread t { s.thread t with call := c } }

/-- The state with another gate. -/
def setGate (s : State τ W) (g : Gate τ) : State τ W := { s with gate := g }

/-- The state with another region. -/
def setRegion (s : State τ W) (r : Region W) : State τ W := { s with region := r }

/-- `leave_batcher`, the commit of the region included. There is no such step when a push of
the commit has no room on the stack; `Raw` has the one that the source then takes. -/
def leave (s : State τ W) (t : τ) (event : Txn → Bool → Event τ W) :
    Option (State τ W × Event τ W) :=
  match s.client t with
  | .inside id =>
    let s' := (s.setCall t .rest).setGate (s.gate.afterLeave t)
    if (leaveBatcher s.gate.batcher).2 = true then
      (commitTranscationsInEpoch s.region).map fun r => (s'.setRegion r, event (s.txn id) true)
    else some (s', event (s.txn id) false)
  | _ => none

/-- The range of a `tm_read` or `tm_write`: the segment, the first index and the
bound of the loop. `none` when the client steps outside the segment. The bound is an `int`
as in the source; that `align` is one too is left to `Raw`, where an access of a segment
with a larger `align` may go anywhere. -/
def range (s : State τ W) (addr size : ℕ) : Option (ℕ × ℕ × ℤ) :=
  let segId := extractSegIdFromVirtAddr addr
  let seg := s.region.segments segId.toNat
  let start := extractWordIndexFromVirtAddr addr seg.align
  if 0 ≤ segId ∧ segId.toNat < s.region.nSegments ∧
      start + size / s.region.align ≤ seg.nWords then
    some (segId.toNat, start, toInt32 (start + toInt32 (size / s.region.align : ℕ)))
  else none

/-- One turn of the loop of `tm_read` or `tm_write`, on the segment that the region has at the
index. The source has taken the address of that segment before the loop; `Raw.word` is the turn
through this pointer. -/
def word (s : State τ W) (t : τ) (id : ℕ) : Option (State τ W × Event τ W) :=
  match s.call t with
  | .reading seg start idx stop off target =>
    let segment := s.region.segments seg
    if (idx : ℤ) < stop then
      match readWord segment id (s.region.isRoFlags id) idx with
      | (some v, segment') =>
        some ((s.setRegion (s.region.setSegment seg segment')).setCall t
          (.reading seg start (idx + 1) stop (off + segment.align) (target ++ [(off, v)])),
          .read (s.txn id) (seg, idx) v)
      | (none, segment') =>
        some ((s.setRegion (s.region.setSegment seg segment')).setCall t (.aborting 0 0),
          .refused (s.txn id) (seg, idx))
    else some (s.setCall t .rest, .readDone (s.txn id) seg start target)
  | .writing seg start idx stop source off =>
    let segment := s.region.segments seg
    if (idx : ℤ) < stop then
      match writeWord segment id idx (source off) with
      | some segment' =>
        some ((s.setRegion (s.region.setSegment seg segment')).setCall t
          (.writing seg start (idx + 1) stop source (off + 1)),
          .wrote (s.txn id) (seg, idx) (source off))
      | none => some (s.setCall t (.aborting 0 0), .refused (s.txn id) (seg, idx))
    else some (s.setCall t .rest, .writeDone (s.txn id) seg start)
  | _ => none

/-- One turn of the loops of `abort_transaction_tx`; past the last segment, the
leave. `Raw.abort` is the turn through the pointer that the source keeps for a segment. -/
def abort (s : State τ W) (t : τ) (id i j : ℕ) : Option (State τ W × Event τ W) :=
  if i < s.region.nSegments then
    let segment := s.region.segments i
    if j < segment.nWords then
      some ((s.setRegion (s.region.setSegment i (releaseWord segment id j))).setCall t
        (.aborting i (j + 1)), .released (s.txn id) (i, j))
    else
      some ((s.setRegion (undoFree s.region id i)).setCall t (.aborting (i + 1) 0), .silent)
  else s.leave t .aborted

/-- The transition function. A thread is woken by the broadcast of a commit only, and a
`tm_alloc` succeeds. -/
def step [Zero W] (s : State τ W) : Action τ W → Option (State τ W × Event τ W)
  | .tmBegin t isRo =>
    match s.client t, s.call t with
    | .outside, .rest =>
      some ({ s with thread := Function.update s.thread t ⟨isRo, .beginning⟩ }, .called t isRo)
    | _, _ => none
  | .enter t =>
    match s.client t, s.call t with
    | .outside, .beginning =>
      match enterBatcher s.gate.batcher with
      | (b, true) =>
        some (s.setGate (Gate.letIn b s.gate.client t), .began t (s.txn (takeId b).1))
      | (b, false) => some (s.setGate (Gate.wait b s.gate.client t), .waiting t)
    | _, _ => none
  | .wake t =>
    match s.client t with
    | .woken _ =>
      some (s.setGate (Gate.letIn s.gate.batcher s.gate.client t),
        .began t (s.txn (takeId s.gate.batcher).1))
    | _ => none
  | .setFlag t =>
    match s.client t, s.call t with
    | .inside id, .beginning =>
      some ((s.setRegion { s.region with
        isRoFlags := Function.update s.region.isRoFlags id (s.thread t).isRo }).setCall t .rest,
        .silent)
    | _, _ => none
  | .tmRead t source size =>
    match s.client t, s.call t, s.range source size with
    | .inside _, .rest, some (seg, start, stop) =>
      some (s.setCall t (.reading seg start start stop 0 []), .silent)
    | _, _, _ => none
  | .tmWrite t source size target =>
    match s.client t, s.call t, s.range target size, (s.thread t).isRo with
    | .inside _, .rest, some (seg, start, stop), false =>
      some (s.setCall t (.writing seg start start stop source 0), .silent)
    | _, _, _, _ => none
  | .word t =>
    match s.client t with
    | .inside id => s.word t id
    | _ => none
  | .tmAlloc t size =>
    match s.client t, s.call t, (s.thread t).isRo with
    | .inside id, .rest, false =>
      some (s.setRegion (tmAlloc s.region size).2,
        .alloced (s.txn id) (tmAlloc s.region size).1)
    | _, _, _ => none
  | .tmFree t target =>
    match s.client t, s.call t, (s.thread t).isRo with
    | .inside id, .rest, false =>
      let segId := extractSegIdFromVirtAddr target
      if 0 ≤ segId ∧ segId.toNat < s.region.nSegments then
        match tmFree s.region id segId.toNat with
        | some r => some (s.setRegion r, .freed (s.txn id) segId.toNat)
        | none => some (s.setCall t (.aborting 0 0), .freeRefused (s.txn id) segId.toNat)
      else none
    | _, _, _ => none
  | .abort t =>
    match s.client t, s.call t with
    | .inside id, .aborting i j => s.abort t id i j
    | _, _ => none
  | .tmEnd t =>
    match s.call t with
    | .rest => s.leave t .ended
    | _ => none

end State

/-! ## The parts of an updated state

A step updates the gate, the region or one thread. What the other parts are after it is true
by definition. -/

namespace State

section

variable {τ W : Type} (s : State τ W) (g : Gate τ) (r : Region W)

@[simp] theorem setGate_region : (s.setGate g).region = s.region := rfl
@[simp] theorem setGate_gate : (s.setGate g).gate = g := rfl
@[simp] theorem setGate_thread : (s.setGate g).thread = s.thread := rfl
@[simp] theorem setRegion_region : (s.setRegion r).region = r := rfl
@[simp] theorem setRegion_gate : (s.setRegion r).gate = s.gate := rfl
@[simp] theorem setRegion_thread : (s.setRegion r).thread = s.thread := rfl

end

section

variable {τ W : Type} [DecidableEq τ] (s : State τ W) (t u : τ) (c : Call W)

@[simp] theorem setCall_region : (s.setCall t c).region = s.region := rfl
@[simp] theorem setCall_gate : (s.setCall t c).gate = s.gate := rfl

@[simp] theorem setCall_call_self : (s.setCall t c).call t = c := by
  simp [setCall, call]

theorem setCall_call : (s.setCall t c).call u = if u = t then c else s.call u := by
  by_cases hu : u = t
  · rw [if_pos hu, hu]
    exact setCall_call_self ..
  · simp [setCall, call, Function.update_of_ne hu, if_neg hu]

theorem setCall_thread_ne (hu : u ≠ t) : (s.setCall t c).thread u = s.thread u := by
  simp [setCall, Function.update_of_ne hu]

@[simp] theorem setCall_isRo : ((s.setCall t c).thread u).isRo = (s.thread u).isRo := by
  obtain rfl | hu := eq_or_ne u t
  · simp [setCall]
  · rw [setCall_thread_ne _ _ _ _ hu]

end

end State

/-! ## The steps, one by one

`Step` has a constructor for each thing that can happen, and `step_cases` sorts the steps of the
machine by what they do. Every invariant of the library is an induction over its runs in which
the step is taken apart in this way. -/

variable {τ W : Type} [DecidableEq τ]

/-- What can happen, with its guards and the next state. -/
inductive Step [Zero W] (s : State τ W) : Event τ W → State τ W → Prop where
  | called {t : τ} {isRo : Bool} (hc : s.client t = .outside) (hr : s.call t = .rest) :
    Step s (.called t isRo)
      { s with thread := Function.update s.thread t ⟨isRo, .beginning⟩ }
  | opened {t : τ} (hc : s.client t = .outside) (hr : s.call t = .beginning)
      (hn : s.gate.batcher.nRemaining = 0) :
    Step s (.began t (s.txn s.gate.batcher.txIdGenerator))
      (s.setGate (Gate.letIn { s.gate.batcher with nInEpoch := 1, nRemaining := 1 }
        s.gate.client t))
  | waiting {t : τ} (hc : s.client t = .outside) (hr : s.call t = .beginning)
      (hn : s.gate.batcher.nRemaining ≠ 0) :
    Step s (.waiting t)
      (s.setGate (Gate.wait { s.gate.batcher with nBlocked := s.gate.batcher.nBlocked + 1 }
        s.gate.client t))
  | woke {t : τ} {since : ℕ} (hc : s.client t = .woken since) :
    Step s (.began t (s.txn s.gate.batcher.txIdGenerator))
      (s.setGate (Gate.letIn s.gate.batcher s.gate.client t))
  | flagged {t : τ} {id : ℕ} (hc : s.client t = .inside id) (hr : s.call t = .beginning) :
    Step s .silent
      ((s.setRegion { s.region with
        isRoFlags := Function.update s.region.isRoFlags id (s.thread t).isRo }).setCall t .rest)
  | reading {t : τ} {id source size seg start : ℕ} {stop : ℤ} (hc : s.client t = .inside id)
      (hr : s.call t = .rest) (hrange : s.range source size = some (seg, start, stop)) :
    Step s .silent (s.setCall t (.reading seg start start stop 0 []))
  | writing {t : τ} {id size target seg start : ℕ} {source : ℕ → W} {stop : ℤ}
      (hc : s.client t = .inside id) (hr : s.call t = .rest)
      (hrange : s.range target size = some (seg, start, stop)) (hro : (s.thread t).isRo = false) :
    Step s .silent (s.setCall t (.writing seg start start stop source 0))
  | read {t : τ} {id seg start idx : ℕ} {stop : ℤ} {off : ℕ} {target : List (ℕ × W)} {v : W}
      (hc : s.client t = .inside id) (hr : s.call t = .reading seg start idx stop off target)
      (hidx : (idx : ℤ) < stop)
      (hv : (readWord (s.region.segments seg) id (s.region.isRoFlags id) idx).1 = some v) :
    Step s (.read (s.txn id) (seg, idx) v)
      ((s.setRegion (s.region.setSegment seg
        (readWord (s.region.segments seg) id (s.region.isRoFlags id) idx).2)).setCall t
        (.reading seg start (idx + 1) stop (off + (s.region.segments seg).align)
          (target ++ [(off, v)])))
  | readRefused {t : τ} {id seg start idx : ℕ} {stop : ℤ} {off : ℕ} {target : List (ℕ × W)}
      (hc : s.client t = .inside id) (hr : s.call t = .reading seg start idx stop off target)
      (hidx : (idx : ℤ) < stop)
      (hv : (readWord (s.region.segments seg) id (s.region.isRoFlags id) idx).1 = none) :
    Step s (.refused (s.txn id) (seg, idx))
      ((s.setRegion (s.region.setSegment seg
        (readWord (s.region.segments seg) id (s.region.isRoFlags id) idx).2)).setCall t
        (.aborting 0 0))
  | readDone {t : τ} {id seg start idx : ℕ} {stop : ℤ} {off : ℕ} {target : List (ℕ × W)}
      (hc : s.client t = .inside id) (hr : s.call t = .reading seg start idx stop off target)
      (hidx : ¬ (idx : ℤ) < stop) :
    Step s (.readDone (s.txn id) seg start target) (s.setCall t .rest)
  | wrote {t : τ} {id seg start idx : ℕ} {stop : ℤ} {source : ℕ → W} {off : ℕ}
      {segment' : Segment W} (hc : s.client t = .inside id)
      (hr : s.call t = .writing seg start idx stop source off) (hidx : (idx : ℤ) < stop)
      (hw : writeWord (s.region.segments seg) id idx (source off) = some segment') :
    Step s (.wrote (s.txn id) (seg, idx) (source off))
      ((s.setRegion (s.region.setSegment seg segment')).setCall t
        (.writing seg start (idx + 1) stop source (off + 1)))
  | writeRefused {t : τ} {id seg start idx : ℕ} {stop : ℤ} {source : ℕ → W} {off : ℕ}
      (hc : s.client t = .inside id) (hr : s.call t = .writing seg start idx stop source off)
      (hidx : (idx : ℤ) < stop)
      (hw : writeWord (s.region.segments seg) id idx (source off) = none) :
    Step s (.refused (s.txn id) (seg, idx)) (s.setCall t (.aborting 0 0))
  | writeDone {t : τ} {id seg start idx : ℕ} {stop : ℤ} {source : ℕ → W} {off : ℕ}
      (hc : s.client t = .inside id) (hr : s.call t = .writing seg start idx stop source off)
      (hidx : ¬ (idx : ℤ) < stop) :
    Step s (.writeDone (s.txn id) seg start) (s.setCall t .rest)
  | alloced {t : τ} {id size : ℕ} (hc : s.client t = .inside id) (hr : s.call t = .rest)
      (hro : (s.thread t).isRo = false) :
    Step s (.alloced (s.txn id) (tmAlloc s.region size).1)
      (s.setRegion (tmAlloc s.region size).2)
  | freed {t : τ} {id seg : ℕ} {r : Region W} (hc : s.client t = .inside id)
      (hr : s.call t = .rest) (hro : (s.thread t).isRo = false)
      (hseg : seg < s.region.nSegments) (hf : tmFree s.region id seg = some r) :
    Step s (.freed (s.txn id) seg) (s.setRegion r)
  | freeRefused {t : τ} {id seg : ℕ} (hc : s.client t = .inside id)
      (hr : s.call t = .rest) (hro : (s.thread t).isRo = false)
      (hseg : seg < s.region.nSegments) (hf : tmFree s.region id seg = none) :
    Step s (.freeRefused (s.txn id) seg) (s.setCall t (.aborting 0 0))
  | released {t : τ} {id i j : ℕ} (hc : s.client t = .inside id)
      (hr : s.call t = .aborting i j) (hi : i < s.region.nSegments)
      (hj : j < (s.region.segments i).nWords) :
    Step s (.released (s.txn id) (i, j))
      ((s.setRegion (s.region.setSegment i (releaseWord (s.region.segments i) id j))).setCall t
        (.aborting i (j + 1)))
  | undone {t : τ} {id i j : ℕ} (hc : s.client t = .inside id)
      (hr : s.call t = .aborting i j) (hi : i < s.region.nSegments)
      (hj : ¬ j < (s.region.segments i).nWords) :
    Step s .silent ((s.setRegion (undoFree s.region id i)).setCall t (.aborting (i + 1) 0))
  | left {t : τ} {id : ℕ} {fin : Bool} (hc : s.client t = .inside id)
      (hr : if fin = true then s.call t = .rest else
        ∃ i j, s.call t = .aborting i j ∧ ¬ i < s.region.nSegments)
      (hn : s.gate.batcher.nRemaining ≠ 1) :
    Step s (if fin = true then .ended (s.txn id) false else .aborted (s.txn id) false)
      ((s.setCall t .rest).setGate (s.gate.afterLeave t))
  | closed {t : τ} {id : ℕ} {fin : Bool} {r : Region W} (hc : s.client t = .inside id)
      (hr : if fin = true then s.call t = .rest else
        ∃ i j, s.call t = .aborting i j ∧ ¬ i < s.region.nSegments)
      (hn : s.gate.batcher.nRemaining = 1)
      (hcommit : commitTranscationsInEpoch s.region = some r) :
    Step s (if fin = true then .ended (s.txn id) true else .aborted (s.txn id) true)
      (((s.setCall t .rest).setGate (s.gate.afterLeave t)).setRegion r)

theorem leave_cases [Zero W] {s s' : State τ W} {t : τ} {e : Event τ W} (fin : Bool)
    (hr : if fin = true then s.call t = .rest else
      ∃ i j, s.call t = .aborting i j ∧ ¬ i < s.region.nSegments)
    (hs : s.leave t (if fin = true then .ended else .aborted) = some (s', e)) :
    Step s e s' := by
  unfold State.leave at hs
  split at hs
  · rename_i id hc
    simp only at hs
    split at hs
    · rename_i hl
      rw [Option.map_eq_some_iff] at hs
      obtain ⟨r, hcommit, he⟩ := hs
      obtain ⟨rfl, rfl⟩ := Prod.mk.inj he
      have := Step.closed hc hr (leaveBatcher_snd.mp hl) hcommit
      cases fin <;> exact this
    · rename_i hl
      obtain ⟨rfl, rfl⟩ := Prod.mk.inj (Option.some.inj hs)
      have := Step.left hc hr fun hn => hl (leaveBatcher_snd.mpr hn)
      cases fin <;> exact this
  · cases hs

section

variable [Zero W] {s s' : State τ W} {t : τ} {e : Event τ W} {id : ℕ}

/-- A lock-held section of `enter_batcher` lets the thread in, or makes it wait. -/
theorem enter_cases (hs : s.step (.enter t) = some (s', e)) : Step s e s' := by
  simp only [State.step, enterBatcher] at hs
  split at hs
  · rename_i hc hr
    by_cases hn : s.gate.batcher.nRemaining = 0
    · simp only [if_pos hn] at hs
      obtain ⟨rfl, rfl⟩ := Prod.mk.inj (Option.some.inj hs)
      exact .opened hc hr hn
    · simp only [if_neg hn] at hs
      obtain ⟨rfl, rfl⟩ := Prod.mk.inj (Option.some.inj hs)
      exact .waiting hc hr hn
  · cases hs

/-- A turn of the loop of `tm_read` reads a word, is refused one, or is past the last. -/
theorem reading_cases {seg start idx off : ℕ} {stop : ℤ} {target : List (ℕ × W)}
    (hc : s.client t = .inside id) (hr : s.call t = .reading seg start idx stop off target)
    (hs : s.word t id = some (s', e)) : Step s e s' := by
  simp only [State.word, hr] at hs
  split at hs
  · rename_i hidx
    split at hs
    · rename_i v segment' hv
      obtain ⟨rfl, rfl⟩ := Prod.mk.inj (Option.some.inj hs)
      have := Step.read hc hr hidx (by rw [hv])
      rwa [hv] at this
    · rename_i segment' hv
      obtain ⟨rfl, rfl⟩ := Prod.mk.inj (Option.some.inj hs)
      have := Step.readRefused hc hr hidx (by rw [hv])
      rwa [hv] at this
  · rename_i hidx
    obtain ⟨rfl, rfl⟩ := Prod.mk.inj (Option.some.inj hs)
    exact .readDone hc hr hidx

/-- A turn of the loop of `tm_write` writes a word, is refused one, or is past the last. -/
theorem writing_cases {seg start idx off : ℕ} {stop : ℤ} {source : ℕ → W}
    (hc : s.client t = .inside id) (hr : s.call t = .writing seg start idx stop source off)
    (hs : s.word t id = some (s', e)) : Step s e s' := by
  simp only [State.word, hr] at hs
  split at hs
  · rename_i hidx
    split at hs
    · rename_i segment' hw
      obtain ⟨rfl, rfl⟩ := Prod.mk.inj (Option.some.inj hs)
      exact .wrote hc hr hidx hw
    · rename_i hw
      obtain ⟨rfl, rfl⟩ := Prod.mk.inj (Option.some.inj hs)
      exact .writeRefused hc hr hidx hw
  · rename_i hidx
    obtain ⟨rfl, rfl⟩ := Prod.mk.inj (Option.some.inj hs)
    exact .writeDone hc hr hidx

theorem word_cases (hs : s.step (.word t) = some (s', e)) : Step s e s' := by
  simp only [State.step] at hs
  split at hs
  · rename_i id hc
    cases hr : s.call t with
    | reading seg start idx stop off target => exact reading_cases hc hr hs
    | writing seg start idx stop source off => exact writing_cases hc hr hs
    | _ =>
      rw [State.word, hr] at hs
      cases hs
  · cases hs

/-- `tm_free` marks its segment, or finds it marked and has to abort. -/
theorem tmFree_cases {target : ℕ} (hs : s.step (.tmFree t target) = some (s', e)) :
    Step s e s' := by
  simp only [State.step] at hs
  split at hs
  · rename_i id hc hr hro
    split at hs
    · rename_i hseg
      split at hs
      · rename_i r hf
        obtain ⟨rfl, rfl⟩ := Prod.mk.inj (Option.some.inj hs)
        exact .freed hc hr hro hseg.2 hf
      · rename_i hf
        obtain ⟨rfl, rfl⟩ := Prod.mk.inj (Option.some.inj hs)
        exact .freeRefused hc hr hro hseg.2 hf
    · cases hs
  · cases hs

/-- A turn of an abort releases a word or undoes a mark, and past the last segment it is the
leave. -/
theorem abort_cases (hs : s.step (.abort t) = some (s', e)) : Step s e s' := by
  simp only [State.step] at hs
  split at hs
  · rename_i id i j hc hr
    unfold State.abort at hs
    split at hs
    · rename_i hi
      simp only at hs
      split at hs
      · rename_i hj
        obtain ⟨rfl, rfl⟩ := Prod.mk.inj (Option.some.inj hs)
        exact .released hc hr hi hj
      · rename_i hj
        obtain ⟨rfl, rfl⟩ := Prod.mk.inj (Option.some.inj hs)
        exact .undone hc hr hi hj
    · rename_i hi
      exact leave_cases false ⟨i, j, hr, hi⟩ hs
  · cases hs

/-- **The transition function does one of the steps.** -/
theorem step_cases {a : Action τ W} (hs : s.step a = some (s', e)) : Step s e s' := by
  cases a with
  | tmBegin t isRo =>
    simp only [State.step] at hs
    split at hs
    · rename_i hc hr
      obtain ⟨rfl, rfl⟩ := Prod.mk.inj (Option.some.inj hs)
      exact .called hc hr
    · cases hs
  | enter t => exact enter_cases hs
  | wake t =>
    simp only [State.step] at hs
    split at hs
    · rename_i since hc
      obtain ⟨rfl, rfl⟩ := Prod.mk.inj (Option.some.inj hs)
      exact .woke hc
    · cases hs
  | setFlag t =>
    simp only [State.step] at hs
    split at hs
    · rename_i id hc hr
      obtain ⟨rfl, rfl⟩ := Prod.mk.inj (Option.some.inj hs)
      exact .flagged hc hr
    · cases hs
  | tmRead t source size =>
    simp only [State.step] at hs
    split at hs
    · rename_i id seg start stop hc hr hrange
      obtain ⟨rfl, rfl⟩ := Prod.mk.inj (Option.some.inj hs)
      exact .reading hc hr hrange
    · cases hs
  | tmWrite t source size target =>
    simp only [State.step] at hs
    split at hs
    · rename_i id seg start stop hc hr hrange hro
      obtain ⟨rfl, rfl⟩ := Prod.mk.inj (Option.some.inj hs)
      exact .writing hc hr hrange hro
    · cases hs
  | word t => exact word_cases hs
  | tmAlloc t size =>
    simp only [State.step] at hs
    split at hs
    · rename_i id hc hr hro
      obtain ⟨rfl, rfl⟩ := Prod.mk.inj (Option.some.inj hs)
      exact .alloced hc hr hro
    · cases hs
  | tmFree t target => exact tmFree_cases hs
  | abort t => exact abort_cases hs
  | tmEnd t =>
    simp only [State.step] at hs
    split at hs
    · rename_i hr
      exact leave_cases true hr hs
    · cases hs

end

end DualStm
