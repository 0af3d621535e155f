import DualStm.Allocation
import DualStm.Gate

/-!
# The transactional memory, statement by statement

`tm_alloc`, `tm_free` and `abort_transaction_tx` at the grain of their statements, for
any number of threads: what two of them do to each other between two statements is lost
when a whole call is one step. A thread stands at a statement, its `Pc`; `go` executes
it. `tm_read` and `tm_write` work a word at a time here, `enter_batcher` and
`leave_batcher` a lock-held section at a time.

The state adds to the region what the statements depend on: who owns `global_lock`, and,
for the array of segments, which entries `init_segment` has already stored to and how
often `realloc` has moved it. `pthread_mutex_unlock` frees the lock whoever calls it.
Which allocations succeed is up to the environment, which says so with every `go`.
-/

namespace DualStm

/-- The statements of `init_segment`, in the order of the source. -/
inductive InitPc where
  /-- `segment->align = align` -/
  | align
  /-- `segment->n_words = size / align` -/
  | nWords
  /-- `segment->deregistered = NONE` -/
  | deregistered
  /-- the `calloc` of the first copy -/
  | wordsArrayA
  /-- the `calloc` of the second copy -/
  | wordsArrayB
  /-- the `calloc` of the control entries -/
  | control
  /-- the `malloc` of their locks -/
  | controlLock
  /-- the loop over the control entries, at entry `j` -/
  | word (j : ℕ)
  deriving DecidableEq

/-- The statements of `tm_alloc` and `add_segment`. -/
inductive AllocPc where
  /-- `lock_acquire` -/
  | acquire
  /-- `pop` -/
  | pop
  /-- `int idx = region->n_segments` -/
  | index
  /-- `region->n_segments++` -/
  | count (idx : ℕ)
  /-- `allocate_more_segments` -/
  | grow (idx : ℕ)
  /-- `init_segment` on segment `i`, popped off the stack if `reused` -/
  | init (reused : Bool) (i : ℕ) (pc : InitPc)
  /-- `*target = GET_VIRT_ADDR(segment_index)` and `lock_release` -/
  | release (segmentIndex : ℕ)
  deriving DecidableEq

/-- The statements of `tm_free`, in the order of the source. -/
inductive FreePc where
  /-- `lock_acquire` -/
  | acquire
  /-- the test under the lock -/
  | test
  /-- `deregistered = tx` -/
  | mark
  /-- the `lock_release` at the end, after the mark -/
  | release
  /-- the `lock_release` of the branch that found a mark -/
  | releaseFound
  /-- the test of that branch, without the lock -/
  | retest
  /-- the `lock_release` at the end, after the other one -/
  | releaseAgain
  deriving DecidableEq

/-- The statements of `abort_transaction_tx`. `array` is the array of segments that
`segment` points into, by how often it had moved. -/
inductive AbortPc where
  /-- `i < region->n_segments`, and `segment = &region->segments[i]` -/
  | loop (i : ℕ)
  /-- the bound of the loop over the words, at word `j` -/
  | bound (i j array : ℕ)
  /-- the body of the loop over the words -/
  | entry (i j array : ℕ)
  /-- `lock_acquire` -/
  | acquire (i array : ℕ)
  /-- the test of `deregistered` and its store -/
  | undo (i array : ℕ)
  /-- `lock_release` -/
  | release (i : ℕ)
  /-- `leave_batcher` -/
  | leave
  deriving DecidableEq

/-- What a call returned to its thread. -/
inductive Returned where
  /-- `true` -/
  | success
  /-- `success_alloc`, with an address at `*target` -/
  | allocated (target : ℕ)
  /-- `nomem_alloc` -/
  | nomem
  /-- `false` -/
  | aborted
  deriving DecidableEq

/-- The statement a thread is at, with what it has read so far. -/
inductive Pc where
  /-- outside the library -/
  | rest
  /-- in `tm_begin`, with its `is_ro` -/
  | beginning (isRo : Bool)
  /-- in `tm_alloc`, with its `size` -/
  | alloc (size : ℕ) (pc : AllocPc)
  /-- in `tm_free`, with its `tx` and `segment_index` -/
  | free (tx i : ℕ) (pc : FreePc)
  /-- in `abort_transaction_tx`, with its `tx` -/
  | abort (tx : ℕ) (pc : AbortPc)
  /-- at the `return` of the call -/
  | returning (r : Returned)
  deriving DecidableEq

/-- What `init_segment` has stored to in an entry of the array of segments. -/
structure Known where
  /-- `n_words` -/
  nWords : Bool
  /-- `deregistered` -/
  deregistered : Bool
  /-- how many control entries -/
  words : ℕ
  deriving DecidableEq

/-- The shared state and the statement each thread is at. -/
structure Machine (τ W : Type) where
  /-- the region -/
  region : Region W
  /-- what is initialised in its array of segments -/
  known : ℕ → Known
  /-- how often `realloc` has moved the array -/
  array : ℕ
  /-- `region->segments` is `NULL` -/
  null : Bool
  /-- who owns `global_lock` -/
  globalLock : Option τ
  /-- the batcher and the threads around it -/
  gate : Gate τ
  /-- where each thread is -/
  pc : τ → Pc

/-- What the threads may do next: a call, a section of the batcher, or a statement. -/
inductive Statement (τ W : Type) where
  /-- call `tm_begin` -/
  | tmBegin (t : τ) (isRo : Bool)
  /-- a lock-held section of `enter_batcher` -/
  | enter (a : GateAction τ)
  /-- store the flag and return from `tm_begin` -/
  | setFlag (t : τ)
  /-- `tm_read` of one word -/
  | tmRead (t : τ) (seg idx : ℕ)
  /-- `tm_write` of one word -/
  | tmWrite (t : τ) (seg idx : ℕ) (v : W)
  /-- call `tm_alloc` -/
  | tmAlloc (t : τ) (size : ℕ)
  /-- call `tm_free` -/
  | tmFree (t : τ) (target : ℕ)
  /-- `tm_end` -/
  | tmEnd (t : τ)
  /-- the next statement of a call; an allocation in it succeeds if `granted` -/
  | go (t : τ) (granted : Bool)

/-- The thread a lock-held section of the batcher belongs to. -/
def GateAction.thread {τ : Type} : GateAction τ → τ
  | .enter t | .wake t | .spurious t | .leave t => t

/-- The thread that executes a statement. -/
def Statement.thread {τ W : Type} : Statement τ W → τ
  | .tmBegin t _ | .setFlag t | .tmRead t _ _ | .tmWrite t _ _ _ | .tmAlloc t _ | .tmFree t _
  | .tmEnd t | .go t _ => t
  | .enter a => a.thread

/-- What a statement did, as far as the theorems speak of it. -/
inductive Effect (τ : Type) where
  /-- it took `global_lock` -/
  | acquired (t : τ)
  /-- it gave `global_lock` back -/
  | released (t : τ)
  /-- a call of `tm_alloc`, `tm_free` or `abort_transaction_tx` returned -/
  | returned (t : τ) (r : Returned)
  /-- it called `init_segment` on a segment -/
  | initBegun (t : τ) (i : ℕ)
  /-- `init_segment` returned `true` -/
  | initDone (t : τ) (i : ℕ)
  /-- an allocation of `init_segment` failed; the index had been popped if `reused` -/
  | initFailed (t : τ) (i : ℕ) (reused : Bool)
  /-- `realloc` failed -/
  | reallocFailed (t : τ)
  /-- `tm_free` found the mark of its own transaction -/
  | ownMark (t : τ) (i : ℕ)
  /-- `abort_transaction_tx` read a field of a segment, `known` if it was initialised -/
  | looked (t : τ) (i : ℕ) (known : Bool)
  /-- nothing to be seen -/
  | silent
  deriving DecidableEq

namespace Machine

variable {τ W : Type} [DecidableEq τ]

/-- Move a thread to another statement. -/
def moveTo (s : Machine τ W) (t : τ) (p : Pc) : Machine τ W :=
  { s with pc := Function.update s.pc t p }

/-- Store a segment, with what is initialised of it. -/
def store (s : Machine τ W) (i : ℕ) (segment : Segment W) (known : Known) : Machine τ W :=
  { s with region := s.region.setSegment i segment, known := Function.update s.known i known }

/-- `lock_acquire(&region->global_lock)`: blocks while the lock is owned. -/
def acquire (s : Machine τ W) (t : τ) (p : Pc) : Option (Machine τ W × Effect τ) :=
  if s.globalLock = none then
    some ({ s with globalLock := some t }.moveTo t p, .acquired t)
  else none

/-- `lock_release(&region->global_lock)`. -/
def release (s : Machine τ W) (t : τ) (p : Pc) : Option (Machine τ W × Effect τ) :=
  some ({ s with globalLock := none }.moveTo t p, .released t)

/-- A failed allocation of `init_segment`. A popped index makes `tm_alloc` return at once;
otherwise `add_segment` returns `nomem_alloc`, which `tm_alloc` takes for an index. -/
def initFail (s : Machine τ W) (t : τ) (size : ℕ) (reused : Bool) (i : ℕ) :
    Machine τ W × Effect τ :=
  (s.moveTo t (if reused = true then .returning .nomem
    else .alloc size (.release nomemAlloc.toNat)), .initFailed t i reused)

/-- The next statement of `init_segment`. -/
def goInit [Zero W] (s : Machine τ W) (t : τ) (size : ℕ) (reused : Bool) (i : ℕ)
    (granted : Bool) : InitPc → Machine τ W × Effect τ
  | .align =>
    ((s.store i { s.region.segments i with align := s.region.align } (s.known i)).moveTo t
      (.alloc size (.init reused i .nWords)), .silent)
  | .nWords =>
    ((s.store i { s.region.segments i with nWords := size / s.region.align }
      { s.known i with nWords := true }).moveTo t (.alloc size (.init reused i .deregistered)),
      .silent)
  | .deregistered =>
    ((s.store i { s.region.segments i with deregistered := NONE }
      { s.known i with deregistered := true }).moveTo t
      (.alloc size (.init reused i .wordsArrayA)), .silent)
  | .wordsArrayA =>
    if granted = true then
      ((s.store i { s.region.segments i with wordsArrayA := fun _ => 0 } (s.known i)).moveTo t
        (.alloc size (.init reused i .wordsArrayB)), .silent)
    else s.initFail t size reused i
  | .wordsArrayB =>
    if granted = true then
      ((s.store i { s.region.segments i with wordsArrayB := fun _ => 0 } (s.known i)).moveTo t
        (.alloc size (.init reused i .control)), .silent)
    else s.initFail t size reused i
  | .control =>
    -- the old entries, if any, are out of reach; the new ones are zero until the loop
    let s := s.store i
      { s.region.segments i with
        control := fun _ => { wordIsRo := false, accessSet := 0, wordHasBeenWritten := false } }
      { s.known i with words := 0 }
    if granted = true then
      (s.moveTo t (.alloc size (.init reused i .controlLock)), .silent)
    else s.initFail t size reused i
  | .controlLock =>
    if granted = true then
      (s.moveTo t (.alloc size (.init reused i (.word 0))), .silent)
    else s.initFail t size reused i
  | .word j =>
    let segment := s.region.segments i
    if j < segment.nWords then
      ((s.store i (segment.setControl j { segment.control j with accessSet := NONE })
        { s.known i with words := j + 1 }).moveTo t
        (.alloc size (.init reused i (.word (j + 1)))), .silent)
    else (s.moveTo t (.alloc size (.release i)), .initDone t i)

/-- The next statement of `tm_alloc`, with whether its allocation is granted. -/
def goAlloc [Zero W] (s : Machine τ W) (t : τ) (size : ℕ) (granted : Bool) :
    AllocPc → Option (Machine τ W × Effect τ)
  | .acquire => s.acquire t (.alloc size .pop)
  | .pop =>
    match pop s.region.freeSegIndices with
    | (none, _) => some (s.moveTo t (.alloc size .index), .silent)
    | (some i, stack) =>
      some ({ s with region := { s.region with freeSegIndices := stack } }.moveTo t
        (.alloc size (.init true i .align)), .initBegun t i)
  | .index => some (s.moveTo t (.alloc size (.count s.region.nSegments)), .silent)
  | .count idx =>
    some ({ s with region := { s.region with nSegments := s.region.nSegments + 1 } }.moveTo t
      (.alloc size (.grow idx)), .silent)
  | .grow idx =>
    if N_INIT_SEGMENTS ≤ s.region.nSegments then
      if granted = true then
        some ({ s with array := s.array + 1 }.moveTo t (.alloc size (.init false idx .align)),
          .initBegun t idx)
      else some ({ s with null := true }.moveTo t (.returning .nomem), .reallocFailed t)
    else some (s.moveTo t (.alloc size (.init false idx .align)), .initBegun t idx)
  | .init reused i pc => some (s.goInit t size reused i granted pc)
  | .release segmentIndex => s.release t (.returning (.allocated (getVirtAddr segmentIndex)))

/-- The next statement of `tm_free`. -/
def goFree (s : Machine τ W) (t : τ) (tx i : ℕ) : FreePc → Option (Machine τ W × Effect τ)
  | .acquire => s.acquire t (.free tx i .test)
  | .test =>
    if (s.region.segments i).deregistered = NONE then
      some (s.moveTo t (.free tx i .mark), .silent)
    else some (s.moveTo t (.free tx i .releaseFound), .silent)
  | .mark =>
    some ((s.store i { s.region.segments i with deregistered := tx } (s.known i)).moveTo t
      (.free tx i .release), .silent)
  | .release => s.release t (.returning .success)
  | .releaseFound => s.release t (.free tx i .retest)
  | .retest =>
    if (s.region.segments i).deregistered ≠ tx then
      some (s.moveTo t (.abort tx (.loop 0)), .silent)
    else some (s.moveTo t (.free tx i .releaseAgain), .ownMark t i)
  | .releaseAgain => s.release t (.returning .success)

/-- `leave_batcher`, the commit of the region included. -/
def leave (s : Machine τ W) (t : τ) (p : Pc) : Option (Machine τ W × Effect τ) :=
  let s' := { s with gate := s.gate.afterLeave t }.moveTo t p
  if (leaveBatcher s.gate.batcher).2 = true then
    (commitTranscationsInEpoch s.region).map fun r => ({ s' with region := r }, .silent)
  else some (s', .silent)

/-- The next statement of `abort_transaction_tx`. What it reads out of an array that has
moved is read from the new one here. -/
def goAbort (s : Machine τ W) (t : τ) (tx : ℕ) : AbortPc → Option (Machine τ W × Effect τ)
  | .loop i =>
    if i < s.region.nSegments then
      some (s.moveTo t (.abort tx (.bound i 0 s.array)), .silent)
    else some (s.moveTo t (.abort tx .leave), .silent)
  | .bound i j array =>
    some (s.moveTo t (.abort tx (if j < (s.region.segments i).nWords then .entry i j array
      else .acquire i array)), .looked t i ((s.known i).nWords && array == s.array))
  | .entry i j array =>
    some ((s.store i (releaseWord (s.region.segments i) tx j) (s.known i)).moveTo t
      (.abort tx (.bound i (j + 1) array)),
      .looked t i (decide (j < (s.known i).words) && array == s.array))
  | .acquire i array => s.acquire t (.abort tx (.undo i array))
  | .undo i array =>
    some ({ s with region := undoFree s.region tx i }.moveTo t (.abort tx (.release i)),
      .looked t i ((s.known i).deregistered && array == s.array))
  | .release i => s.release t (.abort tx (.loop (i + 1)))
  | .leave => s.leave t (.returning .aborted)

/-- The statement uses the array of segments. -/
def usesArray : Pc → Bool
  | .free _ _ .test | .free _ _ .mark | .free _ _ .retest => true
  | .abort _ (.loop _) => true
  | _ => false

/-- The next statement of a call. The program crashes at a `NULL` array. -/
def go [Zero W] (s : Machine τ W) (t : τ) (granted : Bool) : Option (Machine τ W × Effect τ) :=
  if s.null = true ∧ usesArray (s.pc t) = true then none
  else
    match s.pc t with
    | .alloc size pc => s.goAlloc t size granted pc
    | .free tx i pc => s.goFree t tx i pc
    | .abort tx pc => s.goAbort t tx pc
    | .returning r => some (s.moveTo t .rest, .returned t r)
    | _ => none

/-- A word inside a segment in use, of an array that is there. -/
def Valid (s : Machine τ W) (seg idx : ℕ) : Prop :=
  s.null = false ∧ seg < s.region.nSegments ∧ idx < (s.region.segments seg).nWords

instance (s : Machine τ W) (seg idx : ℕ) : Decidable (s.Valid seg idx) :=
  inferInstanceAs (Decidable (_ ∧ _))

/-- A section of `leave_batcher`, not of `enter_batcher`. -/
def isLeave : GateAction τ → Bool
  | .leave _ => true
  | _ => false

/-- The transition function: one statement of one thread. -/
def step [Zero W] (s : Machine τ W) : Statement τ W → Option (Machine τ W × Effect τ)
  | .tmBegin t isRo =>
    match s.gate.client t, s.pc t with
    | .outside, .rest => some (s.moveTo t (.beginning isRo), .silent)
    | _, _ => none
  | .enter a =>
    match isLeave a, s.pc a.thread with
    | false, .beginning _ => (s.gate.step a).map fun (g, _) => ({ s with gate := g }, .silent)
    | _, _ => none
  | .setFlag t =>
    match s.gate.client t, s.pc t with
    | .inside id, .beginning isRo =>
      some ({ s with region := { s.region with
        isRoFlags := Function.update s.region.isRoFlags id isRo } }.moveTo t .rest, .silent)
    | _, _ => none
  | .tmRead t seg idx =>
    match s.gate.client t, s.pc t with
    | .inside id, .rest =>
      if s.Valid seg idx then
        match readWord (s.region.segments seg) id (s.region.isRoFlags id) idx with
        | (some _, segment) => some (s.store seg segment (s.known seg), .silent)
        | (none, _) => some (s.moveTo t (.abort id (.loop 0)), .silent)
      else none
    | _, _ => none
  | .tmWrite t seg idx v =>
    match s.gate.client t, s.pc t with
    | .inside id, .rest =>
      if s.Valid seg idx then
        match writeWord (s.region.segments seg) id idx v with
        | some segment => some (s.store seg segment (s.known seg), .silent)
        | none => some (s.moveTo t (.abort id (.loop 0)), .silent)
      else none
    | _, _ => none
  | .tmAlloc t size =>
    match s.gate.client t, s.pc t with
    | .inside _, .rest => some (s.moveTo t (.alloc size .acquire), .silent)
    | _, _ => none
  | .tmFree t target =>
    match s.gate.client t, s.pc t with
    | .inside id, .rest =>
      let segmentIndex := extractSegIdFromVirtAddr target
      if 0 ≤ segmentIndex ∧ segmentIndex.toNat < s.region.nSegments then
        some (s.moveTo t (.free id segmentIndex.toNat .acquire), .silent)
      else none
    | _, _ => none
  | .tmEnd t =>
    match s.gate.client t, s.pc t with
    | .inside _, .rest => s.leave t .rest
    | _, _ => none
  | .go t granted => s.go t granted

/-- The state after `tm_create`, before any thread: what `malloc` leaves in the array of
segments is a parameter. -/
def create [Zero W] (size align : ℕ) (segments : ℕ → Segment W) (isRoFlags : ℕ → Bool) :
    Machine τ W :=
  { region := tmCreate size align segments isRoFlags
    known := fun i => if i = 0 then ⟨true, true, size / align⟩ else ⟨false, false, 0⟩
    array := 0
    null := false
    globalLock := none
    gate := ⟨initBatcher, fun _ => .outside⟩
    pc := fun _ => .rest }

end Machine

end DualStm
