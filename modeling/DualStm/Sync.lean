import DualStm.Library.Count
import DualStm.Library.Run
import Mathlib.Data.List.Sort

/-!
# The rounds of the grader

`Sync`, `Chrono` and `Latch` of the grader and the threads of `measure` that use them: a
master that opens round after round, and workers that run one test in each. The functions
are taken apart into their atomic accesses, and each section that holds the lock of the
latch is one step; `Sync.step` lets any thread make its next one.

The master waits without a timeout. What a test does is up to the environment: it returns,
with an error or without, or it throws. So is what the clock says.
-/

namespace DualStm

/-! ## Time accounting

A `Chrono` adds up what it measured. A reading of the clock that would be `invalid_tick` is one
tick more, and one that failed is `invalid_tick`. -/

/-- `Chrono::Tick`, an unsigned integer of 64 bits. -/
abbrev Tick := UInt64

/-- `Chrono::invalid_tick`, the value that stands for no reading. -/
def invalidTick : Tick := 0xbadc0de

/-- `struct timespec`, its fields converted to ticks. -/
structure Timespec where
  /-- `tv_sec` -/
  tvSec : Tick
  /-- `tv_nsec` -/
  tvNsec : Tick
  deriving DecidableEq

/-- `Chrono`, a total and the reading at the last start. -/
structure Chrono where
  /-- `total` -/
  total : Tick
  /-- `local` -/
  localTick : Tick
  deriving DecidableEq

namespace Chrono

/-- `convert`, on what the clock function left in its buffer; `none` if it failed. -/
def convert (buf : Option Timespec) : Tick :=
  match buf with
  | none => invalidTick
  | some buf =>
    let res := buf.tvNsec + buf.tvSec * 1000000000
    if res = invalidTick then invalidTick + 1 else res

/-- `start`, with the reading of the clock. -/
def start (c : Chrono) (now : Tick) : Chrono := { c with localTick := now }

/-- `delta`, the time since the last start. -/
def delta (c : Chrono) (now : Tick) : Tick := now - c.localTick

/-- `stop`, which adds the time since the last start to the total. -/
def stop (c : Chrono) (now : Tick) : Chrono := { c with total := c.total + c.delta now }

/-- `get_tick`, the total. -/
def getTick (c : Chrono) : Tick := c.total

end Chrono

/-! ## The shared state

Every access of the master or a worker to an atomic variable is one step. The fields of `Sync`
are such variables, and where each thread stands says which one it accesses next. -/

/-- `Sync::Status`, what the threads wait for. -/
inductive Status where
  /-- workers waiting each others, run as soon as all ready -/
  | wait
  /-- workers running (still full success) -/
  | run
  /-- workers running (>0 failure) -/
  | abort
  /-- workers done (all success) -/
  | done
  /-- workers done (>0 failure) -/
  | fail
  /-- workers must terminate -/
  | quit
  deriving DecidableEq

/-- What `master_wait` returns: the clock, or an error. -/
inductive Verdict where
  /-- the runtime -/
  | runtime (c : Chrono)
  /-- the error message -/
  | error (errmsg : Option String)
  deriving DecidableEq

/-- The access that the master makes next. -/
inductive MasterPc where
  /-- `master_notify`: the store of `Status::Wait` -/
  | storeWait
  /-- `master_notify`: `runtime.start()` -/
  | start
  /-- `master_wait`: `donelatch.wait` -/
  | latch
  /-- the load of the status -/
  | loadStatus
  /-- `return runtime` -/
  | returnRuntime
  /-- `return errmsg` -/
  | returnErrmsg
  /-- `Exception::Unreachable` was thrown -/
  | unreachable
  /-- `master_join` -/
  | storeQuit
  /-- waits for the threads to end -/
  | join
  deriving DecidableEq

/-- The access that a worker makes next. -/
inductive WorkerPc where
  /-- `worker_wait`: a load of the first loop -/
  | waitLoad
  /-- the `fetch_add` -/
  | enter
  /-- the last worker resets the counter -/
  | resetEnter
  /-- the last worker stores `Status::Run` -/
  | storeRun
  /-- a load of the second loop -/
  | waitRun
  /-- none: it runs the test -/
  | work
  /-- `worker_notify`: the store of the error message -/
  | storeErrmsg (error : String)
  /-- the store of `Status::Abort` -/
  | storeAbort
  /-- the `fetch_add` -/
  | leave
  /-- the last worker resets the counter -/
  | resetLeave
  /-- loads the status -/
  | loadStatus
  /-- stores `Status::Fail` or `Status::Done` -/
  | storeStatus (failed : Bool)
  /-- `runtime.stop()` -/
  | stop
  /-- `donelatch.raise()` -/
  | raise
  /-- none: the thread has ended -/
  | exited
  deriving DecidableEq

/-- The error of a worker that caught an exception. -/
def internalException : String := "Internal worker exception(s)"

/-- What a test does: return, with an error unless it is null, or throw. -/
inductive TestResult where
  /-- it returned -/
  | returned (error : Option String)
  /-- it threw -/
  | threw
  deriving DecidableEq

/-- `Sync`, and the threads of `measure`. -/
structure Sync (τ : Type) where
  /-- `nbworkers` -/
  nbworkers : UInt32
  /-- `nbready` -/
  nbready : UInt32
  /-- `status` -/
  status : Status
  /-- `errmsg` -/
  errmsg : Option String
  /-- `runtime` -/
  runtime : Chrono
  /-- `donelatch` is raised -/
  raised : Bool
  /-- how many tests each thread runs -/
  nbrounds : ℕ
  /-- where the master is -/
  master : MasterPc
  /-- what `master_wait` has returned, the last one first -/
  verdicts : List Verdict
  /-- where each worker is -/
  pc : τ → WorkerPc
  /-- how many tests each worker has begun -/
  count : τ → ℕ
  /-- it is handling an exception -/
  threw : τ → Bool

/-- What the threads may do next, with what the clock and the tests answer. -/
inductive SyncAction (τ : Type) where
  /-- the next access of the master -/
  | master
  /-- the master starts the clock, and reads this -/
  | start (buf : Option Timespec)
  /-- the next access of a worker -/
  | worker (w : τ)
  /-- a test of a worker comes to its end -/
  | test (w : τ) (result : TestResult)
  /-- a worker stops the clock, and reads this -/
  | stop (w : τ) (buf : Option Timespec)

/-- What a step did, as far as the rounds can be told from it. -/
inductive SyncEvent (τ : Type) where
  /-- the master stored `Status::Wait` -/
  | notified
  /-- it started the clock -/
  | started (now : Tick)
  /-- `master_wait` returned -/
  | waited (v : Verdict)
  /-- `master_wait` threw `Exception::Unreachable` -/
  | unreachable
  /-- `worker_wait` let a worker go on to its test -/
  | running (w : τ)
  /-- a worker called `worker_notify` -/
  | finished (w : τ) (error : Option String)
  /-- the last worker stopped the clock -/
  | stopped (now : Tick)
  /-- nothing to be seen -/
  | silent
  deriving DecidableEq

namespace Sync

variable {τ : Type} [DecidableEq τ]

/-- What the master does after `k` rounds without an error. -/
def nextRound (nbrounds k : ℕ) : MasterPc := if k < nbrounds then .storeWait else .storeQuit

/-- The constructor, and the threads of `measure` before their first access. What is in
`local` is a parameter. -/
def create (nbworkers : UInt32) (nbrounds : ℕ) (localTick : Tick) : Sync τ :=
  { nbworkers := nbworkers
    nbready := 0
    status := .done
    errmsg := none
    runtime := ⟨0, localTick⟩
    raised := false
    nbrounds := nbrounds
    master := nextRound nbrounds 0
    verdicts := []
    pc := fun _ => .waitLoad
    count := fun _ => 0
    threw := fun _ => false }

/-- Worker `w` is before another access. -/
def moveTo (s : Sync τ) (w : τ) (p : WorkerPc) : Sync τ :=
  { s with pc := Function.update s.pc w p }

/-- `worker_notify`, as far as its first access. -/
def workerNotify (error : Option String) : WorkerPc :=
  match error with
  | some error => .storeErrmsg error
  | none => .leave

/-- `worker_wait` returned `true`: the next test, and an exception when there is none. -/
def proceed (s : Sync τ) (w : τ) : Sync τ × SyncEvent τ :=
  if s.count w < s.nbrounds then
    ({ s with count := Function.update s.count w (s.count w + 1) }.moveTo w .work, .running w)
  else
    ({ s with threw := Function.update s.threw w true }.moveTo w
      (workerNotify (some internalException)), .finished w (some internalException))

/-- `worker_notify` returned: the next `worker_wait`, or the end after an exception. -/
def afterNotify (s : Sync τ) (w : τ) : WorkerPc :=
  if s.threw w = true then .exited else .waitLoad

/-- The next access of the master, if it does not read the clock. -/
def masterStep (s : Sync τ) : Option (Sync τ × SyncEvent τ) :=
  match s.master with
  | .storeWait => some ({ s with status := .wait, master := .start }, .notified)
  | .start => none
  | .latch =>
    if s.raised = true then some ({ s with raised := false, master := .loadStatus }, .silent)
    else some (s, .silent)
  | .loadStatus =>
    match s.status with
    | .done => some ({ s with master := .returnRuntime }, .silent)
    | .fail => some ({ s with master := .returnErrmsg }, .silent)
    | _ => some ({ s with master := .unreachable }, .unreachable)
  | .returnRuntime =>
    let verdicts := .runtime s.runtime :: s.verdicts
    some ({ s with verdicts := verdicts, master := nextRound s.nbrounds verdicts.length },
      .waited (.runtime s.runtime))
  | .returnErrmsg =>
    some ({ s with verdicts := .error s.errmsg :: s.verdicts, master := .storeQuit },
      .waited (.error s.errmsg))
  | .unreachable => none
  | .storeQuit => some ({ s with status := .quit, master := .join }, .silent)
  | .join => none

/-- The next access of a worker, if it neither reads the clock nor runs its test. -/
def workerStep (s : Sync τ) (w : τ) : Option (Sync τ × SyncEvent τ) :=
  match s.pc w with
  | .waitLoad =>
    match s.status with
    | .wait => some (s.moveTo w .enter, .silent)
    | .quit => some (s.moveTo w .exited, .silent)
    | _ => some (s, .silent)
  | .enter =>
    some ({ s with nbready := s.nbready + 1 }.moveTo w
      (if s.nbready + 1 = s.nbworkers then .resetEnter else .waitRun), .silent)
  | .resetEnter => some ({ s with nbready := 0 }.moveTo w .storeRun, .silent)
  | .storeRun => some ({ s with status := .run }.proceed w)
  | .waitRun =>
    match s.status with
    | .run | .abort => some (s.proceed w)
    | _ => some (s, .silent)
  | .work => none
  | .storeErrmsg error => some ({ s with errmsg := some error }.moveTo w .storeAbort, .silent)
  | .storeAbort => some ({ s with status := .abort }.moveTo w .leave, .silent)
  | .leave =>
    some ({ s with nbready := s.nbready + 1 }.moveTo w
      (if s.nbready + 1 = s.nbworkers then .resetLeave else s.afterNotify w), .silent)
  | .resetLeave => some ({ s with nbready := 0 }.moveTo w .loadStatus, .silent)
  | .loadStatus => some (s.moveTo w (.storeStatus (s.status == .abort)), .silent)
  | .storeStatus failed =>
    some ({ s with status := if failed = true then .fail else .done }.moveTo w .stop, .silent)
  | .stop => none
  | .raise => some ({ s with raised := true }.moveTo w (s.afterNotify w), .silent)
  | .exited => none

/-- The transition function: one access of one thread, a test, or a reading of the clock. -/
def step (s : Sync τ) : SyncAction τ → Option (Sync τ × SyncEvent τ)
  | .master => s.masterStep
  | .start buf =>
    match s.master with
    | .start =>
      let now := Chrono.convert buf
      some ({ s with runtime := s.runtime.start now, master := .latch }, .started now)
    | _ => none
  | .worker w => s.workerStep w
  | .test w result =>
    match s.pc w with
    | .work =>
      match result with
      | .returned error => some (s.moveTo w (workerNotify error), .finished w error)
      | .threw =>
        some ({ s with threw := Function.update s.threw w true }.moveTo w
          (workerNotify (some internalException)), .finished w (some internalException))
    | _ => none
  | .stop w buf =>
    match s.pc w with
    | .stop =>
      let now := Chrono.convert buf
      some ({ s with runtime := s.runtime.stop now }.moveTo w .raise, .stopped now)
    | _ => none

/-! ## What the constructor was given stays

No step changes how many workers or rounds there are, nor what the constructor has set besides. -/

section

variable {s s' : Sync τ} {w : τ} {e : SyncEvent τ}

@[simp] theorem moveTo_nbworkers (p : WorkerPc) : (s.moveTo w p).nbworkers = s.nbworkers := rfl

@[simp] theorem moveTo_nbrounds (p : WorkerPc) : (s.moveTo w p).nbrounds = s.nbrounds := rfl

@[simp] theorem proceed_nbworkers : (s.proceed w).1.nbworkers = s.nbworkers := by
  unfold proceed
  split <;> rfl

@[simp] theorem proceed_nbrounds : (s.proceed w).1.nbrounds = s.nbrounds := by
  unfold proceed
  split <;> rfl

omit [DecidableEq τ] in
theorem masterStep_nbworkers (hs : s.masterStep = some (s', e)) :
    s'.nbworkers = s.nbworkers ∧ s'.nbrounds = s.nbrounds := by
  unfold masterStep at hs
  cases hm : s.master <;> rw [hm] at hs
  case start => cases hs
  case unreachable => cases hs
  case join => cases hs
  case latch =>
    by_cases hr : s.raised = true
    · obtain ⟨rfl, -⟩ := Prod.mk.inj (Option.some.inj ((if_pos hr).symm.trans hs))
      exact ⟨rfl, rfl⟩
    · obtain ⟨rfl, -⟩ := Prod.mk.inj (Option.some.inj ((if_neg hr).symm.trans hs))
      exact ⟨rfl, rfl⟩
  case loadStatus =>
    cases hst : s.status <;> rw [hst] at hs <;>
      obtain ⟨rfl, -⟩ := Prod.mk.inj (Option.some.inj hs) <;> exact ⟨rfl, rfl⟩
  all_goals
    obtain ⟨rfl, -⟩ := Prod.mk.inj (Option.some.inj hs)
    exact ⟨rfl, rfl⟩

theorem workerStep_nbworkers (hs : s.workerStep w = some (s', e)) :
    s'.nbworkers = s.nbworkers ∧ s'.nbrounds = s.nbrounds := by
  unfold workerStep at hs
  cases hpc : s.pc w <;> rw [hpc] at hs
  case work => cases hs
  case stop => cases hs
  case exited => cases hs
  case storeRun =>
    obtain ⟨rfl, -⟩ := Prod.mk.inj (Option.some.inj hs)
    exact ⟨proceed_nbworkers, proceed_nbrounds⟩
  case waitLoad =>
    cases hst : s.status <;> rw [hst] at hs <;>
      obtain ⟨rfl, -⟩ := Prod.mk.inj (Option.some.inj hs) <;> exact ⟨rfl, rfl⟩
  case waitRun =>
    cases hst : s.status <;> rw [hst] at hs <;>
      obtain ⟨rfl, -⟩ := Prod.mk.inj (Option.some.inj hs)
    case run => exact ⟨proceed_nbworkers, proceed_nbrounds⟩
    case abort => exact ⟨proceed_nbworkers, proceed_nbrounds⟩
    all_goals exact ⟨rfl, rfl⟩
  all_goals
    obtain ⟨rfl, -⟩ := Prod.mk.inj (Option.some.inj hs)
    exact ⟨rfl, rfl⟩

theorem step_nbworkers {a : SyncAction τ} (hs : s.step a = some (s', e)) :
    s'.nbworkers = s.nbworkers ∧ s'.nbrounds = s.nbrounds := by
  cases a with
  | master => exact masterStep_nbworkers hs
  | worker w => exact workerStep_nbworkers hs
  | start buf =>
    simp only [step] at hs
    split at hs
    · obtain ⟨rfl, -⟩ := Prod.mk.inj (Option.some.inj hs)
      exact ⟨rfl, rfl⟩
    · cases hs
  | test w result =>
    simp only [step] at hs
    split at hs
    · cases result <;> obtain ⟨rfl, -⟩ := Prod.mk.inj (Option.some.inj hs) <;> exact ⟨rfl, rfl⟩
    · cases hs
  | stop w buf =>
    simp only [step] at hs
    split at hs
    · obtain ⟨rfl, -⟩ := Prod.mk.inj (Option.some.inj hs)
      exact ⟨rfl, rfl⟩
    · cases hs

end

theorem run_nbrounds {nbworkers : UInt32} {nbrounds : ℕ} {localTick : Tick} {s : Sync τ}
    {h : List (SyncEvent τ)} {Q : Discipline (Sync τ) (SyncEvent τ)}
    (hr : Run step Q (create nbworkers nbrounds localTick) h s) : s.nbrounds = nbrounds := by
  induction hr with
  | start => rfl
  | next _ hs _ ih => exact (step_nbworkers hs).2.trans ih

end Sync

end DualStm
