import DualStm.Sync

/-!
# The round protocol

Every round of the grader has all its workers, and no worker is in a round that the master
has not opened or has closed. The counter is used twice in a round, to bring the workers
together and to find the last one; `Counted` says what it counts in either half, and that
there is one last worker, one raised latch or one master that moves, and never two of them.
-/

namespace DualStm

/-- What a round has come to: the workers gather, the tests run, or it is over. -/
inductive Half where
  /-- the workers come together -/
  | gather
  /-- the tests run -/
  | run
  /-- the round is over -/
  | over
  deriving DecidableEq

/-- The half of a round that a status belongs to. -/
def Status.half : Status → Half
  | .wait => .gather
  | .run | .abort => .run
  | .done | .fail | .quit => .over

/-- The counter has been, or will not be, changed by this worker in this half. -/
def WorkerPc.arrived : Half → WorkerPc → Bool
  | .gather, .waitRun | .gather, .resetEnter | .gather, .storeRun => true
  | .run, .waitLoad | .run, .exited | .run, .resetLeave | .run, .loadStatus
  | .run, .storeStatus _ => true
  | .over, _ => true
  | _, _ => false

/-- The last worker, on whom the others or the master wait. -/
def WorkerPc.isLast : WorkerPc → Bool
  | .resetEnter | .storeRun | .resetLeave | .loadStatus | .storeStatus _ | .stop | .raise => true
  | _ => false

/-- The last worker once it has reset the counter. -/
def WorkerPc.hasReset : WorkerPc → Bool
  | .storeRun | .loadStatus | .storeStatus _ => true
  | _ => false

/-- The master does not wait for the round to end. -/
def MasterPc.awake : MasterPc → Bool
  | .start | .latch => false
  | _ => true

variable {τ : Type} [Fintype τ]

/-- What the counter counts, and who may move things on. -/
structure Counted (s : Sync τ) : Prop where
  /-- once all workers have arrived, exactly one of the workers, the latch and the master may
  move on -/
  last : countOf WorkerPc.isLast s.pc + s.raised.toNat + s.master.awake.toNat =
    if countOf (WorkerPc.arrived s.status.half) s.pc = Fintype.card τ then 1 else 0
  /-- the master waits while a round is not over -/
  busy : s.status.half ≠ .over → s.raised = false ∧ s.master.awake = false
  /-- the counter is that of the workers that have arrived, until it is reset -/
  nbready : s.nbready.toNat = if s.status.half = .over ∨ 0 < countOf WorkerPc.hasReset s.pc then 0
    else countOf (WorkerPc.arrived s.status.half) s.pc

theorem WorkerPc.hasReset_le (p : WorkerPc) : p.hasReset.toNat ≤ p.isLast.toNat := by
  cases p <;> simp [hasReset, isLast]

omit [Fintype τ] in
theorem countOf_hasReset_le [Fintype τ] (pc : τ → WorkerPc) :
    countOf WorkerPc.hasReset pc ≤ countOf WorkerPc.isLast pc := by
  rw [countOf_eq_sum, countOf_eq_sum]
  exact Finset.sum_le_sum fun w _ => (pc w).hasReset_le

namespace Counted

variable {s s' : Sync τ} {w : τ} {p : WorkerPc}

/-- While somebody has not arrived nobody is last, and the counter counts. -/
theorem waiting (hs : Counted s) (hw : (s.pc w).arrived s.status.half = false) :
    countOf WorkerPc.isLast s.pc = 0 ∧ countOf WorkerPc.hasReset s.pc = 0 ∧
      s.nbready.toNat = countOf (WorkerPc.arrived s.status.half) s.pc ∧
      countOf (WorkerPc.arrived s.status.half) s.pc < Fintype.card τ := by
  have hne : countOf (WorkerPc.arrived s.status.half) s.pc ≠ Fintype.card τ := by
    intro hall
    rw [countOf_eq_card.mp hall w] at hw
    cases hw
  have hover : s.status.half ≠ .over := by
    intro hover
    rw [hover] at hw
    cases hw
  have hlast := hs.last
  rw [if_neg hne] at hlast
  have hreset := countOf_hasReset_le s.pc
  have hnb := hs.nbready
  rw [if_neg (by rintro (hc | hc) <;> [exact hover hc; omega])] at hnb
  have hle := countOf_le_card (WorkerPc.arrived s.status.half) s.pc
  exact ⟨by omega, by omega, hnb, by omega⟩

/-- Once a worker is last everybody has arrived, nobody else is last, and neither the latch nor
the master is. -/
theorem alone (hs : Counted s) (hw : (s.pc w).isLast = true) :
    (∀ u, (s.pc u).arrived s.status.half = true) ∧ (∀ u, u ≠ w → (s.pc u).isLast = false) ∧
      s.raised = false ∧ s.master.awake = false := by
  have hpos := countOf_pos hw
  have hlast := hs.last
  have hall : countOf (WorkerPc.arrived s.status.half) s.pc = Fintype.card τ := by
    by_contra hne
    rw [if_neg hne] at hlast
    omega
  rw [if_pos hall] at hlast
  refine ⟨countOf_eq_card.mp hall, ?_, ?_, ?_⟩
  · intro u hu
    by_contra hl
    have hle : countOf WorkerPc.isLast s.pc ≤ 1 := by omega
    exact hu (countOf_le_one hle ((Bool.not_eq_false _).mp hl) hw)
  · cases hr : s.raised with
    | false => rfl
    | true =>
      rw [hr, Bool.toNat_true] at hlast
      omega
  · cases ha : s.master.awake with
    | false => rfl
    | true =>
      rw [ha, Bool.toNat_true] at hlast
      omega

/-- When the master is awake or the latch is raised, nobody is last. -/
theorem none_last (hs : Counted s) (ha : s.raised = true ∨ s.master.awake = true) (u : τ) :
    (s.pc u).isLast = false := by
  cases hl : (s.pc u).isLast with
  | false => rfl
  | true =>
    obtain ⟨-, -, hr, hm⟩ := hs.alone hl
    rcases ha with ha | ha
    · rw [hr] at ha
      cases ha
    · rw [hm] at ha
      cases ha

/-! ### What keeps the count

`nbready` counts the workers that have arrived in a half, and the last of them goes on alone
until it has stored the status of the next half. So there is exactly one who may store it. -/

/-- A round that begins: nobody has arrived. -/
theorem nobody (hpos : 0 < Fintype.card τ) (ha : ∀ u, (s.pc u).arrived s.status.half = false)
    (hl : ∀ u, (s.pc u).isLast = false) (hr : s.raised = false) (hm : s.master.awake = false)
    (hn : s.nbready = 0) : Counted s := by
  have ha := countOf_eq_zero.mpr ha
  have hl := countOf_eq_zero.mpr hl
  refine ⟨?_, fun _ => ⟨hr, hm⟩, ?_⟩
  · rw [ha, hl, hr, hm, if_neg (by omega)]
    rfl
  · rw [ha, hn]
    split <;> rfl

/-- A round that is over has nobody in the count. -/
theorem ended (hhalf : s.status.half = .over)
    (hone : countOf WorkerPc.isLast s.pc + s.raised.toNat + s.master.awake.toNat = 1)
    (hn : s.nbready = 0) : Counted s := by
  refine ⟨?_, fun hc => absurd hhalf hc, ?_⟩
  · rw [hone, hhalf, if_pos (countOf_eq_card.mpr fun _ => rfl)]
  · rw [if_pos (.inl hhalf), hn]
    rfl

/-- When a round is over the counter has been reset, and one moves things on. -/
theorem of_over (hs : Counted s) (hhalf : s.status.half = .over) :
    countOf WorkerPc.isLast s.pc + s.raised.toNat + s.master.awake.toNat = 1 ∧
      s.nbready = 0 := by
  have hlast := hs.last
  have hnb := hs.nbready
  rw [hhalf, if_pos (countOf_eq_card.mpr fun _ => rfl)] at hlast
  rw [if_pos (.inl hhalf)] at hnb
  exact ⟨hlast, UInt32.toNat_inj.mp hnb⟩

/-- Once a worker has reset the counter it is zero. -/
theorem nbready_eq_zero (hs : Counted s) (hw : (s.pc w).hasReset = true) : s.nbready = 0 := by
  have hnb := hs.nbready
  rw [if_pos (.inr (countOf_pos hw))] at hnb
  exact UInt32.toNat_inj.mp hnb

variable [DecidableEq τ]

/-- A worker moves within its part of the round. -/
theorem moveWithin (hs : Counted s) (hpc : s'.pc = Function.update s.pc w p)
    (hhalf : s'.status.half = s.status.half) (hr : s'.raised = s.raised)
    (hm : s'.master = s.master) (hn : s'.nbready = s.nbready)
    (ha : p.arrived s.status.half = (s.pc w).arrived s.status.half)
    (hl : p.isLast = (s.pc w).isLast) (hres : p.hasReset = (s.pc w).hasReset) : Counted s' := by
  refine ⟨?_, ?_, ?_⟩
  · rw [hpc, hhalf, hr, hm, countOf_update_of_eq ha, countOf_update_of_eq hl]
    exact hs.last
  · rw [hhalf, hr, hm]
    exact hs.busy
  · rw [hpc, hhalf, hn, countOf_update_of_eq ha, countOf_update_of_eq hres]
    exact hs.nbready

/-- The `fetch_add` of either half: the worker that fills the counter is the last. -/
theorem arrive {q r : WorkerPc} (hs : Counted s) (hn : Fintype.card τ = s.nbworkers.toNat)
    (hw : (s.pc w).arrived s.status.half = false)
    (hq : q.arrived s.status.half = true ∧ q.isLast = true ∧ q.hasReset = false)
    (hr : r.arrived s.status.half = true ∧ r.isLast = false ∧ r.hasReset = false)
    (hpc : s'.pc = Function.update s.pc w (if s.nbready + 1 = s.nbworkers then q else r))
    (hstatus : s'.status = s.status) (hraised' : s'.raised = s.raised)
    (hmaster : s'.master = s.master) (hnb' : s'.nbready = s.nbready + 1) : Counted s' := by
  obtain ⟨hl0, hr0, hnb, hlt⟩ := hs.waiting hw
  have hover : s.status.half ≠ .over := by
    intro hover
    rw [hover] at hw
    cases hw
  have hstep : (s.nbready + 1).toNat = s.nbready.toNat + 1 := by
    have := s.nbworkers.toNat_lt
    rw [UInt32.toNat_add, UInt32.toNat_one]
    omega
  have hlast : s.nbready + 1 = s.nbworkers ↔
      countOf (WorkerPc.arrived s.status.half) s.pc + 1 = Fintype.card τ := by
    rw [← UInt32.toNat_inj, hstep, hnb, hn]
  have hwl := countOf_eq_zero.mp hl0 w
  have hwr := countOf_eq_zero.mp hr0 w
  obtain ⟨hraised, hawake⟩ := hs.busy hover
  -- the worker that comes last is counted as last, the others only as arrived
  have key (x : WorkerPc) (hx : x.arrived s.status.half = true) (hxr : x.hasReset = false)
      (hxl : x.isLast.toNat =
        if countOf (WorkerPc.arrived s.status.half) s.pc + 1 = Fintype.card τ then 1 else 0)
      (hpc : s'.pc = Function.update s.pc w x) : Counted s' := by
    have ca := countOf_update (WorkerPc.arrived s.status.half) s.pc w x
    have cl := countOf_update WorkerPc.isLast s.pc w x
    have cr := countOf_update WorkerPc.hasReset s.pc w x
    rw [hw, hx, Bool.toNat_false, Bool.toNat_true] at ca
    rw [hwl, hl0, Bool.toNat_false] at cl
    rw [hwr, hxr, hr0, Bool.toNat_false] at cr
    rw [Nat.add_zero] at ca cr
    refine ⟨?_, ?_, ?_⟩
    · rw [hpc, hstatus, hraised', hmaster, hraised, hawake, ca, ← hxl]
      simp only [Bool.toNat_false, Nat.add_zero]
      omega
    · rw [hstatus, hraised', hmaster]
      exact fun _ => ⟨hraised, hawake⟩
    · rw [hpc, hstatus, cr, ca, hnb', hstep, hnb,
        if_neg (by rintro (hc | hc) <;> [exact hover hc; omega])]
  by_cases hc : s.nbready + 1 = s.nbworkers
  · rw [if_pos hc] at hpc
    refine key q hq.1 hq.2.2 ?_ hpc
    rw [hq.2.1, if_pos (hlast.mp hc)]
    rfl
  · rw [if_neg hc] at hpc
    refine key r hr.1 hr.2.2 ?_ hpc
    rw [hr.2.1, if_neg fun h => hc (hlast.mpr h)]
    rfl

/-- The last worker resets the counter. -/
theorem reset (hs : Counted s) (hw : (s.pc w).isLast = true)
    (ha : p.arrived s.status.half = true) (hl : p.isLast = true) (hr : p.hasReset = true)
    (hpc : s'.pc = Function.update s.pc w p) (hstatus : s'.status = s.status)
    (hraised : s'.raised = s.raised) (hmaster : s'.master = s.master) (hnb : s'.nbready = 0) :
    Counted s' := by
  obtain ⟨hall, -, -, -⟩ := hs.alone hw
  have hpos : 0 < countOf WorkerPc.hasReset s'.pc :=
    countOf_pos (t := w) (by rw [hpc, Function.update_self]; exact hr)
  refine ⟨?_, ?_, ?_⟩
  · rw [hpc, hstatus, hraised, hmaster, countOf_update_of_eq (hl.trans hw.symm),
      countOf_update_of_eq (ha.trans (hall w).symm)]
    exact hs.last
  · rw [hstatus, hraised, hmaster]
    exact hs.busy
  · rw [if_pos (.inr hpos), hnb]
    rfl

end Counted

/-! ## What the history says

How many rounds there were, and how often each worker has begun and ended its test, can be told
from what was seen. -/

section

variable [DecidableEq τ]

/-- The event is that `master_wait` returned. -/
def SyncEvent.isWaited {τ : Type} : SyncEvent τ → Bool
  | .waited _ => true
  | _ => false

/-- The event is that worker `w` called `worker_notify`. -/
def SyncEvent.isFinished (w : τ) : SyncEvent τ → Bool
  | .finished u _ => u == w
  | _ => false

/-- How many rounds the master has opened. -/
def rounds (h : List (SyncEvent τ)) : ℕ := h.count .notified

/-- How many times `master_wait` has returned. -/
def waits (h : List (SyncEvent τ)) : ℕ := h.countP SyncEvent.isWaited

/-- How many tests a worker has begun. -/
def runs (w : τ) (h : List (SyncEvent τ)) : ℕ := h.count (.running w)

/-- How many times it has called `worker_notify`. -/
def notifies (w : τ) (h : List (SyncEvent τ)) : ℕ := h.countP (SyncEvent.isFinished w)

/-- The errors that were passed to `worker_notify` in the last round. -/
def roundErrors {τ : Type} : List (SyncEvent τ) → List String
  | [] => []
  | .notified :: _ => []
  | .finished _ (some error) :: h => error :: roundErrors h
  | _ :: h => roundErrors h

/-- An event that changes neither the round nor the place of a worker in it. -/
def SyncEvent.isQuiet {τ : Type} : SyncEvent τ → Bool
  | .notified | .running _ | .finished _ _ => false
  | _ => true

variable {h : List (SyncEvent τ)} {e : SyncEvent τ}

omit [Fintype τ] in
theorem rounds_quiet (he : e.isQuiet = true) : rounds (e :: h) = rounds h := by
  cases e <;> first | rfl | exact absurd he Bool.false_ne_true

omit [Fintype τ] in
theorem runs_quiet (he : e.isQuiet = true) (u : τ) : runs u (e :: h) = runs u h := by
  cases e <;> first | exact absurd he Bool.false_ne_true | simp [runs]

omit [Fintype τ] in
theorem notifies_quiet (he : e.isQuiet = true) (u : τ) : notifies u (e :: h) = notifies u h := by
  cases e <;> first | exact absurd he Bool.false_ne_true | simp [notifies, SyncEvent.isFinished]

omit [Fintype τ] [DecidableEq τ] in
theorem roundErrors_quiet (he : e.isQuiet = true) : roundErrors (e :: h) = roundErrors h := by
  cases e <;> first | rfl | exact absurd he Bool.false_ne_true

omit [Fintype τ] in
@[simp] theorem rounds_notified : rounds (.notified :: h) = rounds h + 1 := by simp [rounds]

omit [Fintype τ] in
@[simp] theorem rounds_running (w : τ) : rounds (.running w :: h) = rounds h := by simp [rounds]

omit [Fintype τ] in
@[simp] theorem rounds_finished (w : τ) (error : Option String) :
    rounds (.finished w error :: h) = rounds h := by simp [rounds]

omit [Fintype τ] in
@[simp] theorem runs_notified (u : τ) : runs u (.notified :: h) = runs u h := by simp [runs]

omit [Fintype τ] in
@[simp] theorem runs_running (w u : τ) :
    runs u (.running w :: h) = runs u h + if w = u then 1 else 0 := by
  simp [runs, List.count_cons]

omit [Fintype τ] in
@[simp] theorem runs_finished (w u : τ) (error : Option String) :
    runs u (.finished w error :: h) = runs u h := by simp [runs]

omit [Fintype τ] in
@[simp] theorem notifies_notified (u : τ) : notifies u (.notified :: h) = notifies u h := by
  simp [notifies, SyncEvent.isFinished]

omit [Fintype τ] in
@[simp] theorem notifies_running (w u : τ) : notifies u (.running w :: h) = notifies u h := by
  simp [notifies, SyncEvent.isFinished]

omit [Fintype τ] in
@[simp] theorem notifies_finished (w u : τ) (error : Option String) :
    notifies u (.finished w error :: h) = notifies u h + if w = u then 1 else 0 := by
  simp [notifies, List.countP_cons, SyncEvent.isFinished]

omit [Fintype τ] [DecidableEq τ] in
/-- A call of `worker_notify` adds its error, if it has one. -/
theorem roundErrors_finished (w : τ) (error : Option String) :
    roundErrors (.finished w error :: h) = error.toList ++ roundErrors h := by
  cases error <;> rfl

end

/-! ## The invariant

A worker's program counter tells how many tests it has begun and ended, the status which half
the round is in, and the message what the tests have thrown. The invariant says so for all of
them at once. -/

/-- Where a worker that has begun `r` tests and ended `f` may be, in round `k`. -/
def Place (k r f : ℕ) : Half → WorkerPc → Prop
  | .gather, .waitLoad | .gather, .enter | .gather, .resetEnter | .gather, .storeRun
  | .gather, .waitRun | .run, .waitRun => r + 1 = k ∧ f + 1 = k
  | .run, .work => r = k ∧ f + 1 = k
  | .run, .storeErrmsg _ | .run, .storeAbort | .run, .leave | .run, .resetLeave
  | .run, .loadStatus | .run, .storeStatus _ | .run, .waitLoad | .run, .exited
  | .over, .stop | .over, .raise | .over, .waitLoad | .over, .exited => r = k ∧ f = k
  | _, _ => False

/-- About to tell the others of an error. -/
def WorkerPc.isStoring : WorkerPc → Bool
  | .storeErrmsg _ | .storeAbort => true
  | _ => false

/-- What a worker that is about to store something knows of the errors of the round. -/
def Tells (errors : List String) (status : Status) (errmsg : Option String) : WorkerPc → Prop
  | .storeErrmsg error => error ∈ errors
  | .storeAbort => ∃ error ∈ errors, errmsg = some error
  | .storeStatus failed => failed = true ↔ status = .abort
  | _ => True

/-- What the status says of the errors of the round. -/
def Reports {τ : Type} (errors : List String) (errmsg : Option String) (pc : τ → WorkerPc) :
    Status → Prop
  | .wait | .done => errors = []
  | .run => errors ≠ [] → ∃ w, (pc w).isStoring = true
  | .abort | .fail => ∃ error ∈ errors, errmsg = some error
  | .quit => True

section

variable [DecidableEq τ]

/-- Where the workers are, and how many tests they have begun. -/
structure InPlace (h : List (SyncEvent τ)) (s : Sync τ) : Prop where
  /-- where they may be -/
  place : ∀ w, Place (rounds h) (runs w h) (notifies w h) s.status.half (s.pc w)
  /-- how many tests -/
  count : ∀ w, s.count w = runs w h

/-- What is known of the errors of the round. -/
structure Told {τ : Type} (h : List (SyncEvent τ)) (s : Sync τ) : Prop where
  /-- what the status tells -/
  reports : Reports (roundErrors h) s.errmsg s.pc s.status
  /-- what the workers tell -/
  tells : ∀ w, Tells (roundErrors h) s.status s.errmsg (s.pc w)
  /-- an exception is an error -/
  threw : ∀ w, s.threw w = true → roundErrors h ≠ []
  /-- a worker ends after an exception, or when it is told to -/
  exited : ∀ w, s.pc w = .exited → s.threw w = true ∨ s.status = .quit

/-- Where the master may be, by the status and the difference between the rounds it has opened
and the rounds it has waited for. -/
def MasterPlace (rounds waits nbrounds : ℕ) (status : Status) : MasterPc → Prop
  | .storeWait => status = .done ∧ waits = rounds ∧ rounds < nbrounds
  | .start | .latch => status ≠ .quit ∧ waits + 1 = rounds
  | .loadStatus => (status = .done ∨ status = .fail) ∧ waits + 1 = rounds
  | .returnRuntime => status = .done ∧ waits + 1 = rounds
  | .returnErrmsg => status = .fail ∧ waits + 1 = rounds
  | .unreachable => False
  | .storeQuit => (status = .done ∨ status = .fail) ∧ waits = rounds
  | .join => status = .quit ∧ waits = rounds

/-- Where the master is, and what it has got. -/
structure Mastered (h : List (SyncEvent τ)) (s : Sync τ) : Prop where
  /-- where it may be -/
  place : MasterPlace (rounds h) (waits h) s.nbrounds s.status s.master
  /-- a verdict for each wait -/
  verdicts : s.verdicts.length = waits h
  /-- no round too many -/
  rounds_le : rounds h ≤ s.nbrounds

/-- What holds of the threads with this history. -/
structure SyncInv (h : List (SyncEvent τ)) (s : Sync τ) : Prop where
  /-- the counter and the status agree -/
  counted : Counted s
  /-- the workers are in their places -/
  placed : InPlace h s
  /-- the errors of the round are told -/
  told : Told h s
  /-- the master is where the round is -/
  mastered : Mastered h s

/-- A verdict for these errors: one of them, if there is any. -/
def Verdict.Fits (errors : List String) : Verdict → Prop
  | .runtime _ => errors = []
  | .error errmsg => ∃ error ∈ errors, errmsg = some error

/-- What an event that comes next tells of the history. -/
def InTurn (h : List (SyncEvent τ)) : SyncEvent τ → Prop
  | .waited v => (∀ w, runs w h = rounds h ∧ notifies w h = rounds h) ∧ waits h + 1 = rounds h ∧
    v.Fits (roundErrors h)
  | .running w => runs w h + 1 = rounds h ∧ waits h + 1 = rounds h
  | .unreachable => False
  | _ => True

/-! ## One step

Each part of the invariant is kept when no worker moves, or one of them moves within its half.
What is left are the accesses at which a half ends. -/

variable {h : List (SyncEvent τ)} {e : SyncEvent τ} {s s' : Sync τ} {w : τ} {p : WorkerPc}

omit [Fintype τ] in
/-- A worker moves, and its place in the round does not change. -/
theorem InPlace.move (hp : InPlace h s) (he : e.isQuiet = true)
    (hpc : s'.pc = Function.update s.pc w p) (hhalf : s'.status.half = s.status.half)
    (hcount : s'.count = s.count)
    (hw : Place (rounds h) (runs w h) (notifies w h) s.status.half p) : InPlace (e :: h) s' := by
  constructor
  · intro u
    rw [rounds_quiet he, runs_quiet he, notifies_quiet he, hhalf, hpc]
    obtain rfl | hu := eq_or_ne u w
    · rw [Function.update_self]
      exact hw
    · rw [Function.update_of_ne hu]
      exact hp.place u
  · intro u
    rw [runs_quiet he, hcount]
    exact hp.count u

omit [Fintype τ] in
/-- The places of the workers stay when none of them moves. -/
theorem InPlace.still (hp : InPlace h s) (he : e.isQuiet = true) (hpc : s'.pc = s.pc)
    (hhalf : s'.status.half = s.status.half) (hcount : s'.count = s.count) :
    InPlace (e :: h) s' := by
  constructor
  · intro u
    rw [rounds_quiet he, runs_quiet he, notifies_quiet he, hhalf, hpc]
    exact hp.place u
  · intro u
    rw [runs_quiet he, hcount]
    exact hp.count u

omit [Fintype τ] in
/-- A worker that moves elsewhere is not the one that has ended. -/
theorem exited_of_update {pc : τ → WorkerPc} {u : τ} (hp : p ≠ .exited)
    (hu : Function.update pc w p u = .exited) : pc u = .exited := by
  obtain rfl | hne := eq_or_ne u w
  · exact absurd ((Function.update_self ..).symm.trans hu) hp
  · rwa [Function.update_of_ne hne] at hu

omit [Fintype τ] in
/-- A worker that has nothing to tell is not the one that is about to tell. -/
theorem exists_isStoring_update {pc : τ → WorkerPc} (hno : (pc w).isStoring = false)
    (hu : ∃ u, (pc u).isStoring = true) :
    ∃ u, (Function.update pc w p u).isStoring = true := by
  obtain ⟨u, hu⟩ := hu
  have hne : u ≠ w := by
    rintro rfl
    exact Bool.false_ne_true (hno.symm.trans hu)
  exact ⟨u, by rwa [Function.update_of_ne hne]⟩

omit [Fintype τ] in
/-- A worker moves that has nothing to tell. -/
theorem Told.move (ht : Told h s) (he : roundErrors (e :: h) = roundErrors h)
    (hpc : s'.pc = Function.update s.pc w p) (hstatus : s'.status = s.status)
    (herr : s'.errmsg = s.errmsg) (hthrew : s'.threw = s.threw)
    (hno : (s.pc w).isStoring = false) (hp : Tells (roundErrors h) s.status s.errmsg p)
    (hexit : p = .exited → s.threw w = true ∨ s.status = .quit) : Told (e :: h) s' := by
  refine ⟨?_, ?_, ?_, ?_⟩
  · have hr := ht.reports
    rw [he, hstatus, herr, hpc]
    cases hs : s.status <;> rw [hs] at hr
    case run => exact fun hne => exists_isStoring_update hno (hr hne)
    all_goals exact hr
  · intro u
    rw [he, hstatus, herr, hpc]
    obtain rfl | hu := eq_or_ne u w
    · rw [Function.update_self]
      exact hp
    · rw [Function.update_of_ne hu]
      exact ht.tells u
  · rw [he, hthrew]
    exact ht.threw
  · intro u
    rw [hpc, hthrew, hstatus]
    obtain rfl | hu := eq_or_ne u w
    · rw [Function.update_self]
      exact hexit
    · rw [Function.update_of_ne hu]
      exact ht.exited u

omit [Fintype τ] [DecidableEq τ] in
/-- What the workers tell of the errors stays when none of them moves. -/
theorem Told.still (ht : Told h s) (he : roundErrors (e :: h) = roundErrors h)
    (hpc : s'.pc = s.pc) (hstatus : s'.status = s.status) (herr : s'.errmsg = s.errmsg)
    (hthrew : s'.threw = s.threw) : Told (e :: h) s' := by
  refine ⟨?_, ?_, ?_, ?_⟩
  · rw [he, hstatus, herr, hpc]
    exact ht.reports
  · intro u
    rw [he, hstatus, herr, hpc]
    exact ht.tells u
  · rw [he, hthrew]
    exact ht.threw
  · intro u
    rw [hpc, hthrew, hstatus]
    exact ht.exited u

omit [Fintype τ] [DecidableEq τ] in
theorem waits_of_not_waited (he : e.isWaited = false) : waits (e :: h) = waits h := by
  simp [waits, he]

omit [Fintype τ] [DecidableEq τ] in
@[simp] theorem waits_waited (v : Verdict) : waits (.waited v :: h) = waits h + 1 :=
  List.countP_cons_of_pos rfl

omit [Fintype τ] in
/-- The master does not move, and the status either. -/
theorem Mastered.still (hm : Mastered h s) (hr : rounds (e :: h) = rounds h)
    (he : e.isWaited = false) (hstatus : s'.status = s.status) (hmaster : s'.master = s.master)
    (hv : s'.verdicts = s.verdicts) (hn : s'.nbrounds = s.nbrounds) : Mastered (e :: h) s' := by
  refine ⟨?_, ?_, ?_⟩
  · rw [hr, waits_of_not_waited he, hstatus, hmaster, hn]
    exact hm.place
  · rw [waits_of_not_waited he, hv]
    exact hm.verdicts
  · rw [hr, hn]
    exact hm.rounds_le

omit [Fintype τ] in
/-- The master waits for the round to end, and the status changes. -/
theorem Mastered.asleep (hm : Mastered h s) (hr : rounds (e :: h) = rounds h)
    (he : e.isWaited = false) (hawake : s.master.awake = false) (hstatus : s'.status ≠ .quit)
    (hmaster : s'.master = s.master) (hv : s'.verdicts = s.verdicts)
    (hn : s'.nbrounds = s.nbrounds) : Mastered (e :: h) s' := by
  refine ⟨?_, ?_, ?_⟩
  · have hp := hm.place
    rw [hr, waits_of_not_waited he, hmaster, hn]
    cases hmp : s.master <;> rw [hmp] at hp hawake
    case start => exact ⟨hstatus, hp.2⟩
    case latch => exact ⟨hstatus, hp.2⟩
    all_goals cases hawake
  · rw [waits_of_not_waited he, hv]
    exact hm.verdicts
  · rw [hr, hn]
    exact hm.rounds_le

namespace SyncInv

/-- A worker moves, and nothing else does but the clock. -/
theorem move {c : Chrono} (hi : SyncInv h s) (he : e.isQuiet = true) (hew : e.isWaited = false)
    (hw : Place (rounds h) (runs w h) (notifies w h) s.status.half p)
    (ha : p.arrived s.status.half = (s.pc w).arrived s.status.half)
    (hl : p.isLast = (s.pc w).isLast) (hr : p.hasReset = (s.pc w).hasReset)
    (hno : (s.pc w).isStoring = false) (ht : Tells (roundErrors h) s.status s.errmsg p)
    (hexit : p = .exited → s.threw w = true ∨ s.status = .quit) :
    SyncInv (e :: h) ({ s with runtime := c }.moveTo w p) :=
  ⟨hi.counted.moveWithin rfl rfl rfl rfl rfl ha hl hr, hi.placed.move he rfl rfl rfl hw,
    hi.told.move (roundErrors_quiet he) rfl rfl rfl rfl hno ht hexit,
    hi.mastered.still (rounds_quiet he) hew rfl rfl rfl rfl⟩

/-- A step in which nothing moves keeps the invariant. -/
theorem idle (hi : SyncInv h s) : SyncInv (.silent :: h) s :=
  ⟨hi.counted, hi.placed.still rfl rfl rfl rfl, hi.told.still rfl rfl rfl rfl rfl,
    hi.mastered.still rfl rfl rfl rfl rfl rfl⟩

/-- The half of the round, told by the place of a worker. -/
theorem half_eq (hi : SyncInv h s) : match s.pc w with
    | .enter | .resetEnter | .storeRun => s.status.half = .gather
    | .work | .storeErrmsg _ | .storeAbort | .leave | .resetLeave | .loadStatus
    | .storeStatus _ => s.status.half = .run
    | .stop | .raise => s.status.half = .over
    | .waitLoad | .waitRun | .exited => True := by
  have hp := hi.placed.place w
  cases hs : s.status.half <;> cases hpc : s.pc w <;> rw [hs, hpc] at hp <;> trivial

/-- While the workers run, one that has ended has thrown. -/
theorem threw_of_exited (hi : SyncInv h s) (hhalf : s.status.half = .run) (hw : s.pc w = .exited) :
    s.threw w = true := by
  rcases hi.told.exited w hw with ht | hq
  · exact ht
  · rw [hq] at hhalf
    cases hhalf

/-! ### Coming together

The accesses of `worker_wait`: a worker finds the round open, arrives, and waits for the
others. The last one opens the tests. -/

/-- `worker_wait` finds `Status::Wait`. -/
theorem seen (hi : SyncInv h s) (hpc : s.pc w = .waitLoad) (hst : s.status = .wait) :
    SyncInv (.silent :: h) (s.moveTo w .enter) := by
  have hp := hi.placed.place w
  rw [hpc, hst] at hp
  refine hi.move rfl rfl ?_ ?_ (by rw [hpc]; rfl) (by rw [hpc]; rfl) (by rw [hpc]; rfl) trivial
    nofun
  · rw [hst]
    exact hp
  · rw [hpc, hst]
    rfl

/-- `worker_wait` finds `Status::Quit`. -/
theorem quits (hi : SyncInv h s) (hpc : s.pc w = .waitLoad) (hst : s.status = .quit) :
    SyncInv (.silent :: h) (s.moveTo w .exited) := by
  have hp := hi.placed.place w
  rw [hpc, hst] at hp
  refine hi.move rfl rfl ?_ ?_ (by rw [hpc]; rfl) (by rw [hpc]; rfl) (by rw [hpc]; rfl) trivial
    fun _ => .inr hst
  · rw [hst]
    exact hp
  · rw [hst]
    rfl

/-- The `fetch_add` of `worker_wait` keeps the invariant. -/
theorem enters (hi : SyncInv h s) (hn : Fintype.card τ = s.nbworkers.toNat)
    (hpc : s.pc w = .enter) :
    SyncInv (.silent :: h) ({ s with nbready := s.nbready + 1 }.moveTo w
      (if s.nbready + 1 = s.nbworkers then .resetEnter else .waitRun)) := by
  have hhalf := hi.half_eq (w := w)
  have hp := hi.placed.place w
  rw [hpc] at hhalf
  rw [hpc, hhalf] at hp
  refine ⟨hi.counted.arrive (q := .resetEnter) (r := .waitRun) (w := w) hn ?_ ?_ ?_ rfl rfl rfl
    rfl rfl, hi.placed.move rfl rfl rfl rfl ?_, hi.told.move rfl rfl rfl rfl rfl ?_ ?_ ?_,
    hi.mastered.still rfl rfl rfl rfl rfl rfl⟩
  · rw [hpc, hhalf]
    rfl
  · rw [hhalf]
    exact ⟨rfl, rfl, rfl⟩
  · rw [hhalf]
    exact ⟨rfl, rfl, rfl⟩
  · rw [hhalf]
    split <;> exact hp
  · rw [hpc]
    rfl
  · split <;> exact trivial
  · split <;> nofun

/-- The last worker to come resets the counter. -/
theorem resetsEnter (hi : SyncInv h s) (hpc : s.pc w = .resetEnter) :
    SyncInv (.silent :: h) ({ s with nbready := 0 }.moveTo w .storeRun) := by
  have hhalf := hi.half_eq (w := w)
  have hp := hi.placed.place w
  rw [hpc] at hhalf
  rw [hpc, hhalf] at hp
  refine ⟨hi.counted.reset (w := w) (p := .storeRun) (by rw [hpc]; rfl) (by rw [hhalf]; rfl) rfl
    rfl rfl rfl rfl rfl rfl, hi.placed.move rfl rfl rfl rfl (by rw [hhalf]; exact hp),
    hi.told.move rfl rfl rfl rfl rfl (by rw [hpc]; rfl) trivial nofun,
    hi.mastered.still rfl rfl rfl rfl rfl rfl⟩

/-- There is a test for a worker that comes out of `worker_wait`. -/
theorem count_lt (hi : SyncInv h s) (hr : runs w h + 1 = rounds h) : s.count w < s.nbrounds := by
  have hle := hi.mastered.rounds_le
  rw [hi.placed.count w]
  omega

omit [Fintype τ] in
theorem count_running (hc : ∀ u, s.count u = runs u h) (u : τ) :
    Function.update s.count w (s.count w + 1) u = runs u (.running w :: h) := by
  rw [runs_running]
  obtain rfl | hu := eq_or_ne u w
  · rw [Function.update_self, if_pos rfl, hc]
  · rw [Function.update_of_ne hu, if_neg (Ne.symm hu), hc, Nat.add_zero]

/-- While the workers come together, those that do not come last wait for `Status::Run`. -/
theorem others_waitRun (hi : SyncInv h s) (hw : (s.pc w).isLast = true)
    (hhalf : s.status.half = .gather) {u : τ} (hu : u ≠ w) : s.pc u = .waitRun := by
  obtain ⟨hall, hother, -, -⟩ := hi.counted.alone hw
  have ha := hall u
  have hl := hother u hu
  rw [hhalf] at ha
  cases hpc : s.pc u <;> rw [hpc] at ha hl <;>
    first
    | exact absurd ha Bool.false_ne_true
    | exact absurd hl Bool.false_ne_true.symm

/-- The last worker stores `Status::Run` and goes on to its test. -/
theorem opens (hi : SyncInv h s) (hpc : s.pc w = .storeRun) :
    SyncInv (.running w :: h) ({ s with
      status := .run, count := Function.update s.count w (s.count w + 1) }.moveTo w .work) := by
  have hhalf := hi.half_eq (w := w)
  have hp := hi.placed.place w
  rw [hpc] at hhalf
  rw [hpc, hhalf] at hp
  have hlast : (s.pc w).isLast = true := by
    rw [hpc]
    rfl
  have hothers (u : τ) (hu : u ≠ w) := hi.others_waitRun hlast hhalf hu
  obtain ⟨-, -, hraised, hawake⟩ := hi.counted.alone hlast
  have hnb : s.nbready = 0 := hi.counted.nbready_eq_zero (w := w) (by rw [hpc]; rfl)
  have hpc' (u : τ) : Function.update s.pc w .work u = .work ∨
      Function.update s.pc w .work u = .waitRun := by
    obtain rfl | hu := eq_or_ne u w
    · exact .inl (Function.update_self ..)
    · exact .inr ((Function.update_of_ne hu ..).trans (hothers u hu))
  refine ⟨Counted.nobody (Fintype.card_pos_iff.mpr ⟨w⟩) ?_ ?_ hraised hawake hnb,
    ⟨?_, count_running hi.placed.count⟩, ⟨?_, ?_, hi.told.threw, ?_⟩,
    hi.mastered.asleep (rounds_running w) rfl hawake (by rintro ⟨⟩) rfl rfl rfl⟩
  · intro u
    rcases hpc' u with hu | hu <;> simp only [Sync.moveTo, hu] <;> rfl
  · intro u
    rcases hpc' u with hu | hu <;> simp only [Sync.moveTo, hu] <;> rfl
  · intro u
    rw [rounds_running, runs_running, notifies_running]
    simp only [Sync.moveTo]
    obtain rfl | hu := eq_or_ne u w
    · rw [Function.update_self, if_pos rfl]
      exact ⟨hp.1, hp.2⟩
    · have hpu := hi.placed.place u
      rw [hothers u hu, hhalf] at hpu
      rw [Function.update_of_ne hu, hothers u hu, if_neg (Ne.symm hu), Nat.add_zero]
      exact hpu
  · -- nobody has had a chance to fail yet
    have hst : s.status = .wait := by
      cases hst : s.status <;> rw [hst] at hhalf <;> first | rfl | cases hhalf
    have hr := hi.told.reports
    rw [hst] at hr
    exact fun hne => absurd hr hne
  · intro u
    rcases hpc' u with hu | hu <;> simp only [Sync.moveTo, hu] <;> trivial
  · intro u
    rcases hpc' u with hu | hu <;> simp only [Sync.moveTo, hu] <;> rintro ⟨⟩

/-- Another worker than the last finds that the tests run, and the invariant is kept. -/
theorem proceeds (hi : SyncInv h s) (hpc : s.pc w = .waitRun) (hhalf : s.status.half = .run) :
    SyncInv (.running w :: h) ({ s with
      count := Function.update s.count w (s.count w + 1) }.moveTo w .work) := by
  have hp := hi.placed.place w
  rw [hpc, hhalf] at hp
  refine ⟨hi.counted.moveWithin (w := w) (p := .work) rfl rfl rfl rfl rfl ?_ (by rw [hpc]; rfl)
    (by rw [hpc]; rfl), ⟨fun u => ?_, count_running hi.placed.count⟩,
    hi.told.move rfl rfl rfl rfl rfl (by rw [hpc]; rfl) trivial nofun,
    hi.mastered.still (rounds_running w) rfl rfl rfl rfl rfl⟩
  · rw [hhalf, hpc]
    rfl
  · rw [rounds_running, runs_running, notifies_running]
    simp only [Sync.moveTo]
    obtain rfl | hu := eq_or_ne u w
    · rw [Function.update_self, if_pos rfl, hhalf]
      exact ⟨hp.1, hp.2⟩
    · rw [Function.update_of_ne hu, if_neg (Ne.symm hu), Nat.add_zero]
      exact hi.placed.place u

/-! ### The tests

A test returns an error or none, or it throws. A worker that has an error stores the message
before the status. -/

omit [Fintype τ] [DecidableEq τ] in
theorem tells_append {errors more : List String} {status : Status} {errmsg : Option String}
    (ht : Tells errors status errmsg p) : Tells (more ++ errors) status errmsg p := by
  cases p with
  | storeErrmsg error => exact List.mem_append_right _ ht
  | storeAbort =>
    obtain ⟨error, hmem, herr⟩ := ht
    exact ⟨error, List.mem_append_right _ hmem, herr⟩
  | storeStatus failed => exact ht
  | _ => exact trivial

/-- A test comes to its end, and the worker calls `worker_notify`. It has thrown if it is
among those that handle an exception now. -/
theorem finishes {error : Option String} {threw : τ → Bool} (hi : SyncInv h s)
    (hpc : s.pc w = .work) (hold : ∀ u, s.threw u = true → threw u = true)
    (hnew : ∀ u, threw u = true → s.threw u = true ∨ error ≠ none) :
    SyncInv (.finished w error :: h)
      ({ s with threw := threw }.moveTo w (Sync.workerNotify error)) := by
  have hhalf := hi.half_eq (w := w)
  have hp := hi.placed.place w
  rw [hpc] at hhalf
  rw [hpc, hhalf] at hp
  refine ⟨hi.counted.moveWithin (w := w) (p := Sync.workerNotify error) rfl rfl rfl rfl rfl
      ?_ ?_ ?_,
    ⟨?_, fun u => (hi.placed.count u).trans (runs_finished ..).symm⟩, ⟨?_, ?_, ?_, ?_⟩,
    hi.mastered.still (rounds_finished ..) rfl rfl rfl rfl rfl⟩
  · rw [hhalf, hpc]
    cases error <;> rfl
  · rw [hpc]
    cases error <;> rfl
  · rw [hpc]
    cases error <;> rfl
  · intro u
    rw [rounds_finished, runs_finished, notifies_finished]
    simp only [Sync.moveTo]
    obtain rfl | hu := eq_or_ne u w
    · rw [Function.update_self, if_pos rfl, hhalf]
      cases error <;> exact hp
    · rw [Function.update_of_ne hu, if_neg (Ne.symm hu), Nat.add_zero]
      exact hi.placed.place u
  · have hr := hi.told.reports
    rw [roundErrors_finished]
    simp only [Sync.moveTo]
    cases hst : s.status <;> rw [hst] at hr hhalf
    case run =>
      intro hne
      cases error with
      | some error => exact ⟨w, by rw [Function.update_self]; rfl⟩
      | none => exact exists_isStoring_update (by rw [hpc]; rfl) (hr hne)
    case abort =>
      obtain ⟨error', hmem, herr⟩ := hr
      exact ⟨error', List.mem_append_right _ hmem, herr⟩
    all_goals cases hhalf
  · intro u
    rw [roundErrors_finished]
    simp only [Sync.moveTo]
    obtain rfl | hu := eq_or_ne u w
    · rw [Function.update_self]
      cases error with
      | some error => exact List.mem_cons_self
      | none => trivial
    · rw [Function.update_of_ne hu]
      exact tells_append (hi.told.tells u)
  · intro u hu
    rw [roundErrors_finished]
    rcases hnew u hu with hu | herr
    · exact fun hc => hi.told.threw u hu (List.append_eq_nil_iff.mp hc).2
    · cases error with
      | some error => exact List.cons_ne_nil _ _
      | none => exact absurd rfl herr
  · intro u hu
    have hne : Sync.workerNotify error ≠ .exited := by
      cases error <;> rintro ⟨⟩
    exact (hi.told.exited u (exited_of_update hne hu)).imp_left (hold u)

/-- The store of an error message keeps the invariant. -/
theorem storesErrmsg {error : String} (hi : SyncInv h s) (hpc : s.pc w = .storeErrmsg error) :
    SyncInv (.silent :: h) ({ s with errmsg := some error }.moveTo w .storeAbort) := by
  have hhalf := hi.half_eq (w := w)
  have hp := hi.placed.place w
  have hmem := hi.told.tells w
  rw [hpc] at hhalf hmem
  rw [hpc, hhalf] at hp
  refine ⟨hi.counted.moveWithin (w := w) (p := .storeAbort) rfl rfl rfl rfl rfl ?_
    (by rw [hpc]; rfl) (by rw [hpc]; rfl), hi.placed.move rfl rfl rfl rfl (by rw [hhalf]; exact hp),
    ⟨?_, fun u => ?_, hi.told.threw, fun u hu => ?_⟩, hi.mastered.still rfl rfl rfl rfl rfl rfl⟩
  · rw [hhalf, hpc]
    rfl
  · have hr := hi.told.reports
    simp only [Sync.moveTo]
    cases hst : s.status <;> rw [hst] at hr hhalf
    case run => exact fun _ => ⟨w, by rw [Function.update_self]; rfl⟩
    case abort => exact ⟨error, hmem, rfl⟩
    all_goals cases hhalf
  · simp only [Sync.moveTo]
    obtain rfl | hu := eq_or_ne u w
    · rw [Function.update_self]
      exact ⟨error, hmem, rfl⟩
    · have ht := hi.told.tells u
      rw [Function.update_of_ne hu]
      cases hpu : s.pc u <;> rw [hpu] at ht
      case storeAbort => exact ⟨error, hmem, rfl⟩
      all_goals exact ht
  · exact hi.told.exited u (exited_of_update (by rintro ⟨⟩) hu)

/-- The store of `Status::Abort` keeps the invariant. -/
theorem storesAbort (hi : SyncInv h s) (hpc : s.pc w = .storeAbort) :
    SyncInv (.silent :: h) ({ s with status := .abort }.moveTo w .leave) := by
  have hhalf := hi.half_eq (w := w)
  have hp := hi.placed.place w
  have hmem := hi.told.tells w
  rw [hpc] at hhalf hmem
  rw [hpc, hhalf] at hp
  have hover : s.status.half ≠ .over := by
    rw [hhalf]
    nofun
  refine ⟨hi.counted.moveWithin (w := w) (p := .leave) rfl hhalf.symm rfl rfl rfl ?_
    (by rw [hpc]; rfl) (by rw [hpc]; rfl),
    hi.placed.move rfl rfl hhalf.symm rfl (by rw [hhalf]; exact hp),
    ⟨hmem, fun u => ?_, hi.told.threw, fun u hu => ?_⟩,
    hi.mastered.asleep rfl rfl (hi.counted.busy hover).2 nofun rfl rfl rfl⟩
  · rw [hhalf, hpc]
    rfl
  · simp only [Sync.moveTo]
    obtain rfl | hu := eq_or_ne u w
    · rw [Function.update_self]
      trivial
    · have ht := hi.told.tells u
      rw [Function.update_of_ne hu]
      cases hpu : s.pc u <;> rw [hpu] at ht
      case storeStatus failed =>
        -- all have arrived by then, this worker too
        have ha := (hi.counted.alone (w := u) (by rw [hpu]; rfl)).1 w
        rw [hhalf, hpc] at ha
        cases ha
      all_goals exact ht
  · exact .inl (hi.threw_of_exited hhalf (exited_of_update (by rintro ⟨⟩) hu))

/-! ### Coming to the end

The accesses of `worker_notify`: the last worker resets the counter, stores what the round has
come to, stops the clock and raises the latch. -/

omit [Fintype τ] [DecidableEq τ] in
/-- Where `worker_notify` returns to: the worker has thrown and ends, or it waits for the next
round. -/
theorem afterNotify_cases (s : Sync τ) (w : τ) :
    s.afterNotify w = .exited ∧ s.threw w = true ∨ s.afterNotify w = .waitLoad := by
  rw [Sync.afterNotify]
  split
  · rename_i ht
    exact .inl ⟨rfl, ht⟩
  · exact .inr rfl

/-- The `fetch_add` of `worker_notify`. -/
theorem leaves (hi : SyncInv h s) (hn : Fintype.card τ = s.nbworkers.toNat)
    (hpc : s.pc w = .leave) :
    SyncInv (.silent :: h) ({ s with nbready := s.nbready + 1 }.moveTo w
      (if s.nbready + 1 = s.nbworkers then .resetLeave else s.afterNotify w)) := by
  have hhalf := hi.half_eq (w := w)
  have hp := hi.placed.place w
  rw [hpc] at hhalf
  rw [hpc, hhalf] at hp
  have hafter := afterNotify_cases s w
  refine ⟨hi.counted.arrive (q := .resetLeave) (r := s.afterNotify w) (w := w) hn ?_ ?_ ?_ rfl rfl
    rfl rfl rfl, hi.placed.move rfl rfl rfl rfl ?_, hi.told.move rfl rfl rfl rfl rfl ?_ ?_ ?_,
    hi.mastered.still rfl rfl rfl rfl rfl rfl⟩
  · rw [hpc, hhalf]
    rfl
  · rw [hhalf]
    exact ⟨rfl, rfl, rfl⟩
  · rw [hhalf]
    rcases hafter with ⟨ha, -⟩ | ha <;> rw [ha] <;> exact ⟨rfl, rfl, rfl⟩
  · rw [hhalf]
    split
    · exact hp
    · rcases hafter with ⟨ha, -⟩ | ha <;> rw [ha] <;> exact hp
  · rw [hpc]
    rfl
  · split
    · exact trivial
    · rcases hafter with ⟨ha, -⟩ | ha <;> rw [ha] <;> exact trivial
  · split
    · nofun
    · rcases hafter with ⟨-, ht⟩ | ha
      · exact fun _ => .inl ht
      · rw [ha]
        nofun

/-- The last worker to leave resets the counter. -/
theorem resetsLeave (hi : SyncInv h s) (hpc : s.pc w = .resetLeave) :
    SyncInv (.silent :: h) ({ s with nbready := 0 }.moveTo w .loadStatus) := by
  have hhalf := hi.half_eq (w := w)
  have hp := hi.placed.place w
  rw [hpc] at hhalf
  rw [hpc, hhalf] at hp
  refine ⟨hi.counted.reset (w := w) (p := .loadStatus) (by rw [hpc]; rfl) (by rw [hhalf]; rfl) rfl
    rfl rfl rfl rfl rfl rfl, hi.placed.move rfl rfl rfl rfl (by rw [hhalf]; exact hp),
    hi.told.move rfl rfl rfl rfl rfl (by rw [hpc]; rfl) trivial nofun,
    hi.mastered.still rfl rfl rfl rfl rfl rfl⟩

/-- The last worker loads the status, and the invariant is kept. -/
theorem loadsStatus (hi : SyncInv h s) (hpc : s.pc w = .loadStatus) :
    SyncInv (.silent :: h) (s.moveTo w (.storeStatus (s.status == .abort))) := by
  have hhalf := hi.half_eq (w := w)
  have hp := hi.placed.place w
  rw [hpc] at hhalf
  rw [hpc, hhalf] at hp
  refine hi.move rfl rfl ?_ ?_ (by rw [hpc]; rfl) (by rw [hpc]; rfl) (by rw [hpc]; rfl)
    beq_iff_eq nofun
  · rw [hhalf]
    exact hp
  · rw [hhalf, hpc]
    rfl

/-- While the workers run, those that have arrived wait for the next round, or have ended. -/
theorem others_rest (hi : SyncInv h s) (hw : (s.pc w).isLast = true)
    (hhalf : s.status.half = .run) {u : τ} (hu : u ≠ w) :
    s.pc u = .waitLoad ∨ s.pc u = .exited := by
  obtain ⟨hall, hother, -, -⟩ := hi.counted.alone hw
  have ha := hall u
  have hl := hother u hu
  rw [hhalf] at ha
  cases hpc : s.pc u <;> rw [hpc] at ha hl
  case waitLoad => exact .inl rfl
  case exited => exact .inr rfl
  all_goals
    first
    | exact absurd ha Bool.false_ne_true
    | exact absurd hl Bool.false_ne_true.symm

/-- The last worker stores what the round has come to, and the invariant is kept. -/
theorem storesStatus {failed : Bool} (hi : SyncInv h s) (hpc : s.pc w = .storeStatus failed) :
    SyncInv (.silent :: h)
      ({ s with status := if failed = true then .fail else .done }.moveTo w .stop) := by
  have hhalf := hi.half_eq (w := w)
  have hp := hi.placed.place w
  have hfailed := hi.told.tells w
  rw [hpc] at hhalf hfailed
  rw [hpc, hhalf] at hp
  have hlast : (s.pc w).isLast = true := by
    rw [hpc]
    rfl
  have hothers (u : τ) (hu : u ≠ w) := hi.others_rest hlast hhalf hu
  obtain ⟨hall, hnone, hraised, hawake⟩ := hi.counted.alone hlast
  have hnb : s.nbready = 0 := hi.counted.nbready_eq_zero (w := w) (by rw [hpc]; rfl)
  have hover : (if failed = true then Status.fail else .done).half = .over := by
    split <;> rfl
  refine ⟨Counted.ended hover ?_ hnb, ⟨?_, hi.placed.count⟩, ⟨?_, ?_, hi.told.threw, ?_⟩,
    hi.mastered.asleep rfl rfl hawake ?_ rfl rfl rfl⟩
  · have hone := hi.counted.last
    rw [if_pos (countOf_eq_card.mpr hall)] at hone
    simp only [Sync.moveTo]
    rw [countOf_update_of_eq (hlast.symm ▸ rfl)]
    exact hone
  · intro u
    rw [rounds_quiet rfl, runs_quiet rfl, notifies_quiet rfl]
    simp only [Sync.moveTo]
    rw [hover]
    obtain rfl | hu := eq_or_ne u w
    · rw [Function.update_self]
      exact hp
    · have hpu := hi.placed.place u
      rw [Function.update_of_ne hu]
      rcases hothers u hu with h' | h' <;> rw [h', hhalf] at hpu <;> rw [h'] <;> exact hpu
  · have hr := hi.told.reports
    simp only [Sync.moveTo]
    cases failed with
    | true =>
      rw [hfailed.mp rfl] at hr
      exact hr
    | false =>
      have hst : s.status = .run := by
        cases hst : s.status <;> rw [hst] at hhalf hfailed
        case abort => exact absurd (hfailed.mpr rfl) Bool.false_ne_true
        all_goals cases hhalf
      rw [hst] at hr
      -- nobody is about to tell of an error any more
      show roundErrors h = []
      by_contra hne
      obtain ⟨u, hu⟩ := hr hne
      obtain rfl | hne := eq_or_ne u w
      · rw [hpc] at hu
        cases hu
      · rcases hothers u hne with h' | h' <;> rw [h'] at hu <;> cases hu
  · intro u
    simp only [Sync.moveTo]
    obtain rfl | hu := eq_or_ne u w
    · rw [Function.update_self]
      trivial
    · rw [Function.update_of_ne hu]
      rcases hothers u hu with h' | h' <;> rw [h'] <;> trivial
  · intro u hu
    exact .inl (hi.threw_of_exited hhalf (exited_of_update (by rintro ⟨⟩) hu))
  · simp only [Sync.moveTo]
    split <;> rintro ⟨⟩

/-- The last worker stops the clock, and the invariant is kept. -/
theorem stops {now : Tick} (hi : SyncInv h s) (hpc : s.pc w = .stop) :
    SyncInv (.stopped now :: h) ({ s with runtime := s.runtime.stop now }.moveTo w .raise) := by
  have hhalf := hi.half_eq (w := w)
  have hp := hi.placed.place w
  rw [hpc] at hhalf
  rw [hpc, hhalf] at hp
  refine hi.move rfl rfl ?_ ?_ (by rw [hpc]; rfl) (by rw [hpc]; rfl) (by rw [hpc]; rfl) trivial
    nofun
  · rw [hhalf]
    exact hp
  · rw [hhalf]
    rfl

/-- The last worker raises the latch, and the invariant is kept. -/
theorem raises (hi : SyncInv h s) (hpc : s.pc w = .raise) :
    SyncInv (.silent :: h) ({ s with raised := true }.moveTo w (s.afterNotify w)) := by
  have hhalf := hi.half_eq (w := w)
  have hp := hi.placed.place w
  rw [hpc] at hhalf
  rw [hpc, hhalf] at hp
  have hafter := afterNotify_cases s w
  have hlast : (s.pc w).isLast = true := by
    rw [hpc]
    rfl
  obtain ⟨-, -, hraised, hawake⟩ := hi.counted.alone hlast
  obtain ⟨hone, hnb⟩ := hi.counted.of_over hhalf
  refine ⟨Counted.ended hhalf ?_ hnb, hi.placed.move rfl rfl rfl rfl ?_,
    hi.told.move rfl rfl rfl rfl rfl (by rw [hpc]; rfl) ?_ ?_,
    hi.mastered.still rfl rfl rfl rfl rfl rfl⟩
  · have cl := countOf_update WorkerPc.isLast s.pc w (s.afterNotify w)
    have hl : (s.afterNotify w).isLast = false := by
      rcases hafter with ⟨ha, -⟩ | ha <;> rw [ha] <;> rfl
    rw [hlast, hl, Bool.toNat_true, Bool.toNat_false] at cl
    rw [hraised, hawake, Bool.toNat_false] at hone
    simp only [Sync.moveTo, hawake, Bool.toNat_true, Bool.toNat_false]
    omega
  · rw [hhalf]
    rcases hafter with ⟨ha, -⟩ | ha <;> rw [ha] <;> exact hp
  · rcases hafter with ⟨ha, -⟩ | ha <;> rw [ha] <;> exact trivial
  · rcases hafter with ⟨-, ht⟩ | ha
    · exact fun _ => .inl ht
    · rw [ha]
      rintro ⟨⟩

/-! ### The master

The master opens a round when every worker waits for one, and goes on when the latch is raised,
which the last worker does when all have ended their tests. -/

/-- A round that has not failed leaves every worker at its next `worker_wait`. -/
theorem all_waitLoad (hi : SyncInv h s) (hst : s.status = .done) (hm : s.master.awake = true)
    (u : τ) : s.pc u = .waitLoad := by
  have hp := hi.placed.place u
  have hl := hi.counted.none_last (.inr hm) u
  have hr := hi.told.reports
  rw [hst] at hp hr
  cases hpc : s.pc u <;> rw [hpc] at hp hl
  case exited =>
    rcases hi.told.exited u hpc with ht | hq
    · exact absurd hr (hi.told.threw u ht)
    · rw [hst] at hq
      cases hq
  all_goals
    first
    | exact hp.elim
    | exact absurd hl Bool.false_ne_true.symm

/-- `master_notify` opens a round, and the invariant is kept. -/
theorem notified (hi : SyncInv h s) (hpos : 0 < Fintype.card τ) (hm : s.master = .storeWait) :
    SyncInv (.notified :: h) { s with status := .wait, master := .start } := by
  have hmp := hi.mastered.place
  rw [hm] at hmp
  obtain ⟨hst, hwaits, hlt⟩ := hmp
  have hall := hi.all_waitLoad hst (by rw [hm]; rfl)
  obtain ⟨hone, hnb⟩ := hi.counted.of_over (by rw [hst]; rfl)
  have hraised : s.raised = false := by
    cases hr : s.raised with
    | false => rfl
    | true =>
      rw [hr, hm] at hone
      simp only [Bool.toNat_true, MasterPc.awake] at hone
      omega
  have herr : roundErrors h = [] := by
    have hr := hi.told.reports
    rw [hst] at hr
    exact hr
  refine ⟨Counted.nobody hpos (fun u => ?_) (fun u => ?_) hraised rfl hnb,
    ⟨fun u => ?_, fun u => (hi.placed.count u).trans (runs_notified u).symm⟩,
    ⟨rfl, fun u => ?_, fun u ht => absurd herr (hi.told.threw u ht), fun u hu => ?_⟩,
    ⟨⟨nofun, ?_⟩, ?_, ?_⟩⟩
  · simp only [hall u]
    rfl
  · simp only [hall u]
    rfl
  · have hp := hi.placed.place u
    rw [hall u, hst] at hp
    rw [rounds_notified, runs_notified, notifies_notified]
    simp only [hall u]
    exact ⟨congrArg (· + 1) hp.1, congrArg (· + 1) hp.2⟩
  · simp only [hall u]
    trivial
  · simp only [hall u] at hu
    cases hu
  · rw [rounds_notified, waits_of_not_waited rfl, hwaits]
  · rw [waits_of_not_waited rfl]
    exact hi.mastered.verdicts
  · rw [rounds_notified]
    exact hlt

/-- The master starts the clock, and the invariant is kept. -/
theorem starts {now : Tick} (hi : SyncInv h s) (hm : s.master = .start) :
    SyncInv (.started now :: h)
      { s with runtime := s.runtime.start now, master := .latch } := by
  have hmp := hi.mastered.place
  have hl := hi.counted.last
  have hb := hi.counted.busy
  rw [hm] at hmp hl hb
  exact ⟨⟨hl, hb, hi.counted.nbready⟩, hi.placed.still rfl rfl rfl rfl,
    hi.told.still rfl rfl rfl rfl rfl, ⟨hmp, hi.mastered.verdicts, hi.mastered.rounds_le⟩⟩

/-- The master finds the latch raised. -/
theorem wakes (hi : SyncInv h s) (hm : s.master = .latch) (hr : s.raised = true) :
    SyncInv (.silent :: h) { s with raised := false, master := .loadStatus } := by
  have hmp := hi.mastered.place
  rw [hm] at hmp
  have hover : s.status.half = .over := by
    by_contra hne
    have hb := (hi.counted.busy hne).1
    rw [hr] at hb
    cases hb
  obtain ⟨hone, hnb⟩ := hi.counted.of_over hover
  refine ⟨Counted.ended hover ?_ hnb, hi.placed.still rfl rfl rfl rfl,
    hi.told.still rfl rfl rfl rfl rfl, ⟨⟨?_, hmp.2⟩, hi.mastered.verdicts, hi.mastered.rounds_le⟩⟩
  · rw [hr, hm] at hone
    exact hone
  · cases hst : s.status <;> rw [hst] at hover hmp
    case done => exact .inl rfl
    case fail => exact .inr rfl
    case quit => exact absurd rfl hmp.1
    all_goals cases hover

/-- The master goes on, awake as before. -/
theorem moves {m : MasterPc} {verdicts : List Verdict} (hi : SyncInv h s)
    (hold : s.master.awake = true) (hnew : m.awake = true) (he : e.isQuiet = true)
    (hplace : MasterPlace (rounds h) (waits (e :: h)) s.nbrounds s.status m)
    (hv : verdicts.length = waits (e :: h)) :
    SyncInv (e :: h) { s with verdicts := verdicts, master := m } := by
  have hl := hi.counted.last
  have hb := hi.counted.busy
  rw [hold] at hl hb
  rw [← hnew] at hl hb
  refine ⟨⟨hl, hb, hi.counted.nbready⟩, hi.placed.still he rfl rfl rfl,
    hi.told.still (roundErrors_quiet he) rfl rfl rfl rfl, ⟨?_, hv, ?_⟩⟩
  · rw [rounds_quiet he]
    exact hplace
  · rw [rounds_quiet he]
    exact hi.mastered.rounds_le

/-- `master_join` stores `Status::Quit`, and the invariant is kept. -/
theorem joins (hi : SyncInv h s) (hm : s.master = .storeQuit) :
    SyncInv (.silent :: h) { s with status := .quit, master := .join } := by
  have hmp := hi.mastered.place
  rw [hm] at hmp
  have hover : s.status.half = .over := by
    rcases hmp.1 with hst | hst <;> rw [hst] <;> rfl
  obtain ⟨hone, hnb⟩ := hi.counted.of_over hover
  rw [hm] at hone
  refine ⟨Counted.ended rfl hone hnb, hi.placed.still rfl rfl hover.symm rfl,
    ⟨trivial, ?_, hi.told.threw, fun u _ => .inr rfl⟩,
    ⟨⟨rfl, hmp.2⟩, hi.mastered.verdicts, hi.mastered.rounds_le⟩⟩
  intro u
  have hp := hi.placed.place u
  rw [hover] at hp
  cases hpc : s.pc u <;> rw [hpc] at hp <;> trivial

/-! ### All steps

The lemmas above are all the accesses there are. From them the invariant holds along every run,
and with it what `round_protocol` says. -/

/-- A worker that `worker_wait` lets go on has a test to run. -/
theorem proceed_eq (hi : SyncInv h s) (hr : runs w h + 1 = rounds h) (status : Status) :
    ({ s with status := status }.proceed w) = ({ s with
      status := status, count := Function.update s.count w (s.count w + 1) }.moveTo w .work,
      .running w) := by
  rw [Sync.proceed, if_pos (hi.count_lt hr)]

/-- Once a round is over every worker has run and ended as many tests as there are rounds. -/
theorem all_done (hi : SyncInv h s) (hover : s.status.half = .over) (u : τ) :
    runs u h = rounds h ∧ notifies u h = rounds h := by
  have hp := hi.placed.place u
  rw [hover] at hp
  cases hpc : s.pc u <;> rw [hpc] at hp
  case waitLoad => exact hp
  case exited => exact hp
  case stop => exact hp
  case raise => exact hp
  all_goals exact hp.elim

/-- While a round is not over the master waits for it. -/
theorem waits_lt (hi : SyncInv h s) (hhalf : s.status.half ≠ .over) :
    waits h + 1 = rounds h := by
  have hmp := hi.mastered.place
  have hm := (hi.counted.busy hhalf).2
  cases hmaster : s.master <;> rw [hmaster] at hm hmp
  case start => exact hmp.2
  case latch => exact hmp.2
  all_goals cases hm

theorem masterStep (hi : SyncInv h s) (hpos : 0 < Fintype.card τ)
    (hs : s.masterStep = some (s', e)) : SyncInv (e :: h) s' ∧ InTurn h e := by
  rw [Sync.masterStep] at hs
  have hmp := hi.mastered.place
  cases hm : s.master <;> rw [hm] at hs hmp
  case storeWait =>
    obtain ⟨rfl, rfl⟩ := Prod.mk.inj (Option.some.inj hs)
    exact ⟨hi.notified hpos hm, trivial⟩
  case latch =>
    dsimp only at hs
    split at hs
    · rename_i hr
      obtain ⟨rfl, rfl⟩ := Prod.mk.inj (Option.some.inj hs)
      exact ⟨hi.wakes hm hr, trivial⟩
    · obtain ⟨rfl, rfl⟩ := Prod.mk.inj (Option.some.inj hs)
      exact ⟨hi.idle, trivial⟩
  case loadStatus =>
    obtain ⟨hst | hst, hwaits⟩ := hmp
    · have hs : some ({ s with master := .returnRuntime }, .silent) = some (s', e) := by
        rw [← hs, hst]
      obtain ⟨rfl, rfl⟩ := Prod.mk.inj (Option.some.inj hs)
      exact ⟨hi.moves (e := .silent) (by rw [hm]; rfl) rfl rfl ⟨hst, hwaits⟩ hi.mastered.verdicts,
        trivial⟩
    · have hs : some ({ s with master := .returnErrmsg }, .silent) = some (s', e) := by
        rw [← hs, hst]
      obtain ⟨rfl, rfl⟩ := Prod.mk.inj (Option.some.inj hs)
      exact ⟨hi.moves (e := .silent) (by rw [hm]; rfl) rfl rfl ⟨hst, hwaits⟩ hi.mastered.verdicts,
        trivial⟩
  case returnRuntime =>
    obtain ⟨rfl, rfl⟩ := Prod.mk.inj (Option.some.inj hs)
    have hv : (Verdict.runtime s.runtime :: s.verdicts).length =
        waits (.waited (.runtime s.runtime) :: h) := by
      rw [List.length_cons, hi.mastered.verdicts, waits_waited]
    have hr := hi.told.reports
    rw [hmp.1] at hr
    refine ⟨hi.moves (by rw [hm]; rfl) ?_ rfl ?_ hv,
      hi.all_done (by rw [hmp.1]; rfl), hmp.2, hr⟩
    · rw [Sync.nextRound]
      split <;> rfl
    · rw [hv, waits_waited, hmp.2, Sync.nextRound]
      split
      · rename_i hlt
        exact ⟨hmp.1, rfl, hlt⟩
      · exact ⟨.inl hmp.1, rfl⟩
  case returnErrmsg =>
    obtain ⟨rfl, rfl⟩ := Prod.mk.inj (Option.some.inj hs)
    have hr := hi.told.reports
    rw [hmp.1] at hr
    refine ⟨hi.moves (by rw [hm]; rfl) rfl rfl ?_ ?_, hi.all_done (by rw [hmp.1]; rfl), hmp.2, hr⟩
    · rw [waits_waited]
      exact ⟨.inr hmp.1, hmp.2⟩
    · rw [List.length_cons, hi.mastered.verdicts, waits_waited]
  case storeQuit =>
    obtain ⟨rfl, rfl⟩ := Prod.mk.inj (Option.some.inj hs)
    exact ⟨hi.joins hm, trivial⟩
  case unreachable => exact hmp.elim
  all_goals cases hs

theorem workerStep (hi : SyncInv h s) (hn : Fintype.card τ = s.nbworkers.toNat)
    (hs : s.workerStep w = some (s', e)) : SyncInv (e :: h) s' ∧ InTurn h e := by
  rw [Sync.workerStep] at hs
  have hp := hi.placed.place w
  have hhalf := hi.half_eq (w := w)
  cases hpc : s.pc w <;> rw [hpc] at hs hp hhalf
  case waitLoad =>
    cases hst : s.status <;> rw [hst] at hs <;>
      obtain ⟨rfl, rfl⟩ := Prod.mk.inj (Option.some.inj hs)
    case wait => exact ⟨hi.seen hpc hst, trivial⟩
    case quit => exact ⟨hi.quits hpc hst, trivial⟩
    all_goals exact ⟨hi.idle, trivial⟩
  case enter =>
    obtain ⟨rfl, rfl⟩ := Prod.mk.inj (Option.some.inj hs)
    exact ⟨hi.enters hn hpc, trivial⟩
  case resetEnter =>
    obtain ⟨rfl, rfl⟩ := Prod.mk.inj (Option.some.inj hs)
    exact ⟨hi.resetsEnter hpc, trivial⟩
  case storeRun =>
    rw [hhalf] at hp
    dsimp only at hs
    rw [hi.proceed_eq hp.1] at hs
    obtain ⟨rfl, rfl⟩ := Prod.mk.inj (Option.some.inj hs)
    exact ⟨hi.opens hpc, hp.1, hi.waits_lt (by rw [hhalf]; rintro ⟨⟩)⟩
  case waitRun =>
    -- the tests run, or they do not yet
    cases hst : s.status <;> rw [hst] at hs hp
    case run =>
      have hs := (congrArg some (hi.proceed_eq hp.1 s.status)).symm.trans hs
      obtain ⟨rfl, rfl⟩ := Prod.mk.inj (Option.some.inj hs)
      exact ⟨hi.proceeds hpc (by rw [hst]; rfl), hp.1, hi.waits_lt (by rw [hst]; rintro ⟨⟩)⟩
    case abort =>
      have hs := (congrArg some (hi.proceed_eq hp.1 s.status)).symm.trans hs
      obtain ⟨rfl, rfl⟩ := Prod.mk.inj (Option.some.inj hs)
      exact ⟨hi.proceeds hpc (by rw [hst]; rfl), hp.1, hi.waits_lt (by rw [hst]; rintro ⟨⟩)⟩
    all_goals
      obtain ⟨rfl, rfl⟩ := Prod.mk.inj (Option.some.inj hs)
      exact ⟨hi.idle, trivial⟩
  case storeErrmsg error =>
    obtain ⟨rfl, rfl⟩ := Prod.mk.inj (Option.some.inj hs)
    exact ⟨hi.storesErrmsg hpc, trivial⟩
  case storeAbort =>
    obtain ⟨rfl, rfl⟩ := Prod.mk.inj (Option.some.inj hs)
    exact ⟨hi.storesAbort hpc, trivial⟩
  case leave =>
    obtain ⟨rfl, rfl⟩ := Prod.mk.inj (Option.some.inj hs)
    exact ⟨hi.leaves hn hpc, trivial⟩
  case resetLeave =>
    obtain ⟨rfl, rfl⟩ := Prod.mk.inj (Option.some.inj hs)
    exact ⟨hi.resetsLeave hpc, trivial⟩
  case loadStatus =>
    obtain ⟨rfl, rfl⟩ := Prod.mk.inj (Option.some.inj hs)
    exact ⟨hi.loadsStatus hpc, trivial⟩
  case storeStatus failed =>
    obtain ⟨rfl, rfl⟩ := Prod.mk.inj (Option.some.inj hs)
    exact ⟨hi.storesStatus hpc, trivial⟩
  case raise =>
    obtain ⟨rfl, rfl⟩ := Prod.mk.inj (Option.some.inj hs)
    exact ⟨hi.raises hpc, trivial⟩
  all_goals cases hs

/-- Any step keeps the invariant, and what is seen of it comes in its turn. -/
theorem step {a : SyncAction τ} (hi : SyncInv h s) (hn : Fintype.card τ = s.nbworkers.toNat)
    (hpos : 0 < Fintype.card τ) (hs : s.step a = some (s', e)) :
    SyncInv (e :: h) s' ∧ InTurn h e := by
  cases a with
  | master => exact hi.masterStep hpos hs
  | start buf =>
    rw [Sync.step] at hs
    cases hm : s.master <;> rw [hm] at hs
    case start =>
      obtain ⟨rfl, rfl⟩ := Prod.mk.inj (Option.some.inj hs)
      exact ⟨hi.starts hm, trivial⟩
    all_goals cases hs
  | worker w => exact hi.workerStep hn hs
  | test w result =>
    rw [Sync.step.eq_def] at hs
    dsimp only at hs
    cases hpc : s.pc w <;> rw [hpc] at hs
    case work =>
      cases result with
      | returned error =>
        obtain ⟨rfl, rfl⟩ := Prod.mk.inj (Option.some.inj hs)
        exact ⟨hi.finishes hpc (fun _ ht => ht) fun _ ht => .inl ht, trivial⟩
      | threw =>
        obtain ⟨rfl, rfl⟩ := Prod.mk.inj (Option.some.inj hs)
        refine ⟨hi.finishes hpc ?_ fun _ _ => .inr (Option.some_ne_none _), trivial⟩
        intro u ht
        obtain rfl | hu := eq_or_ne u w
        · rw [Function.update_self]
        · rw [Function.update_of_ne hu]
          exact ht
    all_goals cases hs
  | stop w buf =>
    rw [Sync.step] at hs
    cases hpc : s.pc w <;> rw [hpc] at hs
    case stop =>
      obtain ⟨rfl, rfl⟩ := Prod.mk.inj (Option.some.inj hs)
      exact ⟨hi.stops hpc, trivial⟩
    all_goals cases hs

/-- The invariant holds before the first access. -/
theorem create {nbworkers : UInt32} {nbrounds : ℕ} {localTick : Tick} :
    SyncInv [] (Sync.create nbworkers nbrounds localTick : Sync τ) := by
  have hnone : countOf WorkerPc.isLast (fun _ : τ => WorkerPc.waitLoad) = 0 :=
    countOf_eq_zero.mpr fun _ => rfl
  refine ⟨Counted.ended rfl ?_ rfl, ⟨fun _ => ⟨rfl, rfl⟩, fun _ => rfl⟩,
    ⟨rfl, fun _ => trivial, nofun, nofun⟩, ⟨?_, rfl, Nat.zero_le _⟩⟩
  · simp only [Sync.create, hnone, Sync.nextRound]
    split <;> rfl
  · simp only [Sync.create, Sync.nextRound]
    split
    · rename_i hlt
      exact ⟨rfl, rfl, hlt⟩
    · exact ⟨.inl rfl, rfl⟩

/-- Every run keeps the invariant, and the number of workers. -/
theorem run {nbworkers : UInt32} {nbrounds : ℕ} {localTick : Tick}
    (hn : Fintype.card τ = nbworkers.toNat) (hpos : 1 ≤ nbworkers.toNat)
    (hr : Run Sync.step anyStep (Sync.create nbworkers nbrounds localTick) h s) :
    s.nbworkers = nbworkers ∧ SyncInv h s := by
  induction hr with
  | start => exact ⟨rfl, create⟩
  | next _ hs _ ih =>
    obtain ⟨hw, hi⟩ := ih
    refine ⟨(Sync.step_nbworkers hs).1.trans hw, (hi.step ?_ ?_ hs).1⟩
    · rw [hw]
      exact hn
    · rw [hn]
      exact hpos

/-- Every event of a run comes in its turn. -/
theorem inTurn {nbworkers : UInt32} {nbrounds : ℕ} {localTick : Tick}
    {later earlier : List (SyncEvent τ)} (hn : Fintype.card τ = nbworkers.toNat)
    (hpos : 1 ≤ nbworkers.toNat)
    (hr : Run Sync.step anyStep (Sync.create nbworkers nbrounds localTick)
      (later ++ e :: earlier) s) : InTurn earlier e := by
  obtain ⟨s₁, hr₁, -⟩ := hr.split
  obtain ⟨s₀, a, hr₀, hs, -⟩ := hr₁.last
  obtain ⟨hw, hi⟩ := run hn hpos hr₀
  refine (hi.step ?_ ?_ hs).2
  · rw [hw]
    exact hn
  · rw [hn]
    exact hpos

end SyncInv

/-- **The round protocol.** `master_wait` returns once every worker has run its test of the
round and called `worker_notify`, with an error of that round if there was one and with the
runtime otherwise; a worker runs one test in each round, and begins it when `master_wait` has
returned from the rounds before; and the status that `master_wait` does not expect is never
there. -/
theorem round_protocol {nbworkers : UInt32} {nbrounds : ℕ} {localTick : Tick}
    (hn : Fintype.card τ = nbworkers.toNat) (hpos : 1 ≤ nbworkers.toNat)
    (hr : Run Sync.step anyStep (Sync.create nbworkers nbrounds localTick) h s) :
    (∀ v later earlier, h = later ++ .waited v :: earlier →
      (∀ w, runs w earlier = rounds earlier ∧ notifies w earlier = rounds earlier) ∧
        waits earlier + 1 = rounds earlier ∧ v.Fits (roundErrors earlier)) ∧
    (∀ w later earlier, h = later ++ .running w :: earlier →
      runs w earlier + 1 = rounds earlier ∧ waits earlier + 1 = rounds earlier) ∧
    .unreachable ∉ h := by
  refine ⟨?_, ?_, ?_⟩
  · rintro v later earlier rfl
    exact SyncInv.inTurn hn hpos hr
  · rintro w later earlier rfl
    exact SyncInv.inTurn hn hpos hr
  · intro hmem
    obtain ⟨later, earlier, rfl⟩ := List.append_of_mem hmem
    exact SyncInv.inTurn hn hpos hr

/-- A round of two workers, whose tests return no error. -/
def quietRound : List (SyncAction (Fin 2)) :=
  [.master, .start (some ⟨0, 100⟩), .worker 0, .worker 0, .worker 1, .worker 1, .worker 1,
    .worker 1, .test 1 (.returned none), .worker 1, .worker 0, .test 0 (.returned none),
    .worker 0, .worker 0, .worker 0, .worker 0, .stop 0 (some ⟨0, 107⟩), .worker 0, .master,
    .master, .master]

/-- What was seen of the round above. -/
def quietHistory : List (SyncEvent (Fin 2)) :=
  [.waited (.runtime ⟨7, 100⟩), .silent, .silent, .silent, .stopped 107, .silent, .silent,
    .silent, .silent, .finished 0 none, .running 0, .silent, .finished 1 none, .running 1,
    .silent, .silent, .silent, .silent, .silent, .started 100, .notified]

/-- A round in which the test of worker 0 throws, and worker 1 is still waiting for
`Status::Run` when it does. -/
def throwingRound : List (SyncAction (Fin 2)) :=
  [.master, .worker 1, .worker 1, .worker 0, .start (some ⟨0, 110⟩), .worker 0, .worker 0,
    .worker 0, .test 0 .threw, .worker 0, .worker 0, .worker 1, .test 1 (.returned none),
    .worker 0, .worker 1, .worker 1, .worker 1, .worker 1, .stop 1 (some ⟨0, 115⟩), .worker 1,
    .master, .master, .master]

/-- What was seen of it, up to `master_wait`. -/
def throwingRoundHistory : List (SyncEvent (Fin 2)) :=
  [.silent, .silent, .silent, .stopped 115, .silent, .silent, .silent, .silent, .silent,
    .finished 1 none, .running 1, .silent, .silent, .finished 0 (some internalException),
    .running 0, .silent, .silent, .started 110, .silent, .silent, .silent, .notified]

/-- What was seen of the two, one after the other. -/
def throwingHistory : List (SyncEvent (Fin 2)) := throwingRoundHistory ++ quietHistory

/-- The second round of two workers ends with the error of the one that threw. -/
theorem round_protocol_throwing :
    ∃ s : Sync (Fin 2), Run Sync.step anyStep (Sync.create 2 2 0)
        (.waited (.error (some internalException)) :: throwingHistory) s ∧
      (∀ w, runs w throwingHistory = 2 ∧ notifies w throwingHistory = 2) ∧
      (Verdict.error (some internalException)).Fits (roundErrors throwingHistory) := by
  obtain ⟨s, hr⟩ : ∃ s : Sync (Fin 2), Run Sync.step anyStep (Sync.create 2 2 0)
      (.waited (.error (some internalException)) :: throwingHistory) s :=
    Run.of_history (quietRound ++ throwingRound) (by decide +kernel)
  obtain ⟨hwaited, -, -⟩ := round_protocol (by decide) (by decide) hr
  obtain ⟨hall, -, hfits⟩ := hwaited _ [] _ rfl
  have hrounds : rounds throwingHistory = 2 := by decide +kernel
  exact ⟨s, hr, fun w => ⟨(hall w).1.trans hrounds, (hall w).2.trans hrounds⟩, hfits⟩

end

end DualStm
