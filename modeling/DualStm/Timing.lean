import DualStm.Rounds
import Mathlib.Algebra.BigOperators.Group.List.Basic
import Mathlib.Algebra.Order.Group.Nat

/-!
# The times of the rounds

One `Chrono` times all rounds. It adds the duration of each to its total, and nothing sets
the total back: `master_wait` returns the time of all the rounds so far, and `measure` reports
that. The rounds are timed one by one exactly when all of them but the last took no time.

The history tells the durations. `ClockPhase` is how far a round has come with its readings of
the clock; the states of the master and the workers bear it out as long as the master starts
the clock before the last worker stops it.
-/

namespace DualStm

variable {τ : Type}

/-! ## What the clock said

The readings of the clock are on the history. The time of a round is between the reading after
its `master_notify` and the one before its `master_wait` returns. -/

/-- The readings of the clock, the last one first. -/
def readings : List (SyncEvent τ) → List Tick
  | [] => []
  | .started now :: h | .stopped now :: h => now :: readings h
  | _ :: h => readings h

/-- The clock at the last `master_notify`. -/
def lastStart : List (SyncEvent τ) → Tick
  | [] => 0
  | .started now :: _ => now
  | _ :: h => lastStart h

/-- The clock at the `worker_notify` that was the last one of its round. -/
def lastStop : List (SyncEvent τ) → Tick
  | [] => 0
  | .stopped now :: _ => now
  | _ :: h => lastStop h

/-- The durations of the rounds, the last one first. -/
def durations : List (SyncEvent τ) → List Tick
  | [] => []
  | .stopped now :: h => (now - lastStart h) :: durations h
  | _ :: h => durations h

/-- The clock does not run backwards, it does not fail, and the master starts it in each
round before the last worker stops it. -/
def Timed : Discipline (Sync τ) (SyncEvent τ) := fun h s e =>
  match e with
  | .started now => (∀ t ∈ readings h, t ≤ now) ∧ now ≠ invalidTick
  | .stopped now => (∀ t ∈ readings h, t ≤ now) ∧ now ≠ invalidTick ∧ s.master ≠ .start
  | _ => True

-- the readings are looked at, not all ticks there are
instance (h : List (SyncEvent τ)) (s : Sync τ) (e : SyncEvent τ) : Decidable (Timed h s e) :=
  match e with
  | .started now => @instDecidableAnd _ _ (List.decidableBAll (· ≤ now) _) inferInstance
  | .stopped now => @instDecidableAnd _ _ (List.decidableBAll (· ≤ now) _) inferInstance
  | .notified | .waited _ | .unreachable | .running _ | .finished _ _ | .silent =>
    inferInstanceAs (Decidable True)

/-! ## What `measure` makes of it

`measure` takes the tick counts of all rounds and returns the first, the median of those in the
middle, and the last. -/

/-- The tick count that `master_wait` returned, unless it returned an error. -/
def Verdict.tick : Verdict → Option Tick
  | .runtime c => some c.getTick
  | .error _ => none

/-- The three times that `measure` returns. -/
structure Times where
  /-- `time_init` -/
  timeInit : Tick
  /-- `times[posmedian]` -/
  timePerf : Tick
  /-- `time_chck` -/
  timeChck : Tick
  deriving DecidableEq

/-- `nth_element`: what it leaves at position `n`. -/
def nthElement (times : List Tick) (n : ℕ) : Option Tick :=
  (times.insertionSort (· ≤ ·))[n]?

/-- The times of `measure`, from the tick counts of its rounds. -/
def timesOf (nbrepeats : ℕ) : List Tick → Option Times
  | [] => none
  | timeInit :: ticks =>
    match nthElement (ticks.take nbrepeats) (nbrepeats / 2), ticks[nbrepeats]? with
    | some timePerf, some timeChck => some ⟨timeInit, timePerf, timeChck⟩
    | _, _ => none

/-- The times that `measure` returns, from what `master_wait` returned in its rounds; `none`
when a round failed, or is still to come. -/
def measureTimes (nbrepeats : ℕ) (verdicts : List Verdict) : Option Times :=
  if verdicts.all (fun v => v.tick.isSome) then timesOf nbrepeats (verdicts.filterMap Verdict.tick)
  else none

/-! ## The readings of a round

In a round the master reads the clock once and the last worker once, in this order. How far the
round is can be told from the history and from where the threads are. -/

/-- How far a round has come, by its readings of the clock. -/
inductive ClockPhase where
  /-- no round -/
  | idle
  /-- the master has opened it -/
  | opened
  /-- the master has started the clock -/
  | running
  /-- the last worker has stopped the clock -/
  | stopped
  deriving DecidableEq

/-- How far the round has come, by the history. -/
def clockPhase : List (SyncEvent τ) → ClockPhase
  | [] => .idle
  | .notified :: _ => .opened
  | .started _ :: _ => .running
  | .stopped _ :: _ => .stopped
  | .waited _ :: _ => .idle
  | _ :: h => clockPhase h

/-- The worker is about to stop the clock. -/
def WorkerPc.isStop : WorkerPc → Bool
  | .stop => true
  | _ => false

/-- The last worker has not stopped the clock. -/
def Sync.Unstopped (s : Sync τ) : Prop := s.status.half ≠ .over ∨ ∃ w, s.pc w = .stop

/-- What the place of the master says of the phase. -/
def Phased (phase : ClockPhase) (unstopped : Prop) : MasterPc → Prop
  | .storeWait | .storeQuit | .join | .unreachable => phase = .idle
  | .start => phase = .opened ∧ unstopped
  | .latch => (unstopped → phase = .running) ∧ (¬unstopped → phase = .stopped)
  | .loadStatus | .returnRuntime | .returnErrmsg => phase = .stopped

/-- An event that has nothing to do with the clock. -/
def SyncEvent.isTimeless : SyncEvent τ → Bool
  | .unreachable | .running _ | .finished _ _ | .silent => true
  | _ => false

/-- What a step does to the clock, the verdicts and the history of both. -/
inductive ClockMove (h : List (SyncEvent τ)) (s s' : Sync τ) : SyncEvent τ → Prop where
  /-- the master opens a round -/
  | notified (hphase : clockPhase h = .idle) (hrun : s'.runtime = s.runtime)
      (hv : s'.verdicts = s.verdicts) : ClockMove h s s' .notified
  /-- the master starts the clock -/
  | started {now : Tick} (hphase : clockPhase h = .opened)
      (hrun : s'.runtime = s.runtime.start now) (hv : s'.verdicts = s.verdicts) :
      ClockMove h s s' (.started now)
  /-- the last worker stops the clock -/
  | stopped {now : Tick} (hphase : clockPhase h = .running)
      (hrun : s'.runtime = s.runtime.stop now) (hv : s'.verdicts = s.verdicts) :
      ClockMove h s s' (.stopped now)
  /-- the master returns from `master_wait` -/
  | waited {v : Verdict} (hphase : clockPhase h = .stopped) (hrun : s'.runtime = s.runtime)
      (hc : ∀ c, v = .runtime c → c = s.runtime) (hv : s'.verdicts = v :: s.verdicts) :
      ClockMove h s s' (.waited v)
  /-- the step has nothing to do with the clock -/
  | other {e : SyncEvent τ} (he : e.isTimeless = true)
      (hrun : s'.runtime = s.runtime) (hv : s'.verdicts = s.verdicts) : ClockMove h s s' e

theorem clockPhase_timeless {h : List (SyncEvent τ)} {e : SyncEvent τ}
    (he : e.isTimeless = true) : clockPhase (e :: h) = clockPhase h := by
  cases e <;> first | rfl | cases he

section

variable [Fintype τ] [DecidableEq τ] {h : List (SyncEvent τ)} {e : SyncEvent τ} {s s' : Sync τ}
  {w : τ} {p : WorkerPc}

omit [Fintype τ] in
/-- A move that is neither to nor from the stop of the clock. -/
theorem unstopped_update (hpc : s'.pc = Function.update s.pc w p)
    (hhalf : s'.status.half = s.status.half) (hp : p.isStop = false)
    (hw : (s.pc w).isStop = false) : s'.Unstopped ↔ s.Unstopped := by
  have hne {p : WorkerPc} (hp : p.isStop = false) : p ≠ .stop := by
    rintro rfl
    cases hp
  have hstop (u : τ) : s'.pc u = .stop ↔ s.pc u = .stop := by
    rw [hpc]
    obtain rfl | hu := eq_or_ne u w
    · rw [Function.update_self]
      exact iff_of_false (hne hp) (hne hw)
    · rw [Function.update_of_ne hu]
  rw [Sync.Unstopped, Sync.Unstopped, hhalf]
  simp only [hstop]

/-- An access of a worker does not touch the clock. -/
theorem workerStep_clock (hi : SyncInv h s) (hs : s.workerStep w = some (s', e)) :
    (e.isTimeless = true ∧ s'.master = s.master ∧ s'.runtime = s.runtime ∧
      s'.verdicts = s.verdicts) ∧ (s'.Unstopped ↔ s.Unstopped) := by
  rw [Sync.workerStep] at hs
  have hp := hi.placed.place w
  have hhalf := hi.half_eq (w := w)
  cases hpc : s.pc w <;> rw [hpc] at hs hp hhalf
  case waitLoad =>
    cases hst : s.status <;> rw [hst] at hs <;>
      obtain ⟨rfl, rfl⟩ := Prod.mk.inj (Option.some.inj hs)
    case wait => exact ⟨⟨rfl, rfl, rfl, rfl⟩, unstopped_update rfl rfl rfl (by rw [hpc]; rfl)⟩
    case quit => exact ⟨⟨rfl, rfl, rfl, rfl⟩, unstopped_update rfl rfl rfl (by rw [hpc]; rfl)⟩
    all_goals exact ⟨⟨rfl, rfl, rfl, rfl⟩, Iff.rfl⟩
  case storeRun =>
    rw [hhalf] at hp
    dsimp only at hs
    rw [hi.proceed_eq hp.1] at hs
    obtain ⟨rfl, rfl⟩ := Prod.mk.inj (Option.some.inj hs)
    have hover : s.status.half ≠ .over := by
      rw [hhalf]
      rintro ⟨⟩
    exact ⟨⟨rfl, rfl, rfl, rfl⟩, iff_of_true (.inl (by rintro ⟨⟩)) (.inl hover)⟩
  case waitRun =>
    cases hst : s.status <;> rw [hst] at hs hp
    case run =>
      have hs := (congrArg some (hi.proceed_eq hp.1 s.status)).symm.trans hs
      obtain ⟨rfl, rfl⟩ := Prod.mk.inj (Option.some.inj hs)
      exact ⟨⟨rfl, rfl, rfl, rfl⟩, unstopped_update rfl rfl rfl (by rw [hpc]; rfl)⟩
    case abort =>
      have hs := (congrArg some (hi.proceed_eq hp.1 s.status)).symm.trans hs
      obtain ⟨rfl, rfl⟩ := Prod.mk.inj (Option.some.inj hs)
      exact ⟨⟨rfl, rfl, rfl, rfl⟩, unstopped_update rfl rfl rfl (by rw [hpc]; rfl)⟩
    all_goals
      obtain ⟨rfl, rfl⟩ := Prod.mk.inj (Option.some.inj hs)
      exact ⟨⟨rfl, rfl, rfl, rfl⟩, Iff.rfl⟩
  case storeStatus failed =>
    obtain ⟨rfl, rfl⟩ := Prod.mk.inj (Option.some.inj hs)
    have hover : s.status.half ≠ .over := by
      rw [hhalf]
      rintro ⟨⟩
    exact ⟨⟨rfl, rfl, rfl, rfl⟩, iff_of_true (.inr ⟨w, Function.update_self ..⟩) (.inl hover)⟩
  case enter =>
    obtain ⟨rfl, rfl⟩ := Prod.mk.inj (Option.some.inj hs)
    refine ⟨⟨rfl, rfl, rfl, rfl⟩, unstopped_update rfl rfl ?_ (by rw [hpc]; rfl)⟩
    split <;> rfl
  case storeAbort =>
    obtain ⟨rfl, rfl⟩ := Prod.mk.inj (Option.some.inj hs)
    exact ⟨⟨rfl, rfl, rfl, rfl⟩, unstopped_update rfl hhalf.symm rfl (by rw [hpc]; rfl)⟩
  case leave =>
    obtain ⟨rfl, rfl⟩ := Prod.mk.inj (Option.some.inj hs)
    refine ⟨⟨rfl, rfl, rfl, rfl⟩, unstopped_update rfl rfl ?_ (by rw [hpc]; rfl)⟩
    split
    · rfl
    · rcases SyncInv.afterNotify_cases s w with ⟨ha, -⟩ | ha <;> rw [ha] <;> rfl
  case raise =>
    obtain ⟨rfl, rfl⟩ := Prod.mk.inj (Option.some.inj hs)
    refine ⟨⟨rfl, rfl, rfl, rfl⟩, unstopped_update rfl rfl ?_ (by rw [hpc]; rfl)⟩
    rcases SyncInv.afterNotify_cases s w with ⟨ha, -⟩ | ha <;> rw [ha] <;> rfl
  case work => cases hs
  case stop => cases hs
  case exited => cases hs
  all_goals
    obtain ⟨rfl, rfl⟩ := Prod.mk.inj (Option.some.inj hs)
    exact ⟨⟨rfl, rfl, rfl, rfl⟩, unstopped_update rfl rfl rfl (by rw [hpc]; rfl)⟩

/-- An access of the master does one of these to the clock, and the phase follows it. -/
theorem masterStep_clock (hi : SyncInv h s)
    (hp : Phased (clockPhase h) s.Unstopped s.master) (hs : s.masterStep = some (s', e)) :
    ClockMove h s s' e ∧ Phased (clockPhase (e :: h)) s'.Unstopped s'.master := by
  rw [Sync.masterStep] at hs
  have hmp := hi.mastered.place
  cases hm : s.master <;> rw [hm] at hs hmp hp
  case storeWait =>
    obtain ⟨rfl, rfl⟩ := Prod.mk.inj (Option.some.inj hs)
    exact ⟨.notified hp rfl rfl, rfl, .inl (by rintro ⟨⟩)⟩
  case latch =>
    dsimp only at hs
    split at hs
    · rename_i hr
      obtain ⟨rfl, rfl⟩ := Prod.mk.inj (Option.some.inj hs)
      refine ⟨.other rfl rfl rfl, hp.2 ?_⟩
      -- the latch is raised after the clock has been stopped
      rintro (hhalf | ⟨w, hw⟩)
      · have hb := (hi.counted.busy hhalf).1
        rw [hr] at hb
        cases hb
      · have hl := hi.counted.none_last (.inl hr) w
        rw [hw] at hl
        cases hl
    · obtain ⟨rfl, rfl⟩ := Prod.mk.inj (Option.some.inj hs)
      refine ⟨.other rfl rfl rfl, ?_⟩
      rw [hm]
      exact hp
  case loadStatus =>
    have key (m : MasterPc) (hm : m = .returnRuntime ∨ m = .returnErrmsg)
        (hs : some ({ s with master := m }, .silent) = some (s', e)) :
        ClockMove h s s' e ∧ Phased (clockPhase (e :: h)) s'.Unstopped s'.master := by
      obtain ⟨rfl, rfl⟩ := Prod.mk.inj (Option.some.inj hs)
      refine ⟨.other rfl rfl rfl, ?_⟩
      rcases hm with rfl | rfl <;> exact hp
    obtain ⟨hst | hst, -⟩ := hmp
    · exact key _ (.inl rfl) (by rw [← hs, hst])
    · exact key _ (.inr rfl) (by rw [← hs, hst])
  case returnRuntime =>
    obtain ⟨rfl, rfl⟩ := Prod.mk.inj (Option.some.inj hs)
    refine ⟨.waited hp rfl (fun c hc => (Verdict.runtime.inj hc).symm) rfl, ?_⟩
    simp only [Sync.nextRound]
    split <;> rfl
  case returnErrmsg =>
    obtain ⟨rfl, rfl⟩ := Prod.mk.inj (Option.some.inj hs)
    exact ⟨.waited hp rfl (by rintro c ⟨⟩) rfl, rfl⟩
  case storeQuit =>
    obtain ⟨rfl, rfl⟩ := Prod.mk.inj (Option.some.inj hs)
    exact ⟨.other rfl rfl rfl, hp⟩
  case unreachable => exact hmp.elim
  all_goals cases hs

/-- What any step does to the clock is one of these, and the phase follows it. -/
theorem step_clock {a : SyncAction τ} (hi : SyncInv h s)
    (hp : Phased (clockPhase h) s.Unstopped s.master) (hs : s.step a = some (s', e))
    (hq : Timed h s e) :
    ClockMove h s s' e ∧ Phased (clockPhase (e :: h)) s'.Unstopped s'.master := by
  cases a with
  | master => exact masterStep_clock hi hp hs
  | start buf =>
    rw [Sync.step] at hs
    cases hm : s.master <;> rw [hm] at hs hp
    case start =>
      obtain ⟨rfl, rfl⟩ := Prod.mk.inj (Option.some.inj hs)
      exact ⟨.started hp.1 rfl rfl, fun _ => rfl, fun hno => absurd hp.2 hno⟩
    all_goals cases hs
  | worker w =>
    obtain ⟨⟨he, hm, hrun, hv⟩, hu⟩ := workerStep_clock hi hs
    refine ⟨.other he hrun hv, ?_⟩
    rw [clockPhase_timeless he, hm, propext hu]
    exact hp
  | test w result =>
    rw [Sync.step.eq_def] at hs
    dsimp only at hs
    cases hpc : s.pc w <;> rw [hpc] at hs
    case work =>
      have hne : (s.pc w).isStop = false := by
        rw [hpc]
        rfl
      have hu (threw : τ → Bool) (error : Option String) :
          ({ s with threw := threw }.moveTo w (Sync.workerNotify error)).Unstopped ↔
            s.Unstopped :=
        unstopped_update rfl rfl (by cases error <;> rfl) hne
      cases result with
      | returned error =>
        obtain ⟨rfl, rfl⟩ := Prod.mk.inj (Option.some.inj hs)
        exact ⟨.other rfl rfl rfl, (propext (hu s.threw error)).symm ▸ hp⟩
      | threw =>
        obtain ⟨rfl, rfl⟩ := Prod.mk.inj (Option.some.inj hs)
        refine ⟨.other rfl rfl rfl, ?_⟩
        rw [propext (hu _ _)]
        exact hp
    all_goals cases hs
  | stop w buf =>
    rw [Sync.step] at hs
    cases hpc : s.pc w <;> rw [hpc] at hs
    case stop =>
      obtain ⟨rfl, rfl⟩ := Prod.mk.inj (Option.some.inj hs)
      obtain ⟨-, hother, -, hawake⟩ := hi.counted.alone (w := w) (by rw [hpc]; rfl)
      have hhalf := hi.half_eq (w := w)
      rw [hpc] at hhalf
      have hlatch : s.master = .latch := by
        cases hm : s.master <;> rw [hm] at hawake
        case start => exact absurd hm hq.2.2
        all_goals cases hawake
      rw [hlatch] at hp
      refine ⟨.stopped (hp.1 (.inr ⟨w, hpc⟩)) rfl rfl, ?_⟩
      have hu : ¬({ s with runtime := s.runtime.stop (Chrono.convert buf) }.moveTo w
          .raise).Unstopped := by
        rintro (hne | ⟨u, hu⟩)
        · exact hne hhalf
        · simp only [Sync.moveTo] at hu
          obtain rfl | hne := eq_or_ne u w
          · rw [Function.update_self] at hu
            cases hu
          · rw [Function.update_of_ne hne] at hu
            have hl := hother u hne
            rw [hu] at hl
            cases hl
      simp only [Sync.moveTo, hlatch] at hu ⊢
      exact ⟨fun h => absurd h hu, fun _ => rfl⟩
    all_goals cases hs

end

/-! ## What the clock adds up to

The `Chrono` of `Sync` is stopped once in every round and never reset. So its total after a
round is the time of this round and of all before it. -/

/-- What `master_wait` has returned, the last verdict first. -/
def verdictsOf : List (SyncEvent τ) → List Verdict
  | [] => []
  | .waited v :: h => v :: verdictsOf h
  | _ :: h => verdictsOf h

/-- The time of all rounds, without an overflow. -/
def spent (h : List (SyncEvent τ)) : ℕ := ((durations h).map UInt64.toNat).sum

theorem lastStart_mem {h : List (SyncEvent τ)} (hphase : clockPhase h = .running) :
    lastStart h ∈ readings h := by
  induction h with
  | nil => cases hphase
  | cons e h ih =>
    cases e with
    | started now => exact List.mem_cons_self
    | unreachable => exact ih hphase
    | running w => exact ih hphase
    | finished w error => exact ih hphase
    | silent => exact ih hphase
    | notified => cases hphase
    | stopped now => cases hphase
    | waited v => cases hphase

/-- What the clock has been told, in every phase of a round. -/
structure TimeInv [DecidableEq τ] (h : List (SyncEvent τ)) (s : Sync τ) : Prop where
  /-- the total is the time of all rounds -/
  total : s.runtime.total.toNat = spent h
  /-- the clock runs from the start of the round -/
  localTick : clockPhase h = .running → s.runtime.localTick = lastStart h
  /-- the rounds before were over then -/
  spent_start : clockPhase h = .running → spent h ≤ (lastStart h).toNat
  /-- all rounds are over when the clock is read again -/
  spent_le : ∀ now, (∀ t ∈ readings h, t ≤ now) → spent h ≤ now.toNat
  /-- the last duration is that of the round -/
  own : clockPhase h = .stopped → ∃ ds, durations h = (lastStop h - lastStart h) :: ds
  /-- one duration for each round that `master_wait` has returned from, and this round -/
  length : (durations h).length = waits h + if clockPhase h = .stopped then 1 else 0
  /-- one round is open, or none -/
  opened : rounds h = waits h + if clockPhase h = .idle then 0 else 1
  /-- what has been returned -/
  verdicts : s.verdicts = verdictsOf h

section

variable [Fintype τ] [DecidableEq τ] {h : List (SyncEvent τ)} {e : SyncEvent τ} {s s' : Sync τ}

omit [Fintype τ] in
/-- A step that has nothing to do with the clock. -/
theorem TimeInv.cons_of_isTimeless (ht : TimeInv h s) (he : e.isTimeless = true)
    (hrun : s'.runtime = s.runtime) (hv : s'.verdicts = s.verdicts) : TimeInv (e :: h) s' := by
  have hd : durations (e :: h) = durations h ∧ lastStart (e :: h) = lastStart h ∧
      lastStop (e :: h) = lastStop h ∧ readings (e :: h) = readings h ∧
      verdictsOf (e :: h) = verdictsOf h := by
    cases e <;> first | exact ⟨rfl, rfl, rfl, rfl, rfl⟩ | cases he
  have hr : rounds (e :: h) = rounds h ∧ waits (e :: h) = waits h := by
    cases e <;>
      first
      | cases he; done
      | exact ⟨by simp [rounds], by simp [waits, SyncEvent.isWaited]⟩
  obtain ⟨hd, hstart, hstop, hread, hvs⟩ := hd
  obtain ⟨hr, hw⟩ := hr
  have hspent : spent (e :: h) = spent h := by rw [spent, hd, spent]
  have hphase := clockPhase_timeless (h := h) he
  refine ⟨?_, ?_, ?_, ?_, ?_, ?_, ?_, ?_⟩
  · rw [hrun, hspent]
    exact ht.total
  · rw [hrun, hphase, hstart]
    exact ht.localTick
  · rw [hspent, hphase, hstart]
    exact ht.spent_start
  · rw [hspent, hread]
    exact ht.spent_le
  · rw [hphase, hd, hstart, hstop]
    exact ht.own
  · rw [hd, hw, hphase]
    exact ht.length
  · rw [hr, hw, hphase]
    exact ht.opened
  · rw [hv, hvs]
    exact ht.verdicts

omit [Fintype τ] in
/-- A step that is timed keeps the times. -/
theorem TimeInv.step (ht : TimeInv h s) (hm : ClockMove h s s' e) (hq : Timed h s e) :
    TimeInv (e :: h) s' := by
  cases hm with
  | notified hphase hrun hv =>
    refine ⟨?_, nofun, nofun, ht.spent_le, nofun, ?_, ?_, ?_⟩
    · rw [hrun]
      exact ht.total
    · have hl := ht.length
      rw [hphase] at hl
      rw [waits_of_not_waited rfl]
      exact hl
    · have hr := ht.opened
      rw [hphase] at hr
      rw [rounds_notified, hr, waits_of_not_waited rfl]
      rfl
    · rw [hv]
      exact ht.verdicts
  | started hphase hrun hv =>
    refine ⟨?_, ?_, fun _ => ht.spent_le _ hq.1, fun now' hle => ?_, nofun, ?_, ?_, ?_⟩
    · rw [hrun]
      exact ht.total
    · rw [hrun]
      exact fun _ => rfl
    · exact ht.spent_le _ fun t htm => hle t (List.mem_cons_of_mem _ htm)
    · have hl := ht.length
      rw [hphase] at hl
      rw [waits_of_not_waited rfl]
      exact hl
    · have hr := ht.opened
      rw [hphase] at hr
      rw [rounds_quiet rfl, hr, waits_of_not_waited rfl]
      rfl
    · rw [hv]
      exact ht.verdicts
  | @stopped now hphase hrun hv =>
    have hle : lastStart h ≤ now := hq.1 _ (lastStart_mem hphase)
    have hstart := ht.spent_start hphase
    have hdelta : (now - lastStart h).toNat = now.toNat - (lastStart h).toNat :=
      UInt64.toNat_sub_of_le _ _ hle
    have hle' := UInt64.le_iff_toNat_le.mp hle
    have hspent : spent (.stopped now :: h) = spent h + (now - lastStart h).toNat := by
      rw [spent, durations, List.map_cons, List.sum_cons, spent, Nat.add_comm]
    refine ⟨?_, nofun, nofun, fun now' hle => ?_, fun _ => ⟨_, rfl⟩, ?_, ?_, ?_⟩
    · have hlt := now.toNat_lt
      rw [hrun, hspent]
      simp only [Chrono.stop, Chrono.delta, ht.localTick hphase]
      rw [UInt64.toNat_add, ht.total]
      omega
    · have hnow := UInt64.le_iff_toNat_le.mp (hle now List.mem_cons_self)
      rw [hspent]
      omega
    · have hl := ht.length
      rw [hphase] at hl
      rw [durations, List.length_cons, hl, waits_of_not_waited rfl]
      rfl
    · have hr := ht.opened
      rw [hphase] at hr
      rw [rounds_quiet rfl, hr, waits_of_not_waited rfl]
      rfl
    · rw [hv]
      exact ht.verdicts
  | waited hphase hrun hc hv =>
    refine ⟨?_, nofun, nofun, ht.spent_le, nofun, ?_, ?_, ?_⟩
    · rw [hrun]
      exact ht.total
    · have hl := ht.length
      rw [hphase] at hl
      rw [waits_waited]
      exact hl
    · have hr := ht.opened
      rw [hphase] at hr
      rw [rounds_quiet rfl, hr, waits_waited]
      rfl
    · rw [hv, ht.verdicts]
      rfl
  | other he hrun hv => exact ht.cons_of_isTimeless he hrun hv

omit [Fintype τ] in
/-- Before the first access nothing has been measured. -/
theorem TimeInv.create {nbworkers : UInt32} {nbrounds : ℕ} {localTick : Tick} :
    TimeInv [] (Sync.create nbworkers nbrounds localTick : Sync τ) :=
  ⟨rfl, nofun, nofun, fun _ _ => Nat.zero_le _, nofun, rfl, rfl, rfl⟩

/-- Every run that is timed keeps the phase and the times. -/
theorem TimeInv.run {nbworkers : UInt32} {nbrounds : ℕ} {localTick : Tick}
    (hn : Fintype.card τ = nbworkers.toNat) (hpos : 1 ≤ nbworkers.toNat)
    (hr : Run Sync.step Timed (Sync.create nbworkers nbrounds localTick) h s) :
    Phased (clockPhase h) s.Unstopped s.master ∧ TimeInv h s := by
  induction hr with
  | start =>
    refine ⟨?_, create⟩
    simp only [Sync.create, Sync.nextRound]
    split <;> rfl
  | next hr hs hq ih =>
    obtain ⟨hp, ht⟩ := ih
    obtain ⟨hm, hp'⟩ := step_clock (SyncInv.run hn hpos hr.any).2 hp hs hq
    exact ⟨hp', ht.step hm hq⟩

/-- What `master_wait` returns is the time of all rounds so far, and the last of them is the
one that it waited for. -/
theorem TimeInv.waited {nbworkers : UInt32} {nbrounds : ℕ} {localTick : Tick} {c : Chrono}
    {later earlier : List (SyncEvent τ)} (hn : Fintype.card τ = nbworkers.toNat)
    (hpos : 1 ≤ nbworkers.toNat)
    (hr : Run Sync.step Timed (Sync.create nbworkers nbrounds localTick)
      (later ++ .waited (.runtime c) :: earlier) s) :
    c.getTick.toNat = spent earlier ∧
      ∃ ds, durations earlier = (lastStop earlier - lastStart earlier) :: ds := by
  obtain ⟨s₁, hr₁, -⟩ := hr.split
  obtain ⟨s₀, a, hr₀, hs, hq⟩ := hr₁.last
  obtain ⟨hp, ht⟩ := run hn hpos hr₀
  obtain ⟨hm, -⟩ := step_clock (SyncInv.run hn hpos hr₀.any).2 hp hs hq
  cases hm with
  | waited hphase hrun hc hv =>
    rw [hc c rfl]
    exact ⟨ht.total, ht.own hphase⟩
  | other he => cases he

end

/-! ## Round by round

What `measure` takes for the time of a round is the total. It is the time of the round for
every round if and only if all rounds before the last one took none. -/

/-- Each tick count that `master_wait` has returned is the duration of its own round. -/
def OwnTimes (h : List (SyncEvent τ)) : Prop :=
  ∀ c later earlier, h = later ++ .waited (.runtime c) :: earlier →
    c.getTick = lastStop earlier - lastStart earlier

/-- The rounds before the last one that `master_wait` has returned from took no time. -/
def InstantBefore (h : List (SyncEvent τ)) : Prop :=
  ∀ c later earlier, h = later ++ .waited (.runtime c) :: earlier →
    ∀ d ∈ (durations earlier).tail, d = 0

theorem OwnTimes.tail {h : List (SyncEvent τ)} {e : SyncEvent τ} (ho : OwnTimes (e :: h)) :
    OwnTimes h := by
  rintro c later earlier rfl
  exact ho c (e :: later) earlier rfl

section

variable [Fintype τ] [DecidableEq τ] {h : List (SyncEvent τ)} {s : Sync τ}

/-- The tick counts of the rounds are their durations, if each is that of its own round. -/
theorem OwnTimes.ticks_eq {nbworkers : UInt32} {nbrounds : ℕ} {localTick : Tick}
    (hn : Fintype.card τ = nbworkers.toNat) (hpos : 1 ≤ nbworkers.toNat)
    (hr : Run Sync.step Timed (Sync.create nbworkers nbrounds localTick) h s) (ho : OwnTimes h)
    (hall : (verdictsOf h).all (fun v => v.tick.isSome) = true) :
    ∃ ds, durations h = ds ++ (verdictsOf h).filterMap Verdict.tick ∧
      ds.length = if clockPhase h = .stopped then 1 else 0 := by
  induction hr with
  | start => exact ⟨[], rfl, rfl⟩
  | @next h s s' a e hr hs hq ih =>
    obtain ⟨hp, ht⟩ := TimeInv.run hn hpos hr
    obtain ⟨hm, -⟩ := step_clock (SyncInv.run hn hpos hr.any).2 hp hs hq
    cases hm with
    | notified hphase =>
      obtain ⟨ds, hd, hlen⟩ := ih ho.tail hall
      rw [hphase] at hlen
      exact ⟨ds, hd, hlen⟩
    | started hphase =>
      obtain ⟨ds, hd, hlen⟩ := ih ho.tail hall
      rw [hphase] at hlen
      exact ⟨ds, hd, hlen⟩
    | @stopped now hphase =>
      obtain ⟨ds, hd, hlen⟩ := ih ho.tail hall
      rw [hphase] at hlen
      exact ⟨(now - lastStart h) :: ds, congrArg _ hd, congrArg (· + 1) hlen⟩
    | @waited v hphase =>
      have hall' := List.all_eq_true.mp hall
      obtain ⟨ds, hd, hlen⟩ := ih ho.tail
        (List.all_eq_true.mpr fun v hv => hall' v (List.mem_cons_of_mem _ hv))
      cases v with
      | runtime c =>
        obtain ⟨d, rfl⟩ := List.length_eq_one_iff.mp (hlen.trans (if_pos hphase))
        -- the round just waited for, and the tick count returned for it
        obtain ⟨ds', hd'⟩ := ht.own hphase
        have hc := ho c [] h rfl
        rw [hd'] at hd
        obtain ⟨rfl, rfl⟩ := List.cons.inj hd
        have hkeep : durations (.waited (.runtime c) :: h) = durations h := rfl
        refine ⟨[], ?_, rfl⟩
        rw [hkeep, hd', ← hc]
        rfl
      | error errmsg => cases hall' _ List.mem_cons_self
    | @other e he =>
      have hv : verdictsOf (e :: h) = verdictsOf h ∧ durations (e :: h) = durations h := by
        cases e <;> first | exact ⟨rfl, rfl⟩ | cases he
      rw [hv.1] at hall
      rw [hv.1, hv.2, clockPhase_timeless he]
      exact ih ho.tail hall

omit [Fintype τ] [DecidableEq τ] in
/-- `measure` needs the tick counts of all rounds, the two around the repeats included. -/
theorem length_of_timesOf {nbrepeats : ℕ} {ticks : List Tick} {t : Times}
    (ht : timesOf nbrepeats ticks = some t) : nbrepeats + 2 ≤ ticks.length := by
  cases ticks with
  | nil => cases ht
  | cons timeInit ticks =>
    rw [timesOf] at ht
    cases hget : ticks[nbrepeats]? with
    | none =>
      rw [hget] at ht
      cases hnth : nthElement (ticks.take nbrepeats) (nbrepeats / 2) <;> rw [hnth] at ht <;>
        cases ht
    | some timeChck =>
      have hlt := (List.getElem?_eq_some_iff.mp hget).1
      rw [List.length_cons]
      omega

/-- What `measure` returns is made of the durations of the rounds, if each tick count is that
of its own round. -/
theorem OwnTimes.measureTimes_eq {nbworkers : UInt32} {nbrepeats : ℕ} {localTick : Tick}
    {t : Times} (hn : Fintype.card τ = nbworkers.toNat) (hpos : 1 ≤ nbworkers.toNat)
    (hr : Run Sync.step Timed (Sync.create nbworkers (nbrepeats + 2) localTick) h s)
    (ho : OwnTimes h) (hm : measureTimes nbrepeats s.verdicts.reverse = some t) :
    timesOf nbrepeats (durations h).reverse = some t := by
  obtain ⟨-, ht⟩ := TimeInv.run hn hpos hr
  rw [measureTimes] at hm
  split at hm
  · rename_i hall
    rw [List.all_reverse, ht.verdicts] at hall
    rw [ht.verdicts, List.filterMap_reverse] at hm
    obtain ⟨ds, hd, hlen⟩ := ho.ticks_eq hn hpos hr hall
    have hlength := length_of_timesOf hm
    have hcount := ht.length
    have hopen := ht.opened
    have hle := (SyncInv.run hn hpos hr.any).2.mastered.rounds_le
    -- all rounds are over, and none of them is still to be waited for
    have hds : ds = [] := by
      rw [hd, List.length_append, hlen] at hcount
      rw [List.length_reverse] at hlength
      rw [Sync.run_nbrounds hr] at hle
      by_cases hidle : clockPhase h = .idle
      · rw [hidle] at hlen
        exact List.length_eq_zero_iff.mp hlen
      · rw [if_neg hidle] at hopen
        omega
    rw [hd, hds, List.nil_append]
    exact hm
  · cases hm

/-- A tick count is that of its round exactly when the rounds before took no time. -/
theorem getTick_eq_iff {nbworkers : UInt32} {nbrounds : ℕ} {localTick : Tick} {c : Chrono}
    {later earlier : List (SyncEvent τ)} (hn : Fintype.card τ = nbworkers.toNat)
    (hpos : 1 ≤ nbworkers.toNat)
    (hr : Run Sync.step Timed (Sync.create nbworkers nbrounds localTick)
      (later ++ .waited (.runtime c) :: earlier) s) :
    c.getTick = lastStop earlier - lastStart earlier ↔ ∀ d ∈ (durations earlier).tail, d = 0 := by
  obtain ⟨htick, ds, hds⟩ := TimeInv.waited hn hpos hr
  rw [spent, hds, List.map_cons, List.sum_cons] at htick
  have hzero : (ds.map UInt64.toNat).sum = 0 ↔ ∀ d ∈ ds, d = 0 := by
    rw [List.sum_eq_zero_iff, List.forall_mem_map]
    exact forall₂_congr fun d _ => UInt64.toNat_inj (b := 0)
  rw [hds, List.tail_cons, ← hzero, ← UInt64.toNat_inj, htick]
  omega

omit [Fintype τ] in
/-- Without workers no round ends, since nobody raises the latch. -/
theorem not_waited_of_isEmpty [IsEmpty τ] {nbworkers : UInt32} {nbrounds : ℕ} {localTick : Tick}
    {Q : Discipline (Sync τ) (SyncEvent τ)}
    (hr : Run Sync.step Q (Sync.create nbworkers nbrounds localTick) h s) :
    (∀ v, .waited v ∉ h) ∧ s.verdicts = [] ∧ s.raised = false ∧
      (s.master = .storeWait ∨ s.master = .start ∨ s.master = .latch ∨ s.master = .storeQuit ∨
        s.master = .join) := by
  induction hr with
  | start =>
    refine ⟨fun _ => List.not_mem_nil, rfl, rfl, ?_⟩
    simp only [Sync.create, Sync.nextRound]
    split
    · exact .inl rfl
    · exact .inr (.inr (.inr (.inl rfl)))
  | @next h s s' a e hr hs hq ih =>
    obtain ⟨hno, hv, hraised, hmaster⟩ := ih
    have hstill {e : SyncEvent τ} (he : e.isWaited = false) (v : Verdict) :
        .waited v ∉ e :: h := by
      intro hmem
      obtain rfl | hmem := List.mem_cons.mp hmem
      · cases he
      · exact hno v hmem
    cases a with
    | master =>
      rw [Sync.step, Sync.masterStep] at hs
      rcases hmaster with hm | hm | hm | hm | hm <;> rw [hm] at hs
      · obtain ⟨rfl, rfl⟩ := Prod.mk.inj (Option.some.inj hs)
        exact ⟨hstill rfl, hv, hraised,
          .inr (.inl rfl)⟩
      · cases hs
      · dsimp only at hs
        rw [hraised, if_neg Bool.false_ne_true] at hs
        obtain ⟨rfl, rfl⟩ := Prod.mk.inj (Option.some.inj hs)
        exact ⟨hstill rfl, hv, hraised,
          .inr (.inr (.inl hm))⟩
      · obtain ⟨rfl, rfl⟩ := Prod.mk.inj (Option.some.inj hs)
        exact ⟨hstill rfl, hv, hraised,
          .inr (.inr (.inr (.inr rfl)))⟩
      · cases hs
    | start buf =>
      rw [Sync.step] at hs
      split at hs
      · obtain ⟨rfl, rfl⟩ := Prod.mk.inj (Option.some.inj hs)
        exact ⟨hstill rfl, hv, hraised,
          .inr (.inr (.inl rfl))⟩
      · cases hs
    | worker w => exact isEmptyElim w
    | test w result => exact isEmptyElim w
    | stop w buf => exact isEmptyElim w

/-- **The times of the rounds.** Each `master_wait` returns the duration of its own round, and
`measure` the median of the durations of its runs and those of its two other rounds, exactly
when the rounds before the last one took no time. -/
theorem round_times_iff {nbworkers : UInt32} {nbrounds : ℕ} {localTick : Tick}
    (hn : Fintype.card τ = nbworkers.toNat)
    (hr : Run Sync.step Timed (Sync.create nbworkers nbrounds localTick) h s) :
    (OwnTimes h ∧ ∀ nbrepeats t, nbrounds = nbrepeats + 2 →
      measureTimes nbrepeats s.verdicts.reverse = some t →
        timesOf nbrepeats (durations h).reverse = some t) ↔ InstantBefore h := by
  rcases Nat.eq_zero_or_pos nbworkers.toNat with hzero | hpos
  · -- nobody works, and nothing is measured
    have : IsEmpty τ := Fintype.card_eq_zero_iff.mp (hn.trans hzero)
    obtain ⟨hno, hv, -⟩ := not_waited_of_isEmpty hr
    have hmem {v : Verdict} {later earlier : List (SyncEvent τ)}
        (heq : h = later ++ .waited v :: earlier) : False :=
      hno v (heq ▸ List.mem_append_right _ List.mem_cons_self)
    refine ⟨fun _ c later earlier heq => (hmem heq).elim,
      fun _ => ⟨fun c later earlier heq => (hmem heq).elim, fun nbrepeats t _ hm => ?_⟩⟩
    rw [hv] at hm
    cases hm
  · have hown : OwnTimes h ↔ InstantBefore h := by
      constructor
      · rintro ho c later earlier rfl
        exact (getTick_eq_iff hn hpos hr).mp (ho c later earlier rfl)
      · rintro hi c later earlier rfl
        exact (getTick_eq_iff hn hpos hr).mpr (hi c later earlier rfl)
    refine ⟨fun ho => hown.mp ho.1, fun hi => ⟨hown.mpr hi, ?_⟩⟩
    rintro nbrepeats t rfl hm
    exact (hown.mpr hi).measureTimes_eq hn hpos hr hm

omit [Fintype τ] [DecidableEq τ] in
/-- It is enough that every round before the last one took no time. -/
theorem InstantBefore.of_durations {h : List (SyncEvent τ)}
    (hd : ∀ d ∈ (durations h).tail, d = 0) : InstantBefore h := by
  rintro c later earlier rfl d hmem
  have hsuffix (later : List (SyncEvent τ)) :
      durations earlier <:+ durations (later ++ .waited (.runtime c) :: earlier) := by
    induction later with
    | nil => exact List.suffix_rfl
    | cons e later ih =>
      cases e
      case stopped => exact ih.trans (List.suffix_cons ..)
      all_goals exact ih
  obtain ⟨ds, hds⟩ := hsuffix later
  apply hd d
  rw [← hds]
  cases ds with
  | nil => exact hmem
  | cons d' ds => exact List.mem_append_right _ (List.mem_of_mem_tail hmem)

/-- A round of one worker, with what the clock says at its start and its end. -/
def alone (start stop : Tick) : List (SyncAction (Fin 1)) :=
  [.master, .start (some ⟨0, start⟩), .worker 0, .worker 0, .worker 0, .worker 0,
    .test 0 (.returned none), .worker 0, .worker 0, .worker 0, .worker 0,
    .stop 0 (some ⟨0, stop⟩), .worker 0, .master, .master, .master]

/-- What was seen of a run of one worker, with these readings of the clock. -/
def aloneHistory (total start stop : Tick) : List (SyncEvent (Fin 1)) :=
  [.waited (.runtime ⟨total, start⟩), .silent, .silent, .silent, .stopped stop, .silent, .silent,
    .silent, .silent, .finished 0 none, .running 0, .silent, .silent, .silent, .started start,
    .notified]

/-- Two rounds that are over at once, and one that is not. -/
def instantHistory : List (SyncEvent (Fin 1)) :=
  aloneHistory 20 120 140 ++ aloneHistory 0 110 110 ++ aloneHistory 0 100 100

/-- The rounds of the run above are timed well. -/
theorem round_times_iff_instant :
    ∃ s : Sync (Fin 1), Run Sync.step Timed (Sync.create 1 3 0) instantHistory s ∧
      measureTimes 1 s.verdicts.reverse = some ⟨0, 0, 20⟩ ∧
      timesOf 1 (durations instantHistory).reverse = some ⟨0, 0, 20⟩ := by
  obtain ⟨s, hr, hm⟩ : ∃ s : Sync (Fin 1),
      Run Sync.step Timed (Sync.create 1 3 0) instantHistory s ∧
        measureTimes 1 s.verdicts.reverse = some ⟨0, 0, 20⟩ :=
    Run.of_execUnder (alone 100 100 ++ alone 110 110 ++ alone 120 140) .start (by decide +kernel)
  have hzero : (durations instantHistory).tail = [0, 0] := by decide +kernel
  have htimed := (round_times_iff (by decide) hr).mpr (.of_durations (by simp [hzero]))
  exact ⟨s, hr, hm, htimed.2 1 _ rfl hm⟩

/-- Three rounds of 7, 5 and 20 ticks. -/
def accumulatingHistory : List (SyncEvent (Fin 1)) :=
  aloneHistory 32 120 140 ++ aloneHistory 12 110 115 ++ aloneHistory 7 100 107

/-- What `master_wait` returns for them is 7, 12 and 32, and `measure` returns the same. -/
theorem round_times_accumulate :
    ∃ s : Sync (Fin 1), Run Sync.step Timed (Sync.create 1 3 0) accumulatingHistory s ∧
      measureTimes 1 s.verdicts.reverse = some ⟨7, 12, 32⟩ ∧
      timesOf 1 (durations accumulatingHistory).reverse = some ⟨7, 5, 20⟩ ∧
      ¬OwnTimes accumulatingHistory := by
  obtain ⟨s, hr, hm⟩ : ∃ s : Sync (Fin 1),
      Run Sync.step Timed (Sync.create 1 3 0) accumulatingHistory s ∧
        measureTimes 1 s.verdicts.reverse = some ⟨7, 12, 32⟩ :=
    Run.of_execUnder (alone 100 107 ++ alone 110 115 ++ alone 120 140) .start (by decide +kernel)
  refine ⟨s, hr, hm, by decide +kernel, ?_⟩
  intro ho
  -- the second `master_wait`
  have hsecond := ho ⟨12, 110⟩ (aloneHistory 32 120 140) _ rfl
  revert hsecond
  decide +kernel

end

end DualStm
