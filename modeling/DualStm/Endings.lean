import DualStm.Library.Progress
import DualStm.Rounds

/-!
# A measurement comes to its end

`round_protocol` says what the threads of the grader see in a round, not that they get
through it. Here is why they do: apart from the loads of the loops that find nothing new,
every step of a thread brings it nearer to its end, and while the threads have not all
ended, one of them has such a step. So no wake-up is lost, and no worker waits for one that
has gone.
-/

namespace DualStm

/-- How many steps the master is from its next `master_notify`, or from its end. -/
def MasterPc.left : MasterPc → ℕ
  | .storeWait => 6
  | .start => 5
  | .latch => 4
  | .loadStatus => 3
  | .returnRuntime | .returnErrmsg => 2
  | .storeQuit => 1
  | .unreachable | .join => 0

/-- How many steps a worker is from its next test, and after it from the next `worker_wait`. -/
def WorkerPc.left : WorkerPc → ℕ
  | .work => 14
  | .storeErrmsg _ => 13
  | .storeAbort => 12
  | .leave => 11
  | .resetLeave => 10
  | .loadStatus => 9
  | .storeStatus _ => 8
  | .stop => 7
  | .raise => 6
  | .waitLoad => 5
  | .enter => 4
  | .resetEnter => 3
  | .storeRun | .waitRun => 2
  | .exited => 0

namespace Sync

variable {τ : Type} [DecidableEq τ]

/-- A load of a loop that finds what it found before. -/
def spins (s : Sync τ) : SyncAction τ → Bool
  | .master => s.master == .latch && !s.raised
  | .worker w =>
    match s.pc w with
    | .waitLoad => s.status != .wait && s.status != .quit
    | .waitRun => s.status != .run && s.status != .abort
    | _ => false
  | _ => false

/-- The steps of the threads, but for the loads that find nothing new. -/
def stride (s : Sync τ) (a : SyncAction τ) : Option (Sync τ × SyncEvent τ) :=
  if s.spins a = true then none else s.step a

/-- The steps that the master has before it. -/
def masterLeft (s : Sync τ) : ℕ := (s.nbrounds - s.verdicts.length) * 6 + s.master.left

/-- The steps that worker `w` has before it. -/
def workerLeft (s : Sync τ) (w : τ) : ℕ := (s.nbrounds - s.count w) * 14 + (s.pc w).left

/-- The steps that the master and all workers have before them. -/
def left [Fintype τ] (s : Sync τ) : ℕ := s.masterLeft + ∑ w, s.workerLeft w

variable {s s' : Sync τ} {e : SyncEvent τ} {a : SyncAction τ} {w : τ}

/-- A load that finds nothing new changes nothing. -/
theorem step_of_spins (hs : s.spins a = true) : s.step a = some (s, .silent) := by
  cases a with
  | master =>
    simp only [spins, Bool.and_eq_true, beq_iff_eq, Bool.not_eq_true'] at hs
    simp only [step, masterStep, hs.1, hs.2]
    rfl
  | worker w =>
    simp only [spins] at hs
    simp only [step, workerStep]
    cases hpc : s.pc w <;> rw [hpc] at hs
    case waitLoad | waitRun => cases hst : s.status <;> rw [hst] at hs <;> first | rfl | cases hs
    all_goals cases hs
  | start | test | stop => cases hs

/-! ## A step of a worker

Each access of a worker brings it nearer to its end, in its round or to the next one, and
leaves the master where it is. -/

/-- A worker goes on, and the rest stays as it is. -/
structure Onward (s s' : Sync τ) (w : τ) : Prop where
  /-- the master -/
  master : s'.master = s.master
  /-- the verdicts that the master has got stay -/
  verdicts : s'.verdicts = s.verdicts
  /-- the number of rounds it is to get stays -/
  nbrounds : s'.nbrounds = s.nbrounds
  /-- the other workers -/
  others : ∀ u, u ≠ w → s'.workerLeft u = s.workerLeft u
  /-- the worker has less before it -/
  lower : s'.workerLeft w < s.workerLeft w

omit [DecidableEq τ] in
theorem Onward.left_lt [Fintype τ] (ho : Onward s s' w) : s'.left < s.left := by
  have hm : s'.masterLeft = s.masterLeft := by
    rw [masterLeft, ho.master, ho.verdicts, ho.nbrounds]
    rfl
  have hw : ∑ u, s'.workerLeft u < ∑ u, s.workerLeft u :=
    sum_lt_of_member ho.lower fun u hu => (ho.others u hu).le
  rw [left, left, hm]
  omega

/-- A worker that moves to an access further on has less before it. -/
theorem Onward.moveTo {s₁ : Sync τ} {p : WorkerPc} (hm : s₁.master = s.master)
    (hv : s₁.verdicts = s.verdicts) (hn : s₁.nbrounds = s.nbrounds) (hc : s₁.count = s.count)
    (hpc : s₁.pc = s.pc) (hp : p.left < (s.pc w).left) : Onward s (s₁.moveTo w p) w := by
  refine ⟨hm, hv, hn, ?_, ?_⟩
  · intro u hu
    simp only [workerLeft, Sync.moveTo, Function.update_of_ne hu, hn, hc, hpc]
  · simp only [workerLeft, Sync.moveTo, Function.update_self, hn, hc]
    exact Nat.add_lt_add_left hp _

/-- A worker that goes to its next test, if there is one, has less before it. -/
theorem Onward.proceed {s₁ : Sync τ} (hm : s₁.master = s.master)
    (hv : s₁.verdicts = s.verdicts) (hn : s₁.nbrounds = s.nbrounds) (hc : s₁.count = s.count)
    (hpc : s₁.pc = s.pc) (hlt : s.count w < s.nbrounds) (hp : 0 < (s.pc w).left) :
    Onward s (s₁.proceed w).1 w := by
  have hlt₁ : s₁.count w < s₁.nbrounds := by
    rw [hc, hn]
    exact hlt
  rw [Sync.proceed, if_pos hlt₁]
  refine ⟨hm, hv, hn, ?_, ?_⟩
  · intro u hu
    simp only [workerLeft, Sync.moveTo, Function.update_of_ne hu, hn, hc, hpc]
  · simp only [workerLeft, Sync.moveTo, Function.update_self, hn, hc]
    show (s.nbrounds - (s.count w + 1)) * 14 + 14 < _
    omega

/-- **A step of a worker brings it on.** -/
theorem workerStep_onward (hs : s.workerStep w = some (s', e)) (hspin : s.spins (.worker w) = false)
    (hlt : s.pc w = .storeRun ∨ s.pc w = .waitRun → s.count w < s.nbrounds) :
    Onward s s' w := by
  have hafter : ∀ p : WorkerPc, 5 < p.left → (s.afterNotify w).left < p.left := by
    intro p hp
    rw [afterNotify]
    split
    · exact lt_of_le_of_lt (Nat.zero_le _) hp
    · exact hp
  unfold workerStep at hs
  simp only [spins] at hspin
  cases hpc : s.pc w <;> rw [hpc] at hs hspin hlt
  case waitLoad =>
    cases hst : s.status <;> rw [hst] at hs hspin
    case wait | quit =>
      obtain ⟨rfl, -⟩ := Prod.mk.inj (Option.some.inj hs)
      exact .moveTo rfl rfl rfl rfl rfl (by simp [hpc, WorkerPc.left])
    all_goals cases hspin
  case waitRun =>
    have hp : 0 < (s.pc w).left := by simp [hpc, WorkerPc.left]
    cases hst : s.status <;> rw [hst] at hs hspin
    case run | abort =>
      obtain ⟨rfl, -⟩ := Prod.mk.inj (Option.some.inj hs)
      exact .proceed rfl rfl rfl rfl rfl (hlt (.inr rfl)) hp
    all_goals cases hspin
  case enter =>
    obtain ⟨rfl, -⟩ := Prod.mk.inj (Option.some.inj hs)
    refine .moveTo rfl rfl rfl rfl rfl ?_
    rw [hpc]
    split <;> decide
  case storeRun =>
    have hp : 0 < (s.pc w).left := by simp [hpc, WorkerPc.left]
    obtain ⟨rfl, -⟩ := Prod.mk.inj (Option.some.inj hs)
    exact .proceed rfl rfl rfl rfl rfl (hlt (.inl rfl)) hp
  case leave =>
    obtain ⟨rfl, -⟩ := Prod.mk.inj (Option.some.inj hs)
    refine .moveTo rfl rfl rfl rfl rfl ?_
    rw [hpc]
    split
    · decide
    · exact hafter .leave (by decide)
  case raise =>
    obtain ⟨rfl, -⟩ := Prod.mk.inj (Option.some.inj hs)
    refine .moveTo rfl rfl rfl rfl rfl ?_
    rw [hpc]
    exact hafter .raise (by decide)
  case work | stop | exited => cases hs
  all_goals
    obtain ⟨rfl, -⟩ := Prod.mk.inj (Option.some.inj hs)
    exact .moveTo rfl rfl rfl rfl rfl (by simp [hpc, WorkerPc.left])

/-! ## A step of the master

The master has six steps for each round. The verdict it takes at the end of one makes up for
the steps of the next one. -/

/-- A round that is done takes more off than the next one adds. -/
theorem left_nextRound (n k : ℕ) :
    (n - (k + 1)) * 6 + (nextRound n (k + 1)).left < (n - k) * 6 + 2 := by
  by_cases hlt : k + 1 < n
  · rw [nextRound, if_pos hlt]
    show (n - (k + 1)) * 6 + 6 < _
    omega
  · rw [nextRound, if_neg hlt]
    show (n - (k + 1)) * 6 + 1 < _
    omega

omit [DecidableEq τ] in
/-- The workers stay where they are, and the master goes on. -/
theorem left_lt_of_master [Fintype τ] (hn : s'.nbrounds = s.nbrounds) (hc : s'.count = s.count)
    (hpc : s'.pc = s.pc) (hlt : s'.masterLeft < s.masterLeft) : s'.left < s.left := by
  have hsum : ∑ w, s'.workerLeft w = ∑ w, s.workerLeft w := by
    simp only [workerLeft, hn, hc, hpc]
  rw [left, left, hsum]
  omega

omit [DecidableEq τ] in
/-- **A step of the master brings it on.** -/
theorem masterStep_left_lt [Fintype τ] (hs : s.masterStep = some (s', e))
    (hspin : s.spins .master = false) : s'.left < s.left := by
  simp only [spins] at hspin
  unfold masterStep at hs
  cases hm : s.master <;> rw [hm] at hs hspin
  case start | unreachable | join => cases hs
  case latch =>
    cases hr : s.raised with
    | true =>
      rw [if_pos hr] at hs
      obtain ⟨rfl, -⟩ := Prod.mk.inj (Option.some.inj hs)
      exact left_lt_of_master rfl rfl rfl (by simp [masterLeft, hm, MasterPc.left])
    | false =>
      rw [hr] at hspin
      cases hspin
  case loadStatus =>
    cases hst : s.status <;> rw [hst] at hs <;>
      obtain ⟨rfl, -⟩ := Prod.mk.inj (Option.some.inj hs) <;>
      exact left_lt_of_master rfl rfl rfl (by simp [masterLeft, hm, MasterPc.left])
  case returnRuntime =>
    obtain ⟨rfl, -⟩ := Prod.mk.inj (Option.some.inj hs)
    refine left_lt_of_master rfl rfl rfl ?_
    simp only [masterLeft, hm]
    exact left_nextRound ..
  case returnErrmsg =>
    obtain ⟨rfl, -⟩ := Prod.mk.inj (Option.some.inj hs)
    refine left_lt_of_master rfl rfl rfl ?_
    simp only [masterLeft, hm, MasterPc.left, List.length_cons]
    omega
  all_goals
    obtain ⟨rfl, -⟩ := Prod.mk.inj (Option.some.inj hs)
    exact left_lt_of_master rfl rfl rfl (by simp [masterLeft, hm, MasterPc.left])

/-! ## All steps

Every stride lowers the number of steps that are left. When no stride is possible, each thread
waits for something that another one is about to do, unless all have ended. -/

variable [Fintype τ] {h : List (SyncEvent τ)}

/-- What is to be done gets less with every step. -/
theorem lowers_stride : Lowers (stride (τ := τ))
    (fun s => 0 < Fintype.card τ ∧ Fintype.card τ = s.nbworkers.toNat ∧ ∃ h, SyncInv h s)
    left := by
  rintro s a s' e ⟨hpos, hn, h, hi⟩ hs
  rw [stride] at hs
  split at hs
  · cases hs
  · rename_i hspin
    rw [Bool.not_eq_true] at hspin
    refine ⟨⟨hpos, hn.trans (congrArg UInt32.toNat (step_nbworkers hs).1.symm), _,
      (hi.step hn hpos hs).1⟩, ?_⟩
    cases a with
    | master => exact masterStep_left_lt hs hspin
    | worker w =>
      refine (workerStep_onward hs hspin ?_).left_lt
      intro hpc
      -- it has begun a test less than rounds were opened
      have hplace := hi.placed.place w
      have hle := hi.mastered.rounds_le
      have hlt : runs w h + 1 = rounds h := by
        rcases hpc with hpc | hpc <;> rw [hpc] at hplace <;> cases hhalf : s.status.half <;>
          rw [hhalf] at hplace <;> first | exact hplace.1 | exact hplace.elim
      rw [hi.placed.count w]
      omega
    | start buf =>
      simp only [step] at hs
      split at hs
      · rename_i hm
        obtain ⟨rfl, -⟩ := Prod.mk.inj (Option.some.inj hs)
        exact left_lt_of_master rfl rfl rfl (by simp [masterLeft, hm, MasterPc.left])
      · cases hs
    | test w result =>
      simp only [step] at hs
      split at hs
      · rename_i hpc
        have hnotify : ∀ error, (workerNotify error).left < (s.pc w).left := by
          intro error
          rw [hpc]
          cases error with
          | none => decide
          | some error => exact Nat.lt_succ_self 13
        cases result <;> obtain ⟨rfl, -⟩ := Prod.mk.inj (Option.some.inj hs) <;>
          exact (Onward.moveTo rfl rfl rfl rfl rfl (hnotify _)).left_lt
      · cases hs
    | stop w buf =>
      simp only [step] at hs
      split at hs
      · rename_i hpc
        obtain ⟨rfl, -⟩ := Prod.mk.inj (Option.some.inj hs)
        exact (Onward.moveTo rfl rfl rfl rfl rfl (by simp [hpc, WorkerPc.left])).left_lt
      · cases hs

/-- **Nobody waits for nothing.** When no thread can go on, the master is in its join and
the workers have ended. -/
theorem ended_of_stuck (hi : SyncInv h s) (hs : Stuck stride s) :
    s.master = .join ∧ ∀ w, s.pc w = .exited := by
  -- a step that is not one of the loads is there to be done
  have hspin : ∀ a, s.step a ≠ none → s.spins a = true := by
    intro a ha
    by_contra hne
    have hstuck := hs a
    rw [stride, if_neg hne] at hstuck
    exact ha hstuck
  have hworker : ∀ w, s.pc w = .waitLoad ∨ s.pc w = .waitRun ∨ s.pc w = .exited := by
    intro w
    have htest := hspin (.test w (.returned none))
    have hstop := hspin (.stop w none)
    have hstep := hspin (.worker w)
    simp only [step, workerStep, spins] at htest hstop hstep
    cases hpc : s.pc w <;> rw [hpc] at htest hstop hstep <;> simp at htest hstop hstep ⊢
  have hmaster : s.master = .latch ∧ s.raised = false ∨ s.master = .join := by
    have hstart := hspin (.start none)
    have hstep := hspin .master
    have hplace := hi.mastered.place
    simp only [step, masterStep, spins] at hstart hstep
    cases hm : s.master <;> rw [hm] at hstart hstep hplace
    case latch =>
      cases hr : s.raised <;> rw [hr] at hstep
      · exact .inl ⟨rfl, rfl⟩
      · simp at hstep
    case join => exact .inr rfl
    case unreachable => exact hplace.elim
    case loadStatus => cases hst : s.status <;> rw [hst] at hstep <;> simp at hstep
    all_goals simp at hstart hstep
  -- nor does a worker wait for what is there
  have hload : ∀ w, s.pc w = .waitLoad → s.status ≠ .wait ∧ s.status ≠ .quit := by
    intro w hpc
    have hstep := hspin (.worker w)
    simp only [step, workerStep, spins, hpc] at hstep
    cases hst : s.status <;> rw [hst] at hstep <;> simp at hstep ⊢
  have hrun : ∀ w, s.pc w = .waitRun → s.status.half = .gather := by
    intro w hpc
    have hstep := hspin (.worker w)
    have hplace := hi.placed.place w
    rw [hpc] at hplace
    simp only [step, workerStep, spins, hpc] at hstep
    cases hst : s.status <;> rw [hst] at hstep hplace
    case wait => rfl
    case run | abort => simp at hstep
    all_goals exact hplace.elim
  rcases hmaster with ⟨hm, hr⟩ | hm
  · -- the latch: somebody has not arrived, and is not waiting for anybody
    exfalso
    have hlast := hi.counted.last
    have hnone : countOf WorkerPc.isLast s.pc = 0 := by
      apply countOf_eq_zero.mpr
      intro w
      rcases hworker w with hpc | hpc | hpc <;> rw [hpc] <;> rfl
    rw [hnone, hr, hm] at hlast
    split at hlast
    · cases hlast
    · rename_i hall
      refine hall (countOf_eq_card.mpr ?_)
      intro w
      have hplace := hi.placed.place w
      rcases hworker w with hpc | hpc | hpc
      · obtain ⟨hwait, -⟩ := hload w hpc
        rw [hpc]
        cases hst : s.status <;> first | rfl | exact absurd hst hwait
      · rw [hpc, hrun w hpc]
        rfl
      · rw [hpc] at hplace ⊢
        cases hhalf : s.status.half <;> rw [hhalf] at hplace <;> first | rfl | exact hplace.elim
  · have hquit : s.status = .quit := by
      have hplace := hi.mastered.place
      rw [hm] at hplace
      exact hplace.1
    refine ⟨hm, ?_⟩
    intro w
    rcases hworker w with hpc | hpc | hpc
    · exact absurd hquit (hload w hpc).2
    · have hgather := hrun w hpc
      rw [hquit] at hgather
      cases hgather
    · exact hpc

/-! ## What the master has got

Each round gives the master one verdict. It ends its loop after the last round, or after the
first verdict that is an error. -/

/-- The master stops after all rounds, or after an error. -/
def Sated (s : Sync τ) : Prop :=
  s.master = .storeQuit ∨ s.master = .join →
    s.nbrounds ≤ s.verdicts.length ∨ ∃ errmsg vs, s.verdicts = .error errmsg :: vs

omit [Fintype τ] in
theorem Sated.step (hsat : Sated s) (hs : s.step a = some (s', e)) : Sated s' := by
  have hsame : ∀ {s₁ : Sync τ}, s₁.master = s.master → s₁.verdicts = s.verdicts →
      s₁.nbrounds = s.nbrounds → Sated s₁ := by
    intro s₁ hm hv hn
    rw [Sated, hm, hv, hn]
    exact hsat
  have hproceed : ∀ {s₁ : Sync τ} {w : τ}, s₁.master = s.master → s₁.verdicts = s.verdicts →
      s₁.nbrounds = s.nbrounds → Sated (s₁.proceed w).1 := by
    intro s₁ w hm hv hn
    rw [proceed]
    split <;> exact hsame hm hv hn
  have hawake : ∀ {s₁ : Sync τ}, s₁.master ≠ .storeQuit ∧ s₁.master ≠ .join → Sated s₁ :=
    fun hne hm => (hm.elim hne.1 hne.2).elim
  cases a with
  | master =>
    simp only [Sync.step, masterStep] at hs
    cases hm : s.master <;> rw [hm] at hs
    case start | unreachable | join => cases hs
    case latch =>
      by_cases hr : s.raised = true
      · rw [if_pos hr] at hs
        obtain ⟨rfl, -⟩ := Prod.mk.inj (Option.some.inj hs)
        exact hawake (by simp)
      · rw [if_neg hr] at hs
        obtain ⟨rfl, -⟩ := Prod.mk.inj (Option.some.inj hs)
        exact hsat
    case loadStatus =>
      cases hst : s.status <;> rw [hst] at hs <;>
        obtain ⟨rfl, -⟩ := Prod.mk.inj (Option.some.inj hs) <;> exact hawake (by simp)
    case returnRuntime =>
      obtain ⟨rfl, -⟩ := Prod.mk.inj (Option.some.inj hs)
      intro hquit
      by_cases hlt : (Verdict.runtime s.runtime :: s.verdicts).length < s.nbrounds
      · simp only [nextRound, if_pos hlt] at hquit
        rcases hquit with hquit | hquit <;> cases hquit
      · exact .inl (Nat.not_lt.mp hlt)
    case returnErrmsg =>
      obtain ⟨rfl, -⟩ := Prod.mk.inj (Option.some.inj hs)
      exact fun _ => .inr ⟨_, _, rfl⟩
    case storeQuit =>
      obtain ⟨rfl, -⟩ := Prod.mk.inj (Option.some.inj hs)
      exact fun _ => hsat (.inl hm)
    case storeWait =>
      obtain ⟨rfl, -⟩ := Prod.mk.inj (Option.some.inj hs)
      exact hawake (by simp)
  | worker w =>
    simp only [Sync.step, workerStep] at hs
    cases hpc : s.pc w <;> rw [hpc] at hs
    case work | stop | exited => cases hs
    case waitLoad | waitRun =>
      cases hst : s.status <;> rw [hst] at hs <;>
        obtain ⟨rfl, -⟩ := Prod.mk.inj (Option.some.inj hs) <;>
        first | exact hsame rfl rfl rfl | exact hproceed rfl rfl rfl
    all_goals
      obtain ⟨rfl, -⟩ := Prod.mk.inj (Option.some.inj hs)
      first | exact hsame rfl rfl rfl | exact hproceed rfl rfl rfl
  | start buf =>
    simp only [Sync.step] at hs
    split at hs
    · obtain ⟨rfl, -⟩ := Prod.mk.inj (Option.some.inj hs)
      exact hawake (by simp)
    · cases hs
  | test w result =>
    simp only [Sync.step] at hs
    split at hs
    · cases result <;> obtain ⟨rfl, -⟩ := Prod.mk.inj (Option.some.inj hs) <;>
        exact hsame rfl rfl rfl
    · cases hs
  | stop w buf =>
    simp only [Sync.step] at hs
    split at hs
    · obtain ⟨rfl, -⟩ := Prod.mk.inj (Option.some.inj hs)
      exact hsame rfl rfl rfl
    · cases hs

omit [DecidableEq τ] [Fintype τ] in
theorem Sated.create {nbworkers : UInt32} {nbrounds : ℕ} {localTick : Tick} :
    Sated (Sync.create nbworkers nbrounds localTick : Sync τ) := by
  intro hquit
  by_cases hlt : 0 < nbrounds
  · simp only [Sync.create, nextRound, if_pos hlt] at hquit
    rcases hquit with hquit | hquit <;> cases hquit
  · exact .inl (Nat.not_lt.mp hlt)

omit [Fintype τ] in
theorem Sated.run {nbworkers : UInt32} {nbrounds : ℕ} {localTick : Tick}
    (hr : Run Sync.step anyStep (Sync.create nbworkers nbrounds localTick) h s) : Sated s := by
  induction hr with
  | start => exact .create
  | next _ hs _ ih => exact ih.step hs

omit [Fintype τ] in
/-- A run without the loads that find nothing. -/
theorem exists_stride {s₀ : Sync τ} (hr : Run Sync.step anyStep s₀ h s) :
    ∃ g, Run stride anyStep s₀ g s := by
  induction hr with
  | start => exact ⟨[], .start⟩
  | @next h s s' a e _ hs _ ih =>
    obtain ⟨g, hg⟩ := ih
    by_cases hspin : s.spins a = true
    · rw [step_of_spins hspin] at hs
      obtain ⟨rfl, -⟩ := Prod.mk.inj (Option.some.inj hs)
      exact ⟨g, hg⟩
    · have hstride : s.stride a = some (s', e) := by
        rw [stride, if_neg hspin]
        exact hs
      exact ⟨e :: g, hg.next hstride trivial⟩

end Sync

variable {τ : Type} [DecidableEq τ] [Fintype τ] {s : Sync τ} {h : List (SyncEvent τ)}

/-- **A measurement comes to its end.** From every state that the threads of `measure` can
reach, however they go on, they do no more than the `left` steps of that state, the loads that
find nothing apart; what they have done so far and what is left is no more than there was at
the beginning; they can go on until nobody has a step; and when nobody has one, the master is in
its join, every worker has ended, and the master has got a verdict for each round unless the
last one is an error. -/
theorem measure_ends {nbworkers : UInt32} {nbrounds : ℕ} {localTick : Tick}
    (hn : Fintype.card τ = nbworkers.toNat) (hpos : 1 ≤ nbworkers.toNat)
    (hr : Run Sync.step anyStep (Sync.create nbworkers nbrounds localTick) h s) :
    (∀ g s', Run Sync.stride anyStep s g s' → g.length + s'.left ≤ s.left) ∧
      (∃ g, Run Sync.stride anyStep (Sync.create nbworkers nbrounds localTick) g s ∧
        g.length + s.left ≤ (Sync.create nbworkers nbrounds localTick : Sync τ).left) ∧
      (∃ g s', Run Sync.stride anyStep s g s' ∧ Stuck Sync.stride s') ∧
      (Stuck Sync.stride s → s.master = .join ∧ (∀ w, s.pc w = .exited) ∧
        (nbrounds ≤ s.verdicts.length ∨ ∃ errmsg vs, s.verdicts = .error errmsg :: vs)) := by
  have hreached : ∀ {g s'}, Run Sync.step anyStep
      (Sync.create nbworkers nbrounds localTick : Sync τ) g s' →
      0 < Fintype.card τ ∧ Fintype.card τ = s'.nbworkers.toNat ∧ ∃ h, SyncInv h s' := by
    intro g s' hr'
    obtain ⟨hw, hi⟩ := SyncInv.run hn hpos hr'
    rw [hw]
    exact ⟨hn ▸ hpos, hn, g, hi⟩
  refine ⟨fun g s' hg => (Sync.lowers_stride.length_add_le (hreached hr) hg).2, ?_,
    Sync.lowers_stride.exists_stuck (hreached hr), fun hstuck => ?_⟩
  · obtain ⟨g, hg⟩ := Sync.exists_stride hr
    exact ⟨g, hg, (Sync.lowers_stride.length_add_le (hreached .start) hg).2⟩
  · obtain ⟨hm, hexited⟩ := Sync.ended_of_stuck (SyncInv.run hn hpos hr).2 hstuck
    have hverdicts := Sync.Sated.run hr (.inr hm)
    rw [Sync.run_nbrounds hr] at hverdicts
    exact ⟨hm, hexited, hverdicts⟩

/-- After the second round of two workers, in which a test threw, the threads can still get to
their ends. -/
theorem measure_ends_throwing :
    ∃ s : Sync (Fin 2), Run Sync.step anyStep (Sync.create 2 2 0)
        (.waited (.error (some internalException)) :: throwingHistory) s ∧
      ∃ g s', Run Sync.stride anyStep s g s' ∧ Stuck Sync.stride s' := by
  obtain ⟨s, hr⟩ : ∃ s : Sync (Fin 2), Run Sync.step anyStep (Sync.create 2 2 0)
      (.waited (.error (some internalException)) :: throwingHistory) s :=
    Run.of_history (quietRound ++ throwingRound) (by decide +kernel)
  exact ⟨s, hr, (measure_ends (by decide) (by decide) hr).2.2.1⟩

end DualStm
