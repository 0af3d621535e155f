import DualStm.Library.Mutex
import DualStm.Library.Run
import DualStm.Statements

/-!
# The discipline of `global_lock`

Every statement of the library is a `LockMove` of the thread that executes it. Two
statements break the discipline, and both are reached through a slip of their function:
`tm_alloc` returns `nomem_alloc` without giving the lock back, and `tm_free` gives it back
a second time when the mark it finds is its own. `lock_discipline_iff` says that these are
all: a run keeps the discipline, whatever statement comes next, exactly if none of its
calls has slipped.
-/

namespace DualStm

/-- The thread stands between a `lock_acquire` of `global_lock` and the `lock_release`
its path through the code comes to, if it comes to one. -/
def Pc.inside : Pc → Bool
  | .alloc _ .acquire => false
  | .alloc _ _ => true
  | .free _ _ .test | .free _ _ .mark | .free _ _ .release | .free _ _ .releaseFound => true
  | .abort _ (.undo _ _) | .abort _ (.release _) => true
  | .returning .nomem => true
  | _ => false

/-- The statement the thread stands at breaks the discipline. -/
def Pc.doomed : Pc → Bool
  | .returning .nomem => true
  | .free _ _ .releaseAgain => true
  | _ => false

section

variable {τ : Type}

/-- What `global_lock` sees of an effect. -/
def Effect.lock : Effect τ → Option (LockEvent τ)
  | .acquired t => some (.acquired t)
  | .released t => some (.released t)
  | .returned t _ => some (.returned t)
  | _ => none

/-- The slips: `realloc` fails, an allocation fails for an index that was popped, or
`tm_free` finds the mark of its own transaction. -/
def Effect.slips : Effect τ → Bool
  | .reallocFailed _ => true
  | .initFailed _ _ reused => reused
  | .ownMark _ _ => true
  | _ => false

/-- The acquisitions and releases of `global_lock` in a history, and the returns. -/
def lockHistory (h : List (Effect τ)) : List (LockEvent τ) := h.filterMap Effect.lock

/-- The lock has been given back by whoever had it and by nobody else, no call has returned
with it, and at most one thread has it. -/
def LockKept (h : List (Effect τ)) : Prop :=
  Disciplined (lockHistory h) ∧
    ∀ t u, HasLock t (lockHistory h) → HasLock u (lockHistory h) → t = u

theorem lockKept_iff {h : List (Effect τ)} : LockKept h ↔ Disciplined (lockHistory h) :=
  ⟨fun hk => hk.1, fun hd => ⟨hd, fun _ _ => hd.unique⟩⟩

theorem lockHistory_cons (e : Effect τ) (h : List (Effect τ)) :
    lockHistory (e :: h) = e.lock.toList ++ lockHistory h := by
  rw [lockHistory, List.filterMap_cons]
  cases e.lock <;> rfl

end

variable {τ W : Type} [DecidableEq τ]

/-- What a statement of thread `t` does to the lock. -/
structure LockStep (t : τ) (s s' : Machine τ W) (e : Effect τ) : Prop where
  /-- the other threads stay where they are -/
  other : ∀ u, u ≠ t → s'.pc u = s.pc u
  /-- what happens to the lock -/
  move : LockMove t s.globalLock (s.pc t).inside s'.globalLock (s'.pc t).inside e.lock
  /-- a statement gives back what its thread does not have, or returns with what it has,
  exactly if it is one of the two doomed ones -/
  breaks : (e.lock = some (.released t) ∧ (s.pc t).inside = false ∨
    e.lock = some (.returned t) ∧ (s.pc t).inside = true) ↔ (s.pc t).doomed = true
  /-- a slip leads there, and nothing else does -/
  slips : (s'.pc t).doomed = e.slips

namespace LockStep

variable {t : τ} {s s' : Machine τ W} {e : Effect τ} {p p' : Pc}

/-- A statement that has nothing to do with the lock. -/
theorem quiet (hp : s.pc t = p) (hpc : s'.pc = Function.update s.pc t p')
    (ho : s'.globalLock = s.globalLock) (he : e.lock = none) (hin : p'.inside = p.inside)
    (hd : p.doomed = false) (hs : p'.doomed = e.slips) : LockStep t s s' e := by
  subst hp
  refine ⟨?_, ?_, ?_, ?_⟩
  · intro u hu
    rw [hpc, Function.update_of_ne hu]
  · rw [hpc, Function.update_self, ho, he, hin]
    exact .idle
  · simp [he, hd]
  · rw [hpc, Function.update_self, hs]

/-- A statement of a thread that stays where it is. -/
theorem stay (hpc : s'.pc = s.pc) (ho : s'.globalLock = s.globalLock) (he : e = .silent)
    (hd : (s.pc t).doomed = false) : LockStep t s s' e := by
  subst he
  have hupd : s'.pc = Function.update s.pc t (s.pc t) := by rw [hpc, Function.update_eq_self]
  exact quiet rfl hupd ho rfl rfl hd hd

/-- A `lock_acquire` that is granted is a step of the lock: its thread was not inside, and is
now. -/
theorem acquire (hp : s.pc t = p) (hs : s.acquire t p' = some (s', e)) (hin : p.inside = false)
    (hin' : p'.inside = true) (hd : p.doomed = false) (hd' : p'.doomed = false) :
    LockStep t s s' e := by
  subst hp
  unfold Machine.acquire at hs
  split at hs
  · rename_i ho
    obtain ⟨rfl, rfl⟩ := Prod.mk.inj (Option.some.inj hs)
    refine ⟨?_, ?_, ?_, ?_⟩
    · intro u hu
      exact Function.update_of_ne hu _ _
    · simp only [Machine.moveTo, Function.update_self, hin, hin']
      exact .acquire ho
    · simp [Effect.lock, hd]
    · simp [Machine.moveTo, hd', Effect.slips]
  · cases hs

/-- `lock_release`: from outside the critical section only where it is doomed. -/
theorem release (hp : s.pc t = p) (hs : s.release t p' = some (s', e)) (hin' : p'.inside = false)
    (hd : p.doomed = !p.inside) (hd' : p'.doomed = false) : LockStep t s s' e := by
  subst hp
  unfold Machine.release at hs
  obtain ⟨rfl, rfl⟩ := Prod.mk.inj (Option.some.inj hs)
  refine ⟨?_, ?_, ?_, ?_⟩
  · intro u hu
    exact Function.update_of_ne hu _ _
  · simp only [Machine.moveTo, Function.update_self, hin']
    exact .release
  · simp [Effect.lock, hd]
  · simp [Machine.moveTo, hd', Effect.slips]

/-- A `return` is a step of the lock, inside or not. -/
theorem ret {r : Returned} (hp : s.pc t = .returning r) :
    LockStep t s (s.moveTo t .rest) (.returned t r) := by
  refine ⟨?_, ?_, ?_, ?_⟩
  · intro u hu
    exact Function.update_of_ne hu _ _
  · simp only [Machine.moveTo, Function.update_self]
    exact .ret
  · cases r <;> simp [Effect.lock, hp, Pc.inside, Pc.doomed]
  · simp [Machine.moveTo, Effect.slips, Pc.doomed]

end LockStep

/-! ## The statements, function by function

Each statement of a function is shown to be a step of the lock by what it does to the program
counter. The functions that call others use the lemmas of these. -/

section

variable {s s' : Machine τ W} {t : τ} {e : Effect τ}

/-- Every statement of `init_segment` is a step of the lock. -/
theorem lockStep_goInit [Zero W] {size i : ℕ} {reused granted : Bool} {pc : InitPc}
    (hp : s.pc t = .alloc size (.init reused i pc))
    (hs : s.goInit t size reused i granted pc = (s', e)) : LockStep t s s' e := by
  have hfail : ∀ {s₁ : Machine τ W}, s₁.pc = s.pc → s₁.globalLock = s.globalLock →
      s₁.initFail t size reused i = (s', e) → LockStep t s s' e := by
    intro s₁ hpc ho hs
    obtain ⟨rfl, rfl⟩ := Prod.mk.inj hs
    refine .quiet hp (congrArg (Function.update · t _) hpc) ho rfl ?_ rfl ?_ <;>
      cases reused <;> rfl
  cases pc with
  | align | nWords | deregistered =>
    obtain ⟨rfl, rfl⟩ := Prod.mk.inj hs
    exact .quiet hp rfl rfl rfl rfl rfl rfl
  | wordsArrayA | wordsArrayB | control | controlLock =>
    simp only [Machine.goInit] at hs
    split at hs
    · obtain ⟨rfl, rfl⟩ := Prod.mk.inj hs
      exact .quiet hp rfl rfl rfl rfl rfl rfl
    · refine hfail ?_ ?_ hs <;> rfl
  | word j =>
    simp only [Machine.goInit] at hs
    split at hs <;> obtain ⟨rfl, rfl⟩ := Prod.mk.inj hs <;>
      exact .quiet hp rfl rfl rfl rfl rfl rfl

/-- Every statement of `tm_alloc` is a step of the lock. -/
theorem lockStep_goAlloc [Zero W] {size : ℕ} {granted : Bool} {pc : AllocPc}
    (hp : s.pc t = .alloc size pc) (hs : s.goAlloc t size granted pc = some (s', e)) :
    LockStep t s s' e := by
  cases pc with
  | acquire => exact .acquire hp hs rfl rfl rfl rfl
  | pop =>
    simp only [Machine.goAlloc] at hs
    split at hs <;> obtain ⟨rfl, rfl⟩ := Prod.mk.inj (Option.some.inj hs) <;>
      exact .quiet hp rfl rfl rfl rfl rfl rfl
  | index | count idx =>
    obtain ⟨rfl, rfl⟩ := Prod.mk.inj (Option.some.inj hs)
    exact .quiet hp rfl rfl rfl rfl rfl rfl
  | grow idx =>
    simp only [Machine.goAlloc] at hs
    split at hs
    · split at hs <;> obtain ⟨rfl, rfl⟩ := Prod.mk.inj (Option.some.inj hs) <;>
        exact .quiet hp rfl rfl rfl rfl rfl rfl
    · obtain ⟨rfl, rfl⟩ := Prod.mk.inj (Option.some.inj hs)
      exact .quiet hp rfl rfl rfl rfl rfl rfl
  | init reused i pc => exact lockStep_goInit hp (Option.some.inj hs)
  | release segmentIndex => exact .release hp hs rfl rfl rfl

/-- Every statement of `tm_free` is a step of the lock. -/
theorem lockStep_goFree {tx i : ℕ} {pc : FreePc} (hp : s.pc t = .free tx i pc)
    (hs : s.goFree t tx i pc = some (s', e)) : LockStep t s s' e := by
  cases pc with
  | acquire => exact .acquire hp hs rfl rfl rfl rfl
  | test | retest =>
    simp only [Machine.goFree] at hs
    split at hs <;> obtain ⟨rfl, rfl⟩ := Prod.mk.inj (Option.some.inj hs) <;>
      exact .quiet hp rfl rfl rfl rfl rfl rfl
  | mark =>
    obtain ⟨rfl, rfl⟩ := Prod.mk.inj (Option.some.inj hs)
    exact .quiet hp rfl rfl rfl rfl rfl rfl
  | release | releaseFound | releaseAgain => exact .release hp hs rfl rfl rfl

/-- Both sections of `leave_batcher` are a step of the lock. -/
theorem lockStep_leave {p p' : Pc} (hp : s.pc t = p) (hs : s.leave t p' = some (s', e))
    (hin : p'.inside = p.inside) (hd : p.doomed = false) (hd' : p'.doomed = false) :
    LockStep t s s' e := by
  simp only [Machine.leave] at hs
  split at hs
  · obtain ⟨r, -, he⟩ := Option.map_eq_some_iff.mp hs
    obtain ⟨rfl, rfl⟩ := Prod.mk.inj he
    exact .quiet hp rfl rfl rfl hin hd hd'
  · obtain ⟨rfl, rfl⟩ := Prod.mk.inj (Option.some.inj hs)
    exact .quiet hp rfl rfl rfl hin hd hd'

/-- Every statement of `abort_transaction_tx` is a step of the lock. -/
theorem lockStep_goAbort {tx : ℕ} {pc : AbortPc} (hp : s.pc t = .abort tx pc)
    (hs : s.goAbort t tx pc = some (s', e)) : LockStep t s s' e := by
  cases pc with
  | loop i =>
    simp only [Machine.goAbort] at hs
    split at hs <;> obtain ⟨rfl, rfl⟩ := Prod.mk.inj (Option.some.inj hs) <;>
      exact .quiet hp rfl rfl rfl rfl rfl rfl
  | bound i j array =>
    obtain ⟨rfl, rfl⟩ := Prod.mk.inj (Option.some.inj hs)
    refine .quiet hp rfl rfl rfl ?_ rfl ?_ <;> split <;> rfl
  | entry i j array | undo i array =>
    obtain ⟨rfl, rfl⟩ := Prod.mk.inj (Option.some.inj hs)
    exact .quiet hp rfl rfl rfl rfl rfl rfl
  | acquire i array => exact .acquire hp hs rfl rfl rfl rfl
  | release i => exact .release hp hs rfl rfl rfl
  | leave => exact lockStep_leave hp hs rfl rfl rfl

/-- The statement a thread is at is a step of the lock, whatever function it belongs to. -/
theorem lockStep_go [Zero W] {granted : Bool} (hs : s.go t granted = some (s', e)) :
    LockStep t s s' e := by
  simp only [Machine.go] at hs
  split at hs
  · cases hs
  · split at hs
    · rename_i size pc hp
      exact lockStep_goAlloc hp hs
    · rename_i tx i pc hp
      exact lockStep_goFree hp hs
    · rename_i tx pc hp
      exact lockStep_goAbort hp hs
    · rename_i r hp
      obtain ⟨rfl, rfl⟩ := Prod.mk.inj (Option.some.inj hs)
      exact .ret hp
    · cases hs

/-- **Every statement is a move of one thread.** -/
theorem lockStep_step [Zero W] {a : Statement τ W} (hs : s.step a = some (s', e)) :
    LockStep a.thread s s' e := by
  cases a with
  | tmBegin t isRo =>
    simp only [Machine.step] at hs
    split at hs
    · rename_i hp
      obtain ⟨rfl, rfl⟩ := Prod.mk.inj (Option.some.inj hs)
      exact .quiet hp rfl rfl rfl rfl rfl rfl
    · cases hs
  | enter a =>
    simp only [Machine.step] at hs
    split at hs
    · rename_i isRo _ hp
      obtain ⟨⟨g, ge⟩, -, he⟩ := Option.map_eq_some_iff.mp hs
      obtain ⟨rfl, rfl⟩ := Prod.mk.inj he
      exact .stay rfl rfl rfl (congrArg Pc.doomed hp)
    · cases hs
  | setFlag t =>
    simp only [Machine.step] at hs
    split at hs
    · rename_i hp
      obtain ⟨rfl, rfl⟩ := Prod.mk.inj (Option.some.inj hs)
      exact .quiet hp rfl rfl rfl rfl rfl rfl
    · cases hs
  | tmRead t seg idx =>
    simp only [Machine.step] at hs
    split at hs
    · rename_i hp
      split at hs
      · split at hs <;> obtain ⟨rfl, rfl⟩ := Prod.mk.inj (Option.some.inj hs)
        · exact .stay rfl rfl rfl (congrArg Pc.doomed hp)
        · exact .quiet hp rfl rfl rfl rfl rfl rfl
      · cases hs
    · cases hs
  | tmWrite t seg idx v =>
    simp only [Machine.step] at hs
    split at hs
    · rename_i hp
      split at hs
      · split at hs <;> obtain ⟨rfl, rfl⟩ := Prod.mk.inj (Option.some.inj hs)
        · exact .stay rfl rfl rfl (congrArg Pc.doomed hp)
        · exact .quiet hp rfl rfl rfl rfl rfl rfl
      · cases hs
    · cases hs
  | tmAlloc t size =>
    simp only [Machine.step] at hs
    split at hs
    · rename_i hp
      obtain ⟨rfl, rfl⟩ := Prod.mk.inj (Option.some.inj hs)
      exact .quiet hp rfl rfl rfl rfl rfl rfl
    · cases hs
  | tmFree t target =>
    simp only [Machine.step] at hs
    split at hs
    · rename_i hp
      split at hs
      · obtain ⟨rfl, rfl⟩ := Prod.mk.inj (Option.some.inj hs)
        exact .quiet hp rfl rfl rfl rfl rfl rfl
      · cases hs
    · cases hs
  | tmEnd t =>
    simp only [Machine.step] at hs
    split at hs
    · rename_i hp
      exact lockStep_leave hp hs rfl rfl rfl
    · cases hs
  | go t granted => exact lockStep_go hs

end

/-! ## Runs

A run of statements keeps the discipline of the lock as long as nobody slips: nobody is refused
an allocation after it took the lock, and nobody finds its own mark in `tm_free`. -/

/-- What holds as long as the discipline does: the owner of the lock and its history agree
with where the threads are, and a call that has slipped stands at a doomed statement. -/
structure LockInv (s : Machine τ W) (h : List (Effect τ)) : Prop where
  /-- the threads inside, the owner and the history -/
  mutex : MutexInv s.globalLock (fun t => (s.pc t).inside) (lockHistory h)
  /-- the slips so far, and the threads that are about to break the discipline -/
  slips : (∃ e ∈ h, e.slips = true) ↔ ∃ t, (s.pc t).doomed = true

section

variable {s s' : Machine τ W} {t : τ} {e : Effect τ} {h : List (Effect τ)}

omit [DecidableEq τ] in
/-- A statement breaks the discipline if it is a doomed one, and only then. -/
theorem LockStep.disciplined_iff (hi : LockInv s h) (hl : LockStep t s s' e) :
    Disciplined (lockHistory (e :: h)) ↔
      Disciplined (lockHistory h) ∧ (s.pc t).doomed = false := by
  rw [lockHistory_cons, hi.mutex.disciplined_cons hl.move]
  apply and_congr_right
  intro _
  have hb := hl.breaks
  rw [← Bool.not_eq_true (s.pc t).doomed, ← hb]
  cases (s.pc t).inside <;> simp

omit [DecidableEq τ] in
/-- Any other statement keeps the invariant. -/
theorem LockInv.step (hi : LockInv s h) (hl : LockStep t s s' e)
    (hd : Disciplined (lockHistory (e :: h))) : LockInv s' (e :: h) := by
  obtain ⟨-, hnd⟩ := (hl.disciplined_iff hi).mp hd
  constructor
  · rw [lockHistory_cons] at hd ⊢
    exact hi.mutex.step hl.move (fun u hu => by rw [hl.other u hu]) hd
  · simp only [List.exists_mem_cons_iff, hi.slips]
    constructor
    · rintro (he | ⟨u, hu⟩)
      · exact ⟨t, hl.slips.trans he⟩
      · refine ⟨u, ?_⟩
        rwa [hl.other u]
        rintro rfl
        rw [hnd] at hu
        cases hu
    · rintro ⟨u, hu⟩
      by_cases hut : u = t
      · subst hut
        exact .inl (hl.slips.symm.trans hu)
      · rw [hl.other u hut] at hu
        exact .inr ⟨u, hu⟩

/-- A thread at a doomed statement can execute it. -/
theorem go_of_doomed [Zero W] (hd : (s.pc t).doomed = true) :
    ∃ s' e, s.step (.go t true) = some (s', e) := by
  rcases hp : s.pc t with _ | _ | _ | ⟨tx, i, pc⟩ | _ | r
  case returning =>
    exact ⟨_, _, by simp [Machine.step, Machine.go, hp, Machine.usesArray]; exact ⟨rfl, rfl⟩⟩
  case free =>
    rw [hp] at hd
    cases pc <;> cases hd
    exact ⟨_, _, by simp [Machine.step, Machine.go, hp, Machine.usesArray, Machine.goFree,
      Machine.release]; exact ⟨rfl, rfl⟩⟩
  all_goals rw [hp] at hd; cases hd

end

section

variable [Zero W] {size align : ℕ} {segments : ℕ → Segment W} {isRoFlags : ℕ → Bool}
  {h : List (Effect τ)} {s : Machine τ W}

/-- The invariant over a run that keeps the discipline. -/
theorem lockInv_run
    (hr : Run Machine.step anyStep (Machine.create size align segments isRoFlags) h s)
    (hd : Disciplined (lockHistory h)) : LockInv s h := by
  induction hr with
  | start => exact ⟨.start fun _ => rfl, by simp [Machine.create, Pc.doomed]⟩
  | next _ hs _ ih =>
    have hl := lockStep_step hs
    rw [lockHistory_cons] at hd
    exact (ih hd.of_append).step hl (by rwa [lockHistory_cons])

/-- A run without slips keeps the discipline. -/
theorem disciplined_of_noSlips
    (hr : Run Machine.step anyStep (Machine.create size align segments isRoFlags) h s)
    (hno : ∀ e ∈ h, e.slips = false) : Disciplined (lockHistory h) := by
  induction hr with
  | start => trivial
  | @next h s s' a e hr hs _ ih =>
    have hl := lockStep_step hs
    have hd := ih fun e he => hno e (List.mem_cons_of_mem _ he)
    have hi := lockInv_run hr hd
    refine (hl.disciplined_iff hi).mpr ⟨hd, ?_⟩
    rw [← Bool.not_eq_true]
    intro hdoom
    obtain ⟨e, he, hslip⟩ := hi.slips.mpr ⟨_, hdoom⟩
    rw [hno e (List.mem_cons_of_mem _ he)] at hslip
    cases hslip

/-- **The discipline of `global_lock`.** A run has kept it, and keeps it whatever statement
comes next, exactly if no call has slipped. -/
theorem lock_discipline_iff
    (hr : Run Machine.step anyStep (Machine.create size align segments isRoFlags) h s) :
    (LockKept h ∧ ∀ a s' e, s.step a = some (s', e) → LockKept (e :: h)) ↔
      ∀ e ∈ h, e.slips = false := by
  simp only [lockKept_iff]
  constructor
  · rintro ⟨hd, hnext⟩ e he
    have hi := lockInv_run hr hd
    rw [← Bool.not_eq_true]
    intro hslip
    obtain ⟨t, hdoom⟩ := hi.slips.mp ⟨e, he, hslip⟩
    obtain ⟨s', e', hs⟩ := go_of_doomed hdoom
    have := ((lockStep_go hs).disciplined_iff hi).mp (hnext _ _ _ hs)
    rw [hdoom] at this
    cases this.2
  · intro hno
    have hd := disciplined_of_noSlips hr hno
    have hi := lockInv_run hr hd
    refine ⟨hd, ?_⟩
    intro a s' e hs
    have hl := lockStep_step hs
    refine (hl.disciplined_iff hi).mpr ⟨hd, ?_⟩
    rw [← Bool.not_eq_true]
    intro hdoom
    obtain ⟨e', he', hslip⟩ := hi.slips.mpr ⟨_, hdoom⟩
    rw [hno e' he'] at hslip
    cases hslip

end

/-! ## Three runs of one thread

A run that keeps the discipline, and two that break it: one for each of the two slips. -/

/-- Two threads before a region of one word. -/
def oneWord : Machine Bool ℕ :=
  Machine.create 8 8 (fun _ => initSegment 0 0) fun _ => false

/-- Begin a transaction, allocate a segment of one word. -/
def allocating : List (Statement Bool ℕ) :=
  [.tmBegin true false, .enter (.enter true), .setFlag true, .tmAlloc true 8] ++
    List.replicate 16 (.go true true)

/-- Free the segment that was allocated. -/
def freeing : List (Statement Bool ℕ) :=
  .tmFree true (getVirtAddr 1) :: List.replicate 5 (.go true true)

/-- What `allocating` and `freeing` do. -/
def allocFree : List (Effect Bool) :=
  [.returned true .success, .released true, .silent, .silent, .acquired true, .silent,
    .returned true (.allocated (getVirtAddr 1)), .released true, .initDone true 1] ++
    List.replicate 8 .silent ++ [.initBegun true 1, .silent, .silent, .silent, .acquired true] ++
    List.replicate 4 .silent

/-- A segment is allocated and freed, and the lock is taken and given back each time. -/
theorem lock_discipline_iff_once :
    ∃ s, Run Machine.step anyStep oneWord allocFree s ∧
      LockKept allocFree ∧ ∀ a s' e, s.step a = some (s', e) → LockKept (e :: allocFree) := by
  obtain ⟨s, hr⟩ : ∃ s, Run Machine.step anyStep oneWord allocFree s :=
    Run.of_history (allocating ++ freeing) (by decide +kernel)
  exact ⟨s, hr, (lock_discipline_iff hr).mpr (by decide)⟩

/-- **Counterexample.** A transaction frees its segment twice and gives the lock back
twice; and a transaction that uses the freed index again, but gets no memory for it,
returns with the lock. -/
theorem lock_discipline_broken :
    (∃ (h : List (Effect Bool)) (s : Machine Bool ℕ), Run Machine.step anyStep oneWord h s ∧
      Effect.ownMark true 1 ∈ h ∧ ¬ LockKept h) ∧
    ∃ (h : List (Effect Bool)) (s : Machine Bool ℕ), Run Machine.step anyStep oneWord h s ∧
      Effect.initFailed true 1 true ∈ h ∧ s.globalLock = some true ∧ ¬ LockKept h := by
  constructor
  · obtain ⟨s, hr⟩ : ∃ s, Run Machine.step anyStep oneWord
        ([.released true, .ownMark true 1, .released true, .silent, .acquired true, .silent] ++
          allocFree) s :=
      Run.of_history (allocating ++ freeing ++ freeing) (by decide +kernel)
    refine ⟨_, s, hr, by simp, ?_⟩
    intro hk
    have hd := lockKept_iff.mp hk
    exact hd.2.1 rfl
  · obtain ⟨s, hr, ho⟩ : ∃ s, Run Machine.step anyStep oneWord
        ([.returned true .nomem, .initFailed true 1 true, .silent, .silent, .silent,
          .initBegun true 1, .acquired true, .silent, .silent, .silent, .silent, .silent] ++
          allocFree) s ∧ s.globalLock = some true :=
      Run.of_execUnder (allocating ++ freeing ++ [.tmEnd true, .tmBegin true false,
        .enter (.enter true), .setFlag true, .tmAlloc true 8] ++
        List.replicate 5 (.go true true) ++ List.replicate 2 (.go true false)) .start
        (by decide +kernel)
    refine ⟨_, s, hr, by simp, ho, ?_⟩
    intro hk
    have hd := lockKept_iff.mp hk
    exact hd.2 (.inl rfl)

end DualStm
