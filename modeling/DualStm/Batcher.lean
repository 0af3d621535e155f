import DualStm.Library.Run
import DualStm.Library.Count

/-!
# The batcher

`batcher.c`: transactions run in epochs. The first thread to find the batcher
empty opens an epoch of its own; a thread that finds it occupied blocks in
`pthread_cond_wait`, and the last transaction to leave commits the epoch, turns
the blocked threads into the next one and broadcasts.

The functions of `batcher.c` are translated on the fields of `batcher_t`. The
`Gate` puts them behind the batcher lock: each lock-held section is one atomic
step, the two halves of `enter_batcher` around the wait being two steps. What
the condition variable does to a thread is its `Client` state. `GateInv` is the
counting invariant the fields keep as long as no wait returns spuriously.
-/

namespace DualStm

/-- `batcher_t`, less its lock. `n_remaining` and its companions are signed in
the source, and a run with spurious wake-ups does take `n_remaining` below
zero. -/
structure Batcher where
  /-- the next `tx_t` to hand out -/
  txIdGenerator : ℕ
  /-- the current epoch -/
  curEpoch : ℕ
  /-- threads of the epoch that have not left -/
  nRemaining : ℤ
  /-- threads blocked until the next epoch -/
  nBlocked : ℤ
  /-- threads the epoch was opened for -/
  nInEpoch : ℤ
  deriving DecidableEq

/-- `init_batcher`, its lock initialised. -/
def initBatcher : Batcher :=
  { txIdGenerator := 0, nBlocked := 0, curEpoch := 0, nInEpoch := 0, nRemaining := 0 }

/-- `enter_batcher` up to the wait; `true` when the thread does not wait. -/
def enterBatcher (b : Batcher) : Batcher × Bool :=
  if b.nRemaining = 0 then ({ b with nInEpoch := 1, nRemaining := 1 }, true)
  else ({ b with nBlocked := b.nBlocked + 1 }, false)

/-- The end of `enter_batcher`: take an id. -/
def takeId (b : Batcher) : ℕ × Batcher :=
  (b.txIdGenerator, { b with txIdGenerator := b.txIdGenerator + 1 })

/-- `prepare_batcher_for_next_epoch`: the next epoch has as many threads to come as are
blocked, and hands out ids from zero on. -/
def prepareBatcherForNextEpoch (b : Batcher) : Batcher :=
  { nRemaining := b.nBlocked
    nInEpoch := b.nBlocked
    txIdGenerator := 0
    curEpoch := b.curEpoch + 1
    nBlocked := 0 }

/-- `leave_batcher`; `true` when the last transaction of the epoch leaves, in
which case the epoch is committed and a broadcast follows. -/
def leaveBatcher (b : Batcher) : Batcher × Bool :=
  if b.nRemaining = 1 then (prepareBatcherForNextEpoch b, true)
  else ({ b with nRemaining := b.nRemaining - 1 }, false)

theorem leaveBatcher_last {b : Batcher} (hn : b.nRemaining = 1) :
    leaveBatcher b = (prepareBatcherForNextEpoch b, true) := if_pos hn

theorem leaveBatcher_early {b : Batcher} (hn : b.nRemaining ≠ 1) :
    leaveBatcher b = ({ b with nRemaining := b.nRemaining - 1 }, false) := if_neg hn

/-- The last leave is the one that finds `n_remaining = 1`. -/
theorem leaveBatcher_snd {b : Batcher} : (leaveBatcher b).2 = true ↔ b.nRemaining = 1 := by
  by_cases hn : b.nRemaining = 1
  · simp [leaveBatcher_last hn, hn]
  · simp [leaveBatcher_early hn, hn]

/-! ## The gate

The functions of the batcher hold its lock from end to end, so the gate takes one such section
per step. The wait for the condition variable cuts `enter_batcher` in two. -/

/-- Where a thread stands with respect to the batcher. `since` is a history
variable: the epoch in which the thread started to wait. -/
inductive Client where
  /-- not in a transaction -/
  | outside
  /-- inside `pthread_cond_wait`, no broadcast issued since -/
  | blocked (since : ℕ)
  /-- inside `pthread_cond_wait`, a broadcast issued, lock not yet taken back -/
  | woken (since : ℕ)
  /-- running a transaction -/
  | inside (id : ℕ)
  deriving DecidableEq

/-- What a broadcast does to a thread. -/
def Client.wakeUp : Client → Client
  | .blocked since => .woken since
  | c => c

/-- The thread waits for the next epoch. -/
def Client.isBlocked : Client → Bool
  | .blocked _ => true
  | _ => false

/-- The thread belongs to the epoch but has no id yet. -/
def Client.isWoken : Client → Bool
  | .woken _ => true
  | _ => false

/-- The thread is between its admission and its leave, and holds an id. -/
def Client.isInside : Client → Bool
  | .inside _ => true
  | _ => false

section

variable (n id : ℕ)

@[simp] theorem Client.isBlocked_outside : Client.outside.isBlocked = false := rfl
@[simp] theorem Client.isBlocked_blocked : (Client.blocked n).isBlocked = true := rfl
@[simp] theorem Client.isBlocked_woken : (Client.woken n).isBlocked = false := rfl
@[simp] theorem Client.isBlocked_inside : (Client.inside id).isBlocked = false := rfl
@[simp] theorem Client.isWoken_outside : Client.outside.isWoken = false := rfl
@[simp] theorem Client.isWoken_blocked : (Client.blocked n).isWoken = false := rfl
@[simp] theorem Client.isWoken_woken : (Client.woken n).isWoken = true := rfl
@[simp] theorem Client.isWoken_inside : (Client.inside id).isWoken = false := rfl
@[simp] theorem Client.isInside_outside : Client.outside.isInside = false := rfl
@[simp] theorem Client.isInside_blocked : (Client.blocked n).isInside = false := rfl
@[simp] theorem Client.isInside_woken : (Client.woken n).isInside = false := rfl
@[simp] theorem Client.isInside_inside : (Client.inside id).isInside = true := rfl

end

/-- A broadcast wakes the blocked threads and nobody else. -/
theorem Client.isWoken_wakeUp (c : Client) :
    c.wakeUp.isWoken.toNat = c.isBlocked.toNat + c.isWoken.toNat := by
  cases c <;> rfl

theorem Client.isBlocked_wakeUp (c : Client) : c.wakeUp.isBlocked = false := by
  cases c <;> rfl

theorem Client.isInside_wakeUp (c : Client) : c.wakeUp.isInside = c.isInside := by
  cases c <;> rfl

theorem Client.wakeUp_eq_inside {c : Client} {id : ℕ} :
    c.wakeUp = .inside id ↔ c = .inside id := by
  cases c <;> simp [Client.wakeUp]

/-- The batcher and the threads around it. -/
structure Gate (τ : Type) where
  /-- the fields of the batcher -/
  batcher : Batcher
  /-- where each thread stands -/
  client : τ → Client

/-- The sections of the code that hold the lock of the batcher, with the thread that runs them. -/
inductive GateAction (τ : Type) where
  /-- the first half of `enter_batcher` -/
  | enter (t : τ)
  /-- the second half, after a broadcast -/
  | wake (t : τ)
  /-- the second half, without a broadcast -/
  | spurious (t : τ)
  /-- `leave_batcher` -/
  | leave (t : τ)

/-- What a lock-held section did. `since` and `now` are the epochs at the start
and at the end of the wait. -/
inductive GateEvent (τ : Type) where
  /-- an id without waiting -/
  | admitted (t : τ) (id : ℕ)
  /-- the thread waits -/
  | waits (t : τ)
  /-- an id after a broadcast -/
  | woke (t : τ) (since now : ℕ) (id : ℕ)
  /-- an id after a wait that returned without a broadcast -/
  | spurious (t : τ) (since now : ℕ) (id : ℕ)
  /-- the transaction left; `last` when its leave committed the epoch -/
  | left (t : τ) (id : ℕ) (last : Bool)
  deriving DecidableEq

namespace Gate

variable {τ : Type} [DecidableEq τ]

/-- Thread `t` takes the next id and is inside. -/
def letIn (b : Batcher) (client : τ → Client) (t : τ) : Gate τ :=
  ⟨(takeId b).2, Function.update client t (.inside (takeId b).1)⟩

/-- Thread `t` is counted as blocked and sleeps on the condition variable. -/
def wait (b : Batcher) (client : τ → Client) (t : τ) : Gate τ :=
  ⟨b, Function.update client t (.blocked b.curEpoch)⟩

/-- The gate after `t` has left; the last one to leave wakes the blocked threads. -/
def afterLeave (g : Gate τ) (t : τ) : Gate τ :=
  ⟨(leaveBatcher g.batcher).1, fun u =>
    if (leaveBatcher g.batcher).2 then (Function.update g.client t .outside u).wakeUp
    else Function.update g.client t .outside u⟩

/-- One section that holds the lock, if the thread stands where it can run it. -/
def step (g : Gate τ) : GateAction τ → Option (Gate τ × GateEvent τ)
  | .enter t =>
    if g.client t = .outside then
      match enterBatcher g.batcher with
      | (b, true) => some (letIn b g.client t, .admitted t (takeId b).1)
      | (b, false) => some (wait b g.client t, .waits t)
    else none
  | .wake t =>
    match g.client t with
    | .woken since =>
      some (letIn g.batcher g.client t,
        .woke t since g.batcher.curEpoch (takeId g.batcher).1)
    | _ => none
  | .spurious t =>
    match g.client t with
    | .blocked since =>
      some (letIn g.batcher g.client t,
        .spurious t since g.batcher.curEpoch (takeId g.batcher).1)
    | _ => none
  | .leave t =>
    match g.client t with
    | .inside id => some (g.afterLeave t, .left t id (leaveBatcher g.batcher).2)
    | _ => none

theorem afterLeave_last {g : Gate τ} {t : τ} (hn : g.batcher.nRemaining = 1) :
    g.afterLeave t = ⟨prepareBatcherForNextEpoch g.batcher,
      fun u => (Function.update g.client t .outside u).wakeUp⟩ := by
  simp [afterLeave, leaveBatcher_last hn]

theorem afterLeave_early {g : Gate τ} {t : τ} (hn : g.batcher.nRemaining ≠ 1) :
    g.afterLeave t = ⟨{ g.batcher with nRemaining := g.batcher.nRemaining - 1 },
      Function.update g.client t .outside⟩ := by
  simp [afterLeave, leaveBatcher_early hn]

/-- What each section can do, guards included. -/
theorem step_cases {g g' : Gate τ} {a : GateAction τ} {e : GateEvent τ}
    (hs : g.step a = some (g', e)) :
    (∃ t, g.client t = .outside ∧ g.batcher.nRemaining = 0 ∧
      g' = letIn { g.batcher with nInEpoch := 1, nRemaining := 1 } g.client t ∧
      e = .admitted t g.batcher.txIdGenerator) ∨
    (∃ t, g.client t = .outside ∧ g.batcher.nRemaining ≠ 0 ∧
      g' = wait { g.batcher with nBlocked := g.batcher.nBlocked + 1 } g.client t ∧
      e = .waits t) ∨
    (∃ t since, g.client t = .woken since ∧ g' = letIn g.batcher g.client t ∧
      e = .woke t since g.batcher.curEpoch g.batcher.txIdGenerator) ∨
    (∃ t since, g.client t = .blocked since ∧ g' = letIn g.batcher g.client t ∧
      e = .spurious t since g.batcher.curEpoch g.batcher.txIdGenerator) ∨
    (∃ t id, g.client t = .inside id ∧ g' = g.afterLeave t ∧
      e = .left t id (leaveBatcher g.batcher).2) := by
  cases a with
  | enter t =>
    simp only [step, enterBatcher] at hs
    split at hs
    · rename_i hc
      by_cases hn : g.batcher.nRemaining = 0
      · simp only [if_pos hn] at hs
        obtain ⟨rfl, rfl⟩ := Prod.mk.inj (Option.some.inj hs)
        exact .inl ⟨t, hc, hn, rfl, rfl⟩
      · simp only [if_neg hn] at hs
        obtain ⟨rfl, rfl⟩ := Prod.mk.inj (Option.some.inj hs)
        exact .inr (.inl ⟨t, hc, hn, rfl, rfl⟩)
    · cases hs
  | wake t =>
    simp only [step] at hs
    split at hs
    · rename_i since hc
      obtain ⟨rfl, rfl⟩ := Prod.mk.inj (Option.some.inj hs)
      exact .inr (.inr (.inl ⟨t, since, hc, rfl, rfl⟩))
    · cases hs
  | spurious t =>
    simp only [step] at hs
    split at hs
    · rename_i since hc
      obtain ⟨rfl, rfl⟩ := Prod.mk.inj (Option.some.inj hs)
      exact .inr (.inr (.inr (.inl ⟨t, since, hc, rfl, rfl⟩)))
    · cases hs
  | leave t =>
    simp only [step] at hs
    split at hs
    · rename_i id hc
      obtain ⟨rfl, rfl⟩ := Prod.mk.inj (Option.some.inj hs)
      exact .inr (.inr (.inr (.inr ⟨t, id, hc, rfl, rfl⟩)))
    · cases hs

/-- A gate nobody is at: the state after `init_batcher`, and after the commit of
an epoch during which nobody arrived. -/
def AtRest (g : Gate τ) : Prop :=
  g.batcher = { initBatcher with curEpoch := g.batcher.curEpoch } ∧ ∀ t, g.client t = .outside

end Gate

end DualStm
