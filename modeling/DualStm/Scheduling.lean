import DualStm.Bank
import DualStm.Threads

/-!
# What a thread does next

The code that calls the library is sequential: a thread in `transactional` is in
`tm_begin`, or in a library call of its closure, or between two of them, and what it does
next is read off from where it is. So the threads of all developments on the library take
their steps from the definitions here, and say only what is theirs:

* `openAction` — the way into a transaction, for `tm_begin` and the batcher,
* `nextStep` — the next step of the call a thread is in or, between two calls, the call
  it makes next, which is a parameter,
* `callAction` — `nextStep` for a program, which calls what it has come to,
* `goOn` — what the answer of the library makes of such a program.
-/

namespace DualStm

variable {τ W C α : Type}

/-- **The way into a transaction.** What a thread that is about to call `tm_begin`, or has
called it, does next. -/
def openAction (s : State τ W) (t : τ) (isRo : Bool) : Action τ W :=
  match s.client t, s.call t with
  | .outside, .rest => .tmBegin t isRo
  | .outside, _ => .enter t
  | .inside _, _ => .setFlag t
  | _, _ => .wake t

/-- **The next step in a transaction**: a turn of the loop that the thread is in, or the
call `next` if it is in none. Nothing is done in `tm_begin`, which is left to
`openAction`. -/
def nextStep (s : State τ W) (t : τ) (next : Option (Action τ W)) : Option (Action τ W) :=
  match s.call t with
  | .rest => next
  | .beginning => none
  | .reading _ _ _ _ _ _ => some (.word t)
  | .writing _ _ _ _ _ _ => some (.word t)
  | .aborting _ _ => some (.abort t)

/-- The library call that a program has come to; at its end it is `tm_end`. -/
def Prog.nextCall (t : τ) : Prog C ℤ α → Option (Action τ ℤ)
  | .read addr _ => some (.tmRead t addr WORD_SIZE)
  | .write addr v _ => some (.tmWrite t (fun _ => v) WORD_SIZE addr)
  | .alloc size _ => some (.tmAlloc t size)
  | .free addr _ => some (.tmFree t addr)
  | .ret _ => some (.tmEnd t)
  | _ => none

/-- What a step of the library means for a closure. -/
inductive ClosureOutcome (C α : Type) where
  /-- the closure goes on, and this is left of it -/
  | goes (p : Prog C ℤ α)
  /-- the attempt was aborted, and the closure is tried again -/
  | again
  /-- the transaction is over, and the closure has returned this -/
  | done (a : α)

/-- What a step of the library means for the closure that made it: a call of it has
returned, or the transaction has been left, or the closure still waits. -/
def goOn : Prog C ℤ α → Event τ ℤ → ClosureOutcome C α
  | .read _ next, .readDone _ _ _ [(0, v)] => .goes (next v)
  | .read _ _, .readDone _ _ _ _ => .goes .fault
  | .write _ _ next, .writeDone _ _ _ => .goes next
  | .alloc _ next, .alloced _ seg => .goes (next (getVirtAddr seg))
  | .free _ next, .freed _ _ => .goes next
  | _, .aborted _ _ => .again
  | .ret a, .ended _ _ => .done a
  | p, _ => .goes p

/-- **The next step of a closure**: in the call it has made, or the call it has come to. -/
def callAction (s : State τ ℤ) (t : τ) (p : Prog C ℤ α) : Option (Action τ ℤ) :=
  nextStep s t (p.nextCall t)

/-! ## Whose step it is, and where it leads

Every step chosen here is one of the thread it was chosen for. The lemmas on `nextStep`
say what it is at each place of the library. -/

section

variable {s s' : State τ W} {e : Event τ W} {t : τ} {next : Option (Action τ W)}
  {a : Action τ W} {isRo : Bool}

theorem nextStep_rest (hc : s.call t = .rest) : nextStep s t next = next := by
  rw [nextStep, hc]

theorem nextStep_reading {seg start idx off : ℕ} {stop : ℤ} {target : List (ℕ × W)}
    (hc : s.call t = .reading seg start idx stop off target) :
    nextStep s t next = some (.word t) := by
  rw [nextStep, hc]

theorem nextStep_writing {seg start idx off : ℕ} {stop : ℤ} {source : ℕ → W}
    (hc : s.call t = .writing seg start idx stop source off) :
    nextStep s t next = some (.word t) := by
  rw [nextStep, hc]

theorem nextStep_aborting {i j : ℕ} (hc : s.call t = .aborting i j) :
    nextStep s t next = some (.abort t) := by
  rw [nextStep, hc]

theorem nextStep_thread (ha : nextStep s t next = some a)
    (hnext : ∀ b, next = some b → b.thread = t) : a.thread = t := by
  rw [nextStep] at ha
  split at ha
  · exact hnext a ha
  · cases ha
  all_goals
    obtain rfl := Option.some.inj ha
    rfl

theorem openAction_thread : (openAction s t isRo).thread = t := by
  rw [openAction]
  split <;> rfl

theorem callAction_thread {s : State τ ℤ} {p : Prog C ℤ α} {a : Action τ ℤ}
    (ha : callAction s t p = some a) : a.thread = t := by
  apply nextStep_thread ha
  intro b hb
  cases p with
  | save c next => cases hb
  | fault => cases hb
  | _ =>
    obtain rfl := Option.some.inj hb
    rfl

/-- A transaction that is over was at the end of its closure. -/
theorem eq_ret_of_goOn {p : Prog C ℤ α} {e : Event τ ℤ} {x : α} (hgo : goOn p e = .done x) :
    p = .ret x := by
  rw [goOn.eq_def] at hgo
  split at hgo
  all_goals cases hgo
  rfl

variable [DecidableEq τ]

/-- What a step into a transaction was. -/
inductive Opened [Zero W] (s : State τ W) (t : τ) (isRo : Bool) : Event τ W → State τ W → Prop where
  /-- `tm_begin` is called -/
  | called (hc : s.client t = .outside) (hr : s.call t = .rest) :
    Opened s t isRo (.called t isRo)
      { s with thread := Function.update s.thread t ⟨isRo, .beginning⟩ }
  /-- the batcher makes it wait -/
  | waiting (hc : s.client t = .outside) :
    Opened s t isRo (.waiting t)
      (s.setGate (Gate.wait { s.gate.batcher with nBlocked := s.gate.batcher.nBlocked + 1 }
        s.gate.client t))
  /-- the thread gets its id, at once or after a wait -/
  | letIn {b : Batcher} (hr : s.call t = .beginning ∨ ∃ since, s.client t = .woken since)
      (hep : b.curEpoch = s.epoch) (hgen : b.txIdGenerator = s.gate.batcher.txIdGenerator) :
    Opened s t isRo (.began t (s.txn s.gate.batcher.txIdGenerator))
      (s.setGate (Gate.letIn b s.gate.client t))
  /-- the thread stores its flag, and `tm_begin` returns -/
  | flagged {id : ℕ} (hc : s.client t = .inside id) (hr : s.call t = .beginning) :
    Opened s t isRo .silent
      ((s.setRegion { s.region with
        isRoFlags := Function.update s.region.isRoFlags id (s.thread t).isRo }).setCall t .rest)

theorem opened_of_step [Zero W] (hs : s.step (openAction s t isRo) = some (s', e)) :
    Opened s t isRo e s' := by
  rw [openAction] at hs
  split at hs
  · rename_i hc hr
    simp only [State.step, hc, hr] at hs
    obtain ⟨rfl, rfl⟩ := Prod.mk.inj (Option.some.inj hs)
    exact .called hc hr
  · rename_i hc hr
    simp only [State.step, enterBatcher, hc] at hs
    split at hs
    · rename_i hcall
      by_cases hn : s.gate.batcher.nRemaining = 0
      · simp only [if_pos hn] at hs
        obtain ⟨rfl, rfl⟩ := Prod.mk.inj (Option.some.inj hs)
        exact .letIn (.inl hcall) rfl rfl
      · simp only [if_neg hn] at hs
        obtain ⟨rfl, rfl⟩ := Prod.mk.inj (Option.some.inj hs)
        exact .waiting hc
    · cases hs
  · rename_i id hc
    simp only [State.step, hc] at hs
    split at hs
    · rename_i k heq hcall
      obtain rfl : id = k := by injection heq
      obtain ⟨rfl, rfl⟩ := Prod.mk.inj (Option.some.inj hs)
      exact .flagged hc hcall
    · cases hs
  · simp only [State.step] at hs
    split at hs
    · rename_i since hc
      obtain ⟨rfl, rfl⟩ := Prod.mk.inj (Option.some.inj hs)
      exact .letIn (.inr ⟨since, hc⟩) rfl rfl
    · cases hs

/-- When `tm_begin` returns, its thread is inside with an id. -/
theorem inside_of_opened [Zero W] (hs : s.step (openAction s t isRo) = some (s', .silent)) :
    ∃ x, s'.client t = .inside x := by
  have hopened := opened_of_step hs
  generalize heq : (Event.silent : Event τ W) = e at hopened
  cases hopened with
  | flagged hc hr => exact ⟨_, hc⟩
  | _ => cases heq

/-- **A leave** puts its thread outside, and reports the transaction it was in. -/
theorem leave_outside {id : ℕ} {event : Txn → Bool → Event τ W} (hc : s.client t = .inside id)
    (hs : s.leave t event = some (s', e)) :
    (∃ last, e = event (s.txn id) last) ∧ s'.client t = .outside := by
  have hout : (s.gate.afterLeave t).client t = .outside := by
    by_cases hn : s.gate.batcher.nRemaining = 1
    · simp [Gate.afterLeave_last hn, Client.wakeUp]
    · simp [Gate.afterLeave_early hn]
  simp only [State.leave, hc] at hs
  split at hs
  · obtain ⟨r, -, he⟩ := Option.map_eq_some_iff.mp hs
    obtain ⟨rfl, rfl⟩ := Prod.mk.inj he
    exact ⟨⟨_, rfl⟩, hout⟩
  · obtain ⟨rfl, rfl⟩ := Prod.mk.inj (Option.some.inj hs)
    exact ⟨⟨_, rfl⟩, hout⟩

end

end DualStm
