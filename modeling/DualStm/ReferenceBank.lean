import DualStm.Clients
import DualStm.Library.Guarded
import DualStm.Oracle
import DualStm.SharedLock

/-!
# The workload on the reference library

The grader runs its workload on the reference library, too. In the first round every worker
calls `init`; the rounds of `run` begin when all are back. Under the lock of that library each
transaction finds the list of accounts as the ones before have left it, whatever other threads
do: so the checks of the workload never accuse it, nobody is stuck, and every transaction can
be brought to its end.

The memory behind the lock is any that does what it should, word by word. The library aborts
no transaction, so `transactional` calls the closure once.
-/

namespace DualStm

variable {τ M L : Type}

/-! ## Threads

Each thread runs its transactions one after the other: it takes the lock as the mode asks for,
does its closure operation by operation, and gives the lock back. -/

/-- A thread of the workload on the reference library. -/
inductive BankThread where
  /-- between two transactions -/
  | idle
  /-- in `tm_begin` -/
  | beginning (tx : Tx)
  /-- in the closure of a transaction, with the captured variables -/
  | running (tx captured : Tx) (rest : Rest)

/-- The library and the threads that use it. -/
structure ReferenceBank (τ M : Type) where
  /-- the memory -/
  memory : M
  /-- `lock` -/
  lock : RwLock τ
  /-- the handles -/
  tx : τ → Reference.Tx
  /-- the threads -/
  thread : τ → BankThread

/-- What may happen next: a thread takes up a transaction, or goes on in the one it has. -/
inductive BankMove (τ : Type) where
  /-- the thread calls a transaction -/
  | start (t : τ) (tx : Tx)
  /-- the thread goes on; the lock may be refused -/
  | go (t : τ) (ok : Bool)

/-- What happened in a step. -/
inductive BankReport (τ : Type) where
  /-- a transaction was called -/
  | started (t : τ) (tx : Tx)
  /-- `tm_begin` has returned -/
  | began (t : τ)
  /-- `tm_begin` has failed, and the exception has left `transactional` -/
  | refused (t : τ)
  /-- a thread has gone on in its closure -/
  | went (t : τ)
  /-- a transaction has returned -/
  | returned (t : τ) (tx : Tx) (r : Option Bool)
  deriving DecidableEq

namespace ReferenceBank

variable [DecidableEq τ]

/-- Thread `t` is somewhere else, and the others are where they were. -/
def setThread (s : ReferenceBank τ M) (t : τ) (b : BankThread) : ReferenceBank τ M :=
  { s with thread := Function.update s.thread t b }

/-- The transition function, in which a thread does one operation of its closure, or one of the
lock. -/
def step [Fintype τ] (bank : WorkloadBank) (mem : Memory M ℤ) (s : ReferenceBank τ M) :
    BankMove τ → Option (ReferenceBank τ M × BankReport τ)
  | .start t tx =>
    match s.thread t with
    | .idle => some (s.setThread t (.beginning tx), .started t tx)
    | _ => none
  | .go t ok =>
    match s.thread t with
    | .idle => none
    | .beginning tx =>
      (Reference.tmBegin s.lock t tx.isRo ok).map fun (lock, x) =>
        if x = Reference.invalidTx then ({ s with lock := lock }.setThread t .idle, .refused t)
        else ({ s with lock := lock, tx := Function.update s.tx t x }.setThread t
          (.running tx tx (turn bank (enter bank tx))), .began t)
    | .running tx c (.ret (.inl l)) => some (s.setThread t (.running tx c (turn bank l)), .went t)
    | .running tx _ (.ret (.inr r)) =>
      (Reference.tmEnd s.lock t (s.tx t)).map fun lock =>
        ({ s with lock := lock }.setThread t .idle, .returned t tx r)
    | .running tx c rest =>
      (rest.advance mem c s.memory).map fun (rest, c, memory) =>
        ({ s with memory := memory }.setThread t (.running tx c rest), .went t)

/-- The threads before the first transaction, on a memory that nobody has used. -/
def create (memory : M) : ReferenceBank τ M where
  memory := memory
  lock := .init
  tx := fun _ => Reference.invalidTx
  thread := fun _ => .idle

end ReferenceBank

/-! ## Rounds

The measurement has rounds: `init` fills the bank, then `init_check` looks at it, then the
transactions of `run` go on together. Which transactions may be called depends on the round. -/

/-- How far the measurement has come. -/
inductive BankRound where
  /-- no `init` has yet written the accounts -/
  | fresh
  /-- one `init` has written the accounts -/
  | filled
  /-- the rounds of `run` -/
  | tests
  deriving DecidableEq

/-- The transactions that a thread may be in. -/
def BankRound.Allows : BankRound → Tx → Prop
  | .fresh, tx => tx = .init
  | .filled, tx => tx.ofRun = false
  | .tests, tx => tx.ofRun = true

/-- How far the measurement is after a report. -/
def BankRound.after (r : BankRound) : BankReport τ → BankRound
  | .started _ tx => if tx.ofRun then .tests else r
  | .returned _ .init _ => if r = .fresh then .filled else r
  | _ => r

/-- How far the measurement is after a history. -/
def bankRound (h : List (BankReport τ)) : BankRound := h.foldr (fun e r => r.after e) .fresh

/-- The thread is between two transactions. -/
def BankThread.isIdle : BankThread → Bool
  | .idle => true
  | _ => false

/-- The calls of `measure`: those of `init`, one transaction after the other, and when all
are back those of `run`. -/
def CallsOfMeasure : Discipline (ReferenceBank τ M) (BankReport τ) := fun h s e =>
  match e with
  | .started t tx =>
    if tx.ofRun then
      bankRound h = .tests ∨ bankRound h = .filled ∧ ∀ u, (s.thread u).isIdle
    else bankRound h ≠ .tests ∧ (tx = .initCheck → .returned t .init none ∈ h)
  | _ => True

instance [DecidableEq τ] [Fintype τ] (h : List (BankReport τ)) (s : ReferenceBank τ M)
    (e : BankReport τ) : Decidable (CallsOfMeasure h s e) :=
  match e with
  | .started t tx => inferInstanceAs (Decidable (if tx.ofRun then
      bankRound h = .tests ∨ bankRound h = .filled ∧ ∀ u, (s.thread u).isIdle
    else bankRound h ≠ .tests ∧ (tx = .initCheck → .returned t .init none ∈ h)))
  | .began _ => inferInstanceAs (Decidable True)
  | .refused _ => inferInstanceAs (Decidable True)
  | .went _ => inferInstanceAs (Decidable True)
  | .returned _ _ _ => inferInstanceAs (Decidable True)

/-- The discipline of the runs in which no transaction is called any more. -/
def NoCalls : Discipline (ReferenceBank τ M) (BankReport τ) := fun _ _ e =>
  match e with
  | .started _ _ => False
  | _ => True

theorem BankRound.after_ne_fresh {r : BankRound} {e : BankReport τ} (hr : r ≠ .fresh) :
    r.after e ≠ .fresh := by
  cases e with
  | started t tx =>
    rw [BankRound.after]
    split
    · exact BankRound.noConfusion
    · exact hr
  | returned t tx v =>
    cases tx with
    | init => rwa [BankRound.after, if_neg hr]
    | _ => exact hr
  | _ => exact hr

/-- An `init` that has written the accounts is not forgotten. -/
theorem bankRound_ne_fresh {h : List (BankReport τ)} {t : τ} {v : Option Bool}
    (hmem : .returned t .init v ∈ h) : bankRound h ≠ .fresh := by
  induction h with
  | nil => cases hmem
  | cons e h ih =>
    have hcons : bankRound (e :: h) = (bankRound h).after e := rfl
    rw [hcons]
    rcases List.mem_cons.mp hmem with rfl | hmem
    · cases hr : bankRound h <;> exact BankRound.noConfusion
    · exact BankRound.after_ne_fresh (ih hmem)

/-- Who calls nothing calls what `measure` does. -/
theorem callsOfMeasure_of_noCalls {g h : List (BankReport τ)} {s : ReferenceBank τ M}
    {e : BankReport τ} (hq : NoCalls g s e) : CallsOfMeasure h s e := by
  cases e with
  | started t tx => exact hq.elim
  | _ => trivial

/-- A bank as the grader sets it up: it has a first segment with room for accounts, and nobody
begins with debts. -/
structure WorkloadBank.Legal (bank : WorkloadBank) : Prop where
  /-- there is a first segment -/
  start : bank.start ≠ 0
  /-- the first segment has accounts in it -/
  nbaccounts : 1 ≤ bank.nbaccounts
  /-- nobody begins with debts -/
  initBalance : 0 ≤ bank.initBalance

/-! ## A turn

A closure keeps what the lock guards if each turn of its loop does. What is left of a turn is
known by its precondition, so a thread can rely on it from one operation to the next. -/

section

variable {mem : Memory M ℤ} {loc : ℕ → L} {owns : M → ℕ → ℕ → Prop} {bank : WorkloadBank}
  {tx c : Tx} {m : M} {k : ℕ} {l : Locals}

theorem onlyReads_sumAccounts {segment : AccountSegment} : ∀ (k i : ℕ) (sum : ℤ),
    (sumAccounts segment k i sum).OnlyReads := by
  intro k
  induction k with
  | zero => exact fun _ _ => trivial
  | succ k ih =>
    intro i sum
    refine Prog.onlyReads_bind (fun _ => trivial) ?_
    intro balance
    split
    · trivial
    · exact ih _ _

theorem onlyReads_bindSegment {a : ℕ} :
    (AccountSegment.bind a : Prog Tx ℤ AccountSegment).OnlyReads := by
  rw [AccountSegment.bind]
  split <;> trivial

/-- The closure of `long_tx` only reads. -/
theorem onlyReads_longTurn {l : LongLocals} : (longTurn bank l).OnlyReads := by
  rw [longTurn]
  split
  · trivial
  · refine Prog.onlyReads_bind onlyReads_bindSegment fun _ => Prog.onlyReads_bind (fun _ => trivial)
      fun _ => Prog.onlyReads_bind (fun _ => trivial) fun _ =>
        Prog.onlyReads_bind (onlyReads_sumAccounts _ _ _) fun r => ?_
    cases r with
    | none => trivial
    | some sum => exact Prog.onlyReads_bind (fun _ => trivial) fun _ => trivial

/-- The second transaction of `init` only reads. -/
theorem onlyReads_initCheckTx : (initCheckTx bank).OnlyReads := by
  rw [initCheckTx]
  exact Prog.onlyReads_bind onlyReads_bindSegment fun _ =>
    Prog.onlyReads_bind (fun _ => trivial) fun _ => trivial

/-- A read-only transaction only reads. -/
theorem UnderWay.onlyReads (h : UnderWay mem loc owns bank k l c m) (hro : c.isRo = true) :
    (turn bank l).OnlyReads := by
  obtain ⟨f, pre, last, -, hv | ⟨trigger, l, rfl, rfl, -⟩⟩ := h
  · cases l with
    | long l => exact Prog.onlyReads_bind onlyReads_longTurn fun _ => trivial
    | short l =>
      obtain ⟨-, rfl⟩ := hv
      cases hro
    | _ => exact hv.elim
  · cases hro

/-- The first segment, to be filled: it is the last one, and no account has gone. -/
def Fillable (mem : Memory M ℤ) (loc : ℕ → L) (owns : M → ℕ → ℕ → Prop) (bank : WorkloadBank)
    (m : M) : Prop :=
  ∃ f, mem.Holds loc owns bank.first.cells [] m f ∧ f bank.first.segment.next = 0 ∧
    f bank.first.segment.parity = 0

/-- The list of accounts as `init` leaves it. -/
def JustFilled (mem : Memory M ℤ) (loc : ℕ → L) (owns : M → ℕ → ℕ → Prop) (bank : WorkloadBank)
    (m : M) : Prop :=
  ∃ f, Ledger mem loc owns bank m f [] bank.first ∧
    f (bank.first.segment.account 0) = bank.initBalance ∧ f bank.first.segment.parity = 0

theorem JustFilled.fillable (h : JustFilled mem loc owns bank m) :
    Fillable mem loc owns bank m := by
  obtain ⟨f, hl, -, hparity⟩ := h
  obtain ⟨-, -, -, hnext⟩ := hl.linked
  have hholds := hl.holds
  rw [show cells ([] ++ [bank.first]) = bank.first.cells by simp [cells]] at hholds
  exact ⟨f, hholds, hnext, hparity⟩

theorem JustFilled.isBank (h : JustFilled mem loc owns bank m) : IsBank mem loc owns bank m := by
  obtain ⟨f, hl, -⟩ := h
  exact ⟨f, [], bank.first, hl⟩

/-- What the lock guards in a round of the measurement. -/
def BankRound.Keeps (mem : Memory M ℤ) (loc : ℕ → L) (owns : M → ℕ → ℕ → Prop)
    (bank : WorkloadBank) : BankRound → M → Prop
  | .fresh => Fillable mem loc owns bank
  | .filled => JustFilled mem loc owns bank
  | .tests => IsBank mem loc owns bank

/-- What a transaction leaves behind in the memory when it ends. -/
def Tx.Leaves (mem : Memory M ℤ) (loc : ℕ → L) (owns : M → ℕ → ℕ → Prop) (bank : WorkloadBank)
    (tx : Tx) : M → Prop :=
  if tx.ofRun then IsBank mem loc owns bank else JustFilled mem loc owns bank

/-- A transaction at the head of its loop, at most `k` turns before its end. -/
def Tx.Way (mem : Memory M ℤ) (loc : ℕ → L) (owns : M → ℕ → ℕ → Prop) (bank : WorkloadBank) :
    Tx → ℕ → Locals → Tx → M → Prop
  | .init, _, l, _, m => l = .init ∧ Fillable mem loc owns bank m
  | .initCheck, _, l, _, m => l = .initCheck ∧ JustFilled mem loc owns bank m
  | _, k, l, c, m => UnderWay mem loc owns bank k l c m

/-- What the rest of a turn of a transaction is to come to. -/
def TurnPost (mem : Memory M ℤ) (loc : ℕ → L) (owns : M → ℕ → ℕ → Prop) (bank : WorkloadBank)
    (tx : Tx) (k : ℕ) : Locals ⊕ Option Bool → Tx → M → Prop :=
  Sum.elim (fun l c m => c.isRo = tx.isRo ∧ ∃ j < k, tx.Way mem loc owns bank j l c m)
    fun r _ m => (tx.isRo = true → r = some true) ∧ tx.Leaves mem loc owns bank m

/-- What a thread relies on: what is left of its turn comes to an end, and the reads of a
read-only transaction are all that it does. -/
def BankThread.Relies (mem : Memory M ℤ) (loc : ℕ → L) (owns : M → ℕ → ℕ → Prop)
    (bank : WorkloadBank) : BankThread → M → Prop
  | .running tx c rest, m =>
    (∃ k, rest.wp mem (TurnPost mem loc owns bank tx k) c m) ∧
      (tx.isRo = true → rest.OnlyReads)
  | _, _ => True

/-- A transaction finds what it needs. -/
theorem way_enter {r : BankRound} (hm : r.Keeps mem loc owns bank m) (hr : r.Allows tx) :
    ∃ k, tx.Way mem loc owns bank k (enter bank tx) tx m := by
  cases r with
  | fresh =>
    obtain rfl : tx = .init := hr
    exact ⟨0, rfl, hm⟩
  | filled =>
    cases tx with
    | init => exact ⟨0, rfl, JustFilled.fillable hm⟩
    | initCheck => exact ⟨0, rfl, hm⟩
    | _ => cases hr
  | tests =>
    obtain ⟨k, hk⟩ := underWay_enter hr hm
    cases tx with
    | init => cases hr
    | initCheck => cases hr
    | _ => exact ⟨k, hk⟩

/-- What a transaction leaves is what the next one needs. -/
theorem Tx.Leaves.keeps {r : BankRound} (hm : tx.Leaves mem loc owns bank m) (hr : r.Allows tx)
    (t : τ) (v : Option Bool) : (r.after (.returned t tx v)).Keeps mem loc owns bank m := by
  cases r with
  | fresh =>
    obtain rfl : tx = .init := hr
    exact hm
  | filled =>
    cases tx with
    | init => exact hm
    | initCheck => exact hm
    | _ => cases hr
  | tests =>
    cases tx with
    | init => cases hr
    | initCheck => cases hr
    | _ => exact hm

/-- A turn of a transaction comes to the right end. -/
theorem wp_turn (hb : bank.Legal) (hmem : mem.Lawful loc owns)
    (hal : mem.LawfulAlloc loc owns WORD_SIZE) (hro : c.isRo = tx.isRo)
    (h : tx.Way mem loc owns bank k l c m) :
    (turn bank l).wp mem (TurnPost mem loc owns bank tx k) c m := by
  have hrun : UnderWay mem loc owns bank k l c m →
      (∀ j l c m, UnderWay mem loc owns bank j l c m → tx.Way mem loc owns bank j l c m) →
      (IsBank mem loc owns bank = tx.Leaves mem loc owns bank) →
      (turn bank l).wp mem (TurnPost mem loc owns bank tx k) c m := by
    intro h hway hleaves
    apply Prog.wp_mono (underWay_turn hmem hal hb.initBalance h)
    intro r c' m' hpost
    rcases r with l' | r
    · obtain ⟨hro', j, hj, h⟩ := hpost
      exact ⟨hro'.trans hro, j, hj, hway j l' c' m' h⟩
    · exact ⟨fun htx => hpost.1 (hro.trans htx), hleaves ▸ hpost.2⟩
  cases tx with
  | init =>
    obtain ⟨rfl, f, hm, hnext, hparity⟩ := h
    refine Prog.wp_bind.mpr
      (Prog.wp_mono (initTx_wp hmem hb.start hb.nbaccounts hb.initBalance hm hnext hparity) ?_)
    intro _ _ _ h
    exact ⟨by rintro ⟨⟩, h⟩
  | initCheck =>
    obtain ⟨rfl, f, hl, hbal, hparity⟩ := h
    apply Prog.wp_bind.mpr
    rw [initCheckTx, Prog.wp_bind]
    apply (wp_bindSegment (b := bank.first) hb.start).mpr
    rw [Prog.wp_bind, wp_read hl.holds (last_cells (Block.account_mem_cells hb.nbaccounts)), hbal]
    exact ⟨fun _ => by simp, f, hl, hbal, hparity⟩
  | long n => exact hrun h (fun _ _ _ _ h => h) rfl
  | alloc trigger => exact hrun h (fun _ _ _ _ h => h) rfl
  | short i j => exact hrun h (fun _ _ _ _ h => h) rfl

/-- A turn of a read-only transaction only reads. -/
theorem Tx.Way.onlyReads (h : tx.Way mem loc owns bank k l c m) (hro : c.isRo = tx.isRo)
    (htx : tx.isRo = true) : (turn bank l).OnlyReads := by
  cases tx with
  | initCheck =>
    obtain ⟨rfl, -⟩ := h
    exact Prog.onlyReads_bind onlyReads_initCheckTx fun _ => trivial
  | long n => exact UnderWay.onlyReads h (hro.trans htx)
  | _ => cases htx

/-- A thread relies on the turn that begins. -/
theorem relies_turn (hb : bank.Legal) (hmem : mem.Lawful loc owns)
    (hal : mem.LawfulAlloc loc owns WORD_SIZE) (hro : c.isRo = tx.isRo)
    (h : tx.Way mem loc owns bank k l c m) :
    (BankThread.running tx c (turn bank l)).Relies mem loc owns bank m :=
  ⟨⟨k, wp_turn hb hmem hal hro h⟩, h.onlyReads hro⟩

/-- How a thread there holds the lock. -/
def BankThread.hold : BankThread → Option Hold
  | .running tx _ _ => some (Reference.holdOf tx.isRo)
  | _ => none

/-- The transaction that a thread is in, if it is in one. -/
def BankThread.tx? : BankThread → Option Tx
  | .idle => none
  | .beginning tx => some tx
  | .running tx _ _ => some tx

end

/-! ## The invariant

The lock guards the bank: whoever holds it can rely on the bank, and whoever does not is
outside its closure. A step of one thread keeps this for the others, since these hold the lock
only if all of them read. -/

namespace ReferenceBank

variable {mem : Memory M ℤ} {loc : ℕ → L} {owns : M → ℕ → ℕ → Prop} {bank : WorkloadBank}
  {r r' : BankRound} {s s' s₀ : ReferenceBank τ M} {g h : List (BankReport τ)} {t : τ}
  {b : BankThread} {lock : RwLock τ} {e : BankReport τ} {m' : M} {k : Hold}
  {x : τ → Reference.Tx} {tx c : Tx} {rest : Rest}

/-- The invariant of the threads under the lock. -/
structure Inv (mem : Memory M ℤ) (loc : ℕ → L) (owns : M → ℕ → ℕ → Prop) (bank : WorkloadBank)
    (r : BankRound) (s : ReferenceBank τ M) : Prop where
  /-- who is in a transaction has the lock -/
  hold : ∀ t, s.lock.held t = (s.thread t).hold
  /-- the lock guards the list of accounts -/
  guards : Guards s.lock (r.Keeps mem loc owns bank)
    (fun t m => (s.thread t).Relies mem loc owns bank m) s.memory
  /-- the transactions are those of the round -/
  allows : ∀ t tx, (s.thread t).tx? = some tx → r.Allows tx

/-- What a round allows, the next one of `init` does, too. -/
theorem allows_after {tx' : Tx} {v : Option Bool} (hr : r.Allows tx) :
    (r.after (.returned t tx' v)).Allows tx := by
  cases tx' with
  | init =>
    cases r with
    | fresh =>
      obtain rfl : tx = .init := hr
      rfl
    | _ => exact hr
  | _ => exact hr

/-- When all are back the rounds of `run` begin. -/
theorem Inv.tests (hi : Inv mem loc owns bank .filled s) (hidle : ∀ u, (s.thread u).isIdle) :
    Inv mem loc owns bank .tests s := by
  have hthread : ∀ u, s.thread u = .idle := by
    intro u
    have hu := hidle u
    cases hb : s.thread u with
    | idle => rfl
    | _ =>
      rw [hb] at hu
      cases hu
  refine ⟨hi.hold, ⟨hi.guards.alone, hi.guards.inside, fun hno => (hi.guards.outside hno).isBank⟩,
    ?_⟩
  intro u tx hu
  rw [hthread u] at hu
  cases hu

variable [DecidableEq τ]

/-- A step of one thread leaves the others where they are. -/
theorem thread_of_ne {u : τ} (hut : u ≠ t) : (s.setThread t b).thread u = s.thread u :=
  Function.update_of_ne hut ..

theorem thread_self : (s.setThread t b).thread t = b := Function.update_self ..

/-- The parts of the invariant that a thread changes. -/
theorem Inv.set (hi : Inv mem loc owns bank r s) (lock : RwLock τ) (m' : M)
    (x : τ → Reference.Tx) (hr : ∀ tx, r.Allows tx → r'.Allows tx) (hhold : lock.held t = b.hold)
    (hother : ∀ u, u ≠ t → lock.held u = s.lock.held u)
    (hg : Guards lock (r'.Keeps mem loc owns bank)
      (fun u m => ((s.setThread t b).thread u).Relies mem loc owns bank m) m')
    (hb : ∀ tx, b.tx? = some tx → r'.Allows tx) :
    Inv mem loc owns bank r' ({ s with lock := lock, memory := m', tx := x }.setThread t b) := by
  refine ⟨?_, hg, ?_⟩
  · intro u
    obtain rfl | hut := eq_or_ne u t
    · rw [thread_self]
      exact hhold
    · rw [thread_of_ne hut]
      exact (hother u hut).trans (hi.hold u)
  · intro u tx hu
    obtain rfl | hut := eq_or_ne u t
    · rw [thread_self] at hu
      exact hb tx hu
    · rw [thread_of_ne hut] at hu
      exact hr tx (hi.allows u tx hu)

/-- The other threads rely on what they did before. -/
theorem relies_of_ne {u : τ} (hut : u ≠ t) {m : M}
    (hu : (s.thread u).Relies mem loc owns bank m) :
    ((s.setThread t b).thread u).Relies mem loc owns bank m := by
  rw [thread_of_ne hut]
  exact hu

/-- A thread goes on in its transaction. -/
theorem Inv.setThread_running (hi : Inv mem loc owns bank r s) {c' : Tx} {rest' : Rest}
    (hb : s.thread t = .running tx c rest) (hm : tx.isRo = true → m' = s.memory)
    (hrelies : (BankThread.running tx c' rest').Relies mem loc owns bank m') :
    Inv mem loc owns bank r ({ s with memory := m' }.setThread t (.running tx c' rest')) := by
  have hheld : s.lock.held t = some (Reference.holdOf tx.isRo) := by
    rw [hi.hold t, hb]
    rfl
  refine hi.set s.lock m' s.tx (fun _ h => h) hheld (fun _ _ => rfl)
    (hi.guards.operate hheld (fun hk => hm ?_) ?_ fun u hut hu => relies_of_ne hut hu)
    fun tx' htx' => hi.allows t tx' ?_
  · cases hro : tx.isRo with
    | true => rfl
    | false =>
      rw [hro] at hk
      cases hk
  · rw [thread_self]
    exact hrelies
  · rw [hb]
    exact htx'

/-- A thread takes the lock and enters its closure. -/
theorem Inv.setThread_enter (hi : Inv mem loc owns bank r s) (hlegal : bank.Legal)
    (hmem : mem.Lawful loc owns) (hal : mem.LawfulAlloc loc owns WORD_SIZE)
    (hb : s.thread t = .beginning tx) (hk : s.lock.Admits (Reference.holdOf tx.isRo)) :
    Inv mem loc owns bank r ({ s with
      lock := s.lock.set t (some (Reference.holdOf tx.isRo)), tx := x }.setThread t
        (.running tx tx (turn bank (enter bank tx)))) := by
  have hnone : s.lock.held t = none := by
    rw [hi.hold t, hb]
    rfl
  have hallows : r.Allows tx := hi.allows t tx (by rw [hb]; rfl)
  obtain ⟨k, hk'⟩ := way_enter (hi.guards.of_admits hk) hallows
  refine hi.set (s.lock.set t (some (Reference.holdOf tx.isRo))) s.memory x (fun _ h => h)
    RwLock.set_self (fun u hut => RwLock.set_of_ne hut) ?_ ?_
  · refine hi.guards.acquire hnone hk ?_ fun u hut hu => relies_of_ne hut hu
    rw [thread_self]
    exact relies_turn hlegal hmem hal rfl hk'
  · intro tx' htx'
    obtain rfl := Option.some.inj htx'
    exact hallows

/-- A thread outside of its transaction goes on. -/
theorem Inv.setThread_outside (hi : Inv mem loc owns bank r s) (hb : (s.thread t).hold = none)
    (hnone : b.hold = none) (hallows : ∀ tx, b.tx? = some tx → r.Allows tx) :
    Inv mem loc owns bank r (s.setThread t b) := by
  have hheld : s.lock.held t = none := (hi.hold t).trans hb
  exact hi.set s.lock s.memory s.tx (fun _ h => h) (hheld.trans hnone.symm) (fun _ _ => rfl)
    (hi.guards.elsewhere hheld fun u hut hu => relies_of_ne hut hu) hallows

/-- A transaction that returns leaves the bank to the lock, and a check has found it in order. -/
theorem Inv.setThread_idle (hi : Inv mem loc owns bank r s) {v : Option Bool}
    (hb : s.thread t = .running tx c (.ret (.inr v))) :
    Inv mem loc owns bank (r.after (.returned t tx v))
        ({ s with lock := s.lock.set t none }.setThread t .idle) ∧
      (tx.isRo = true → v = some true) := by
  have hheld : s.lock.held t = some (Reference.holdOf tx.isRo) := by
    rw [hi.hold t, hb]
    rfl
  have hrelies := hi.guards.inside t (by rw [hheld]; simp)
  simp only [hb] at hrelies
  obtain ⟨⟨k, hv, hleaves⟩, -⟩ := hrelies
  have hkeeps := hleaves.keeps (hi.allows t tx (by rw [hb]; rfl)) t v
  refine ⟨hi.set (s.lock.set t none) s.memory s.tx (fun _ h => allows_after h) RwLock.set_self
    (fun u hut => RwLock.set_of_ne hut) ?_ ?_, hv⟩
  · exact hi.guards.release hheld (fun _ => hkeeps) (fun _ _ => hkeeps)
      fun u hut hu => relies_of_ne hut hu
  · intro tx hb
    cases hb

/-- A transaction is called in its round. -/
theorem Inv.setThread_beginning (hi : Inv mem loc owns bank (bankRound h) s)
    (hb : s.thread t = .idle) (hq : CallsOfMeasure h s (.started t tx)) :
    Inv mem loc owns bank (bankRound (.started t tx :: h)) (s.setThread t (.beginning tx)) := by
  have hround : bankRound (.started t tx :: h) = if tx.ofRun then .tests else bankRound h := rfl
  rw [CallsOfMeasure] at hq
  rw [hround]
  have hcall : ∀ {r : BankRound}, Inv mem loc owns bank r s → r.Allows tx →
      Inv mem loc owns bank r (s.setThread t (.beginning tx)) := by
    intro r hi hr
    apply hi.setThread_outside (by rw [hb]; rfl) rfl
    intro tx' htx'
    obtain rfl := Option.some.inj htx'
    exact hr
  by_cases htx : tx.ofRun
  · rw [if_pos htx] at hq ⊢
    obtain hq | ⟨hq, hidle⟩ := hq
    · rw [hq] at hi
      exact hcall hi htx
    · rw [hq] at hi
      exact hcall (hi.tests hidle) htx
  · rw [if_neg htx] at hq ⊢
    obtain ⟨hround, hown⟩ := hq
    apply hcall hi
    cases hr : bankRound h with
    | fresh =>
      cases tx with
      | init => rfl
      | initCheck => exact absurd hr (bankRound_ne_fresh (hown rfl))
      | _ => exact absurd rfl htx
    | filled => exact Bool.eq_false_iff.mpr htx
    | tests => exact absurd hr hround

variable [Fintype τ]

/-- A closure that has not returned does its next operation in a step of its thread. -/
theorem step_running (bank : WorkloadBank) (mem : Memory M ℤ) (ok : Bool)
    (hb : s.thread t = .running tx c rest)
    (hrest : ∀ a, rest ≠ .ret a) : s.step bank mem (.go t ok) =
      (rest.advance mem c s.memory).map fun (rest, c, memory) =>
        ({ s with memory := memory }.setThread t (.running tx c rest), .went t) := by
  rw [ReferenceBank.step, hb]
  cases rest with
  | ret a => exact absurd rfl (hrest a)
  | _ => rfl

/-- **One step** keeps the invariant, and a check that returns in it returns `true`. -/
theorem Inv.step (hi : Inv mem loc owns bank (bankRound h) s) (hlegal : bank.Legal)
    (hmem : mem.Lawful loc owns) (hal : mem.LawfulAlloc loc owns WORD_SIZE) {a : BankMove τ}
    (hs : s.step bank mem a = some (s', e)) (hq : CallsOfMeasure h s e) :
    Inv mem loc owns bank (bankRound (e :: h)) s' ∧
      ∀ t tx v, e = .returned t tx v → tx.isRo = true → v = some true := by
  cases a with
  | start t tx =>
    rw [ReferenceBank.step] at hs
    cases hb : s.thread t with
    | idle =>
      rw [hb] at hs
      obtain ⟨rfl, rfl⟩ := Prod.mk.inj (Option.some.inj hs)
      exact ⟨hi.setThread_beginning hb hq, by rintro _ _ _ ⟨⟩⟩
    | _ =>
      rw [hb] at hs
      cases hs
  | go t ok =>
    rw [ReferenceBank.step] at hs
    cases hb : s.thread t with
    | idle =>
      rw [hb] at hs
      cases hs
    | beginning tx =>
      rw [hb] at hs
      obtain ⟨⟨lock, x⟩, hbegin, heq⟩ := Option.map_eq_some_iff.mp hs
      obtain ⟨hnone, ⟨rfl, rfl⟩ | ⟨rfl, hk, rfl⟩⟩ := Reference.tmBegin_eq_some hbegin
      · dsimp only at heq
        rw [if_pos rfl] at heq
        obtain ⟨rfl, rfl⟩ := Prod.mk.inj heq
        exact ⟨hi.setThread_outside (by rw [hb]; rfl) rfl (by rintro _ ⟨⟩), by rintro _ _ _ ⟨⟩⟩
      · have hvalid :
            Reference.handleOf (some (Reference.holdOf tx.isRo)) ≠ Reference.invalidTx := by
          cases tx.isRo <;> decide
        dsimp only at heq
        rw [if_neg hvalid] at heq
        obtain ⟨rfl, rfl⟩ := Prod.mk.inj heq
        exact ⟨hi.setThread_enter hlegal hmem hal hb hk, by rintro _ _ _ ⟨⟩⟩
    | running tx c rest =>
      have hheld : s.lock.held t = some (Reference.holdOf tx.isRo) := by
        rw [hi.hold t, hb]
        rfl
      have hrelies := hi.guards.inside t (by rw [hheld]; simp)
      simp only [hb] at hrelies
      obtain ⟨⟨k, hwp⟩, hreads⟩ := hrelies
      by_cases hrest : ∀ a, rest ≠ .ret a
      · have hgo := step_running bank mem ok hb hrest
        rw [ReferenceBank.step] at hgo
        rw [hgo] at hs
        obtain ⟨⟨rest', c', m'⟩, hadv, heq⟩ := Option.map_eq_some_iff.mp hs
        obtain ⟨rfl, rfl⟩ := Prod.mk.inj heq
        refine ⟨hi.setThread_running hb (fun hro => ((hreads hro).advance hadv).2)
          ⟨⟨k, Prog.wp_advance hwp hadv⟩, fun hro => ((hreads hro).advance hadv).1⟩,
          by rintro _ _ _ ⟨⟩⟩
      · obtain ⟨a, ha⟩ := not_forall.mp hrest
        obtain rfl := Classical.not_not.mp ha
        rw [hb] at hs
        cases a with
        | inl l =>
          obtain ⟨rfl, rfl⟩ := Prod.mk.inj (Option.some.inj hs)
          obtain ⟨hro, j, -, hway⟩ := hwp
          exact ⟨hi.setThread_running hb (fun _ => rfl) (relies_turn hlegal hmem hal hro hway),
            by rintro _ _ _ ⟨⟩⟩
        | inr v =>
          obtain ⟨lock, hend, heq⟩ := Option.map_eq_some_iff.mp hs
          obtain ⟨rfl, rfl⟩ := Prod.mk.inj heq
          obtain ⟨-, rfl⟩ := Reference.tmEnd_eq_some hend
          obtain ⟨hi', hv⟩ := hi.setThread_idle hb
          refine ⟨hi', ?_⟩
          intro u tx' v' heq
          obtain ⟨-, rfl, rfl⟩ := BankReport.returned.inj heq
          exact hv

theorem Inv.run (hi : Inv mem loc owns bank (bankRound h) s₀) (hlegal : bank.Legal)
    (hmem : mem.Lawful loc owns) (hal : mem.LawfulAlloc loc owns WORD_SIZE)
    (hr : Run (ReferenceBank.step bank mem) (fun g => CallsOfMeasure (g ++ h)) s₀ g s) :
    Inv mem loc owns bank (bankRound (g ++ h)) s ∧
      ∀ t tx v, .returned t tx v ∈ g → tx.isRo = true → v = some true := by
  induction hr with
  | start => exact ⟨hi, fun t tx v hmem => by cases hmem⟩
  | next _ hs hq ih =>
    obtain ⟨hi', hold⟩ := ih
    obtain ⟨hi'', hnew⟩ := hi'.step hlegal hmem hal hs hq
    refine ⟨hi'', ?_⟩
    intro t tx v hv
    rcases List.mem_cons.mp hv with heq | hv
    · exact hnew t tx v heq.symm
    · exact hold t tx v hv

/-! ## Every transaction can be brought to its end

A thread that holds the lock does its turns, of which there are only so many, and gives the
lock back. One that waits can take it when the others have come to their ends. -/

/-- The thread can come to its end, while the others wait. -/
def Ends (bank : WorkloadBank) (mem : Memory M ℤ) (t : τ) (s : ReferenceBank τ M) : Prop :=
  ∃ g s', Run (ReferenceBank.step bank mem) NoCalls s g s' ∧ s'.thread t = .idle ∧
    ∀ u, u ≠ t → s'.thread u = s.thread u

/-- A thread can come to its end if it can after a step of its own. -/
theorem Ends.of_step (ok : Bool) (hs : s.step bank mem (.go t ok) = some (s', e))
    (hq : NoCalls [] s e) (hother : ∀ u, u ≠ t → s'.thread u = s.thread u)
    (hends : Ends bank mem t s') : Ends bank mem t s := by
  obtain ⟨g, s'', hr, hidle, hsame⟩ := hends
  exact ⟨_, s'', (Run.start.next hs hq).append (hr.mono fun _ _ _ hq => hq), hidle,
    fun u hut => (hsame u hut).trans (hother u hut)⟩

/-- A thread inside can come to its end. -/
theorem ends_of_running (hlegal : bank.Legal) (hmem : mem.Lawful loc owns)
    (hal : mem.LawfulAlloc loc owns WORD_SIZE) (k : ℕ) : ∀ {rest : Rest} {c : Tx}
    {s : ReferenceBank τ M}, s.thread t = .running tx c rest → s.lock.held t ≠ none →
      rest.wp mem (TurnPost mem loc owns bank tx k) c s.memory → Ends bank mem t s := by
  induction k using Nat.strongRecOn with
  | _ k ihk =>
    intro rest
    -- what is left of the turn is done operation by operation
    have hop : ∀ {rest : Rest} {c : Tx} {s : ReferenceBank τ M},
        s.thread t = .running tx c rest → (∀ a, rest ≠ .ret a) →
        rest.wp mem (TurnPost mem loc owns bank tx k) c s.memory →
        (∀ rest' c' m', rest.advance mem c s.memory = some (rest', c', m') →
          Ends bank mem t ({ s with memory := m' }.setThread t (.running tx c' rest'))) →
        Ends bank mem t s := by
      intro rest c s hb hrest hwp hnext
      obtain ⟨rest', c', m', hadv⟩ := Prog.exists_advance hwp hrest
      have hs : s.step bank mem (.go t true) =
          some ({ s with memory := m' }.setThread t (.running tx c' rest'), .went t) := by
        rw [step_running bank mem true hb hrest, hadv]
        rfl
      exact .of_step true hs trivial (fun u hut => thread_of_ne hut) (hnext rest' c' m' hadv)
    induction rest with
    | ret a =>
      intro c s hb hheld hwp
      cases a with
      | inl l =>
        obtain ⟨hro, j, hj, hway⟩ := hwp
        have hs : s.step bank mem (.go t true) =
            some (s.setThread t (.running tx c (turn bank l)), .went t) := by
          rw [ReferenceBank.step, hb]
        exact .of_step true hs trivial (fun u hut => thread_of_ne hut)
          (ihk j hj thread_self hheld (wp_turn hlegal hmem hal hro hway))
      | inr v =>
        have hs : s.step bank mem (.go t true) = some
            ({ s with lock := s.lock.set t none }.setThread t .idle, .returned t tx v) := by
          rw [ReferenceBank.step, hb]
          simp only [Reference.tmEnd, Reference.sharedLockReleaseShared,
            Reference.sharedLockRelease, ite_self, RwLock.unlock, if_neg hheld, Option.map_some]
        exact ⟨_, _, Run.start.next hs trivial, thread_self, fun u hut => thread_of_ne hut⟩
    | read addr next ih =>
      intro c s hb hheld hwp
      apply hop hb (by rintro _ ⟨⟩) hwp
      intro rest' c' m' hadv
      have hwp' := Prog.wp_advance hwp hadv
      obtain ⟨v, -, heq⟩ := Option.map_eq_some_iff.mp hadv
      cases heq
      exact ih v thread_self hheld hwp'
    | write addr v next ih =>
      intro c s hb hheld hwp
      apply hop hb (by rintro _ ⟨⟩) hwp
      intro rest' c' m' hadv
      have hwp' := Prog.wp_advance hwp hadv
      obtain ⟨m₁, -, heq⟩ := Option.map_eq_some_iff.mp hadv
      cases heq
      exact ih thread_self hheld hwp'
    | alloc size next ih =>
      intro c s hb hheld hwp
      apply hop hb (by rintro _ ⟨⟩) hwp
      intro rest' c' m' hadv
      have hwp' := Prog.wp_advance hwp hadv
      obtain ⟨r, -, heq⟩ := Option.map_eq_some_iff.mp hadv
      cases heq
      exact ih r.1 thread_self hheld hwp'
    | free addr next ih =>
      intro c s hb hheld hwp
      apply hop hb (by rintro _ ⟨⟩) hwp
      intro rest' c' m' hadv
      have hwp' := Prog.wp_advance hwp hadv
      obtain ⟨m₁, -, heq⟩ := Option.map_eq_some_iff.mp hadv
      cases heq
      exact ih thread_self hheld hwp'
    | save c₁ next ih =>
      intro c s hb hheld hwp
      apply hop hb (by rintro _ ⟨⟩) hwp
      intro rest' c' m' hadv
      have hwp' := Prog.wp_advance hwp hadv
      cases hadv
      exact ih thread_self hheld hwp'
    | fault => exact fun _ _ hwp => hwp.elim

/-- **Any thread can come to its end** if nobody is before it. -/
theorem Inv.ends (hi : Inv mem loc owns bank r s) (hlegal : bank.Legal)
    (hmem : mem.Lawful loc owns) (hal : mem.LawfulAlloc loc owns WORD_SIZE)
    (ht : (s.thread t).hold ≠ none ∨ ∀ u, (s.thread u).hold = none) : Ends bank mem t s := by
  have hinside : ∀ {s : ReferenceBank τ M} {tx c : Tx} {rest : Rest}, Inv mem loc owns bank r s →
      s.thread t = .running tx c rest → Ends bank mem t s := by
    intro s tx c rest hi hb
    have hheld : s.lock.held t ≠ none := by
      rw [hi.hold t, hb]
      simp [BankThread.hold]
    have hrelies := hi.guards.inside t hheld
    simp only [hb] at hrelies
    obtain ⟨⟨k, hwp⟩, -⟩ := hrelies
    exact ends_of_running hlegal hmem hal k hb hheld hwp
  cases hb : s.thread t with
  | idle => exact ⟨[], s, .start, hb, fun _ _ => rfl⟩
  | running tx c rest => exact hinside hi hb
  | beginning tx =>
    have hfree : ∀ u, s.lock.held u = none := by
      intro u
      rw [hi.hold u]
      obtain ht | ht := ht
      · rw [hb] at ht
        exact absurd rfl ht
      · exact ht u
    have hadmits := Reference.admits_of_free hfree (Reference.holdOf tx.isRo)
    have hvalid : Reference.handleOf (some (Reference.holdOf tx.isRo)) ≠ Reference.invalidTx := by
      cases tx.isRo <;> decide
    have hs : s.step bank mem (.go t true) = some ({ s with
        lock := s.lock.set t (some (Reference.holdOf tx.isRo))
        tx := Function.update s.tx t (Reference.handleOf (some (Reference.holdOf tx.isRo)))
          }.setThread t (.running tx tx (turn bank (enter bank tx))), .began t) := by
      rw [ReferenceBank.step, hb]
      dsimp only
      rw [Reference.tmBegin_of_admits (hfree t) hadmits, Option.map_some]
      dsimp only
      rw [if_neg hvalid]
    exact .of_step true hs trivial (fun u hut => thread_of_ne hut)
      (hinside (hi.setThread_enter hlegal hmem hal hb hadmits) thread_self)

/-- **All threads can come to their ends.** -/
theorem Inv.allEnd (hi : Inv mem loc owns bank (bankRound h) s) (hlegal : bank.Legal)
    (hmem : mem.Lawful loc owns) (hal : mem.LawfulAlloc loc owns WORD_SIZE) :
    ∃ g s', Run (ReferenceBank.step bank mem) NoCalls s g s' ∧ ∀ t, s'.thread t = .idle := by
  -- one thread after the other
  classical
  obtain ⟨n, hn⟩ : ∃ n, (Finset.univ.filter fun t => s.thread t ≠ .idle).card = n := ⟨_, rfl⟩
  induction n generalizing s h with
  | zero =>
    refine ⟨[], s, .start, ?_⟩
    intro t
    have hempty := Finset.filter_eq_empty_iff.mp (Finset.card_eq_zero.mp hn) (Finset.mem_univ t)
    exact Classical.not_not.mp hempty
  | succ n ih =>
    obtain ⟨t, hne, ht⟩ : ∃ t, s.thread t ≠ .idle ∧
        ((s.thread t).hold ≠ none ∨ ∀ u, (s.thread u).hold = none) := by
      by_cases hfree : ∀ u, (s.thread u).hold = none
      · have hpos : 0 < (Finset.univ.filter fun t => s.thread t ≠ .idle).card := by
          rw [hn]
          exact Nat.succ_pos n
        obtain ⟨t, ht⟩ := Finset.card_pos.mp hpos
        exact ⟨t, (Finset.mem_filter.mp ht).2, .inr hfree⟩
      · obtain ⟨t, ht⟩ := not_forall.mp hfree
        refine ⟨t, fun hidle => ht ?_, .inl ht⟩
        rw [hidle]
        rfl
    obtain ⟨g, s₁, hr, hidle, hsame⟩ := hi.ends hlegal hmem hal ht
    have hcard : (Finset.univ.filter fun u => s₁.thread u ≠ .idle).card = n := by
      have herase : (Finset.univ.filter fun u => s₁.thread u ≠ .idle) =
          (Finset.univ.filter fun u => s.thread u ≠ .idle).erase t := by
        ext u
        obtain rfl | hut := eq_or_ne u t
        · simp [hidle]
        · simp [hut, hsame u hut]
      rw [herase, Finset.card_erase_of_mem (Finset.mem_filter.mpr ⟨Finset.mem_univ t, hne⟩), hn]
      rfl
    obtain ⟨g', s', hr', hall⟩ := ih
      (hi.run hlegal hmem hal (hr.mono fun _ _ _ => callsOfMeasure_of_noCalls)).1 hcard
    exact ⟨g' ++ g, s', hr.append (hr'.mono fun _ _ _ hq => hq), hall⟩

end ReferenceBank

variable [DecidableEq τ] [Fintype τ] {mem : Memory M ℤ} {loc : ℕ → L}
  {owns : M → ℕ → ℕ → Prop} {bank : WorkloadBank} {h : List (BankReport τ)}
  {s : ReferenceBank τ M}

/-- **The workload never accuses the reference library.** In every run of any threads on a
fresh region, each with its `init` and then its transactions of `run` when all are back,
interleaved in any way that the lock of the library allows: every check returns `true`; while
no transaction that writes is under way, the memory holds the list of accounts in good order;
and without new calls all threads can come to the ends of their transactions. -/
theorem reference_never_accused (hlegal : bank.Legal) (hmem : mem.Lawful loc owns)
    (hal : mem.LawfulAlloc loc owns WORD_SIZE) {m : M}
    (hm : mem.Holds loc owns bank.first.cells [] m fun _ => 0)
    (hr : Run (ReferenceBank.step bank mem) CallsOfMeasure (ReferenceBank.create m) h s) :
    (∀ t tx v, .returned t tx v ∈ h → tx.isRo = true → v = some true) ∧
      ((∀ t tx c rest, s.thread t = .running tx c rest → tx.isRo = true) →
        (bankRound h).Keeps mem loc owns bank s.memory) ∧
      ∃ g s', Run (ReferenceBank.step bank mem) NoCalls s g s' ∧ ∀ t, s'.thread t = .idle := by
  have hcreate : ReferenceBank.Inv mem loc owns bank (bankRound ([] : List (BankReport τ)))
      (ReferenceBank.create m : ReferenceBank τ M) :=
    ⟨fun _ => rfl, .init ⟨_, hm, rfl, rfl⟩, fun t tx ht => by cases ht⟩
  obtain ⟨hi, hreturned⟩ := hcreate.run hlegal hmem hal (hr.mono fun g _ _ hq => by
    rw [List.append_nil]
    exact hq)
  rw [List.append_nil] at hi
  refine ⟨hreturned, ?_, hi.allEnd hlegal hmem hal⟩
  intro hro
  apply hi.guards.outside
  intro t ht
  rw [hi.hold t] at ht
  cases hb : s.thread t with
  | running tx c rest =>
    rw [hb, BankThread.hold, hro t tx c rest hb] at ht
    cases ht
  | _ =>
    rw [hb] at ht
    cases ht

/-- Two threads do their `init`, one after the other, and look together whether it is done.
Then they look at the accounts at the same time, and one of them creates an account in a new
segment while the other one waits to look again. -/
def lookTogether : List (BankMove Bool) :=
  [.start true .init, .start false .init] ++ List.replicate 4 (.go true true) ++
    List.replicate 4 (.go false true) ++ [.start true .initCheck, .start false .initCheck] ++
    (List.replicate 3 [.go true true, .go false true]).flatten ++
    [.start true (.long 0), .start false (.long 0)] ++
    (List.replicate 8 [.go true true, .go false true]).flatten ++
    [.start true (.alloc 5), .start false (.long 0)] ++ List.replicate 5 (.go true true)

/-- What the threads were told by the transactions that have returned. -/
def valuesReturned (h : List (BankReport Bool)) : List (Bool × Option Bool) :=
  h.filterMap fun e => match e with
    | .returned t _ v => some (t, v)
    | _ => none

/-- Both threads have found the accounts in order, and the present transaction and the one that
waits can end. -/
theorem reference_never_accused_together :
    ∃ h s, Run (ReferenceBank.step ⟨8, 1, 10⟩ (Heap.memory WORD_SIZE 8)) CallsOfMeasure
        (ReferenceBank.create (⟨[(8, 32)], 0⟩ : Heap ℤ)) h s ∧
      valuesReturned h = [(false, some true), (true, some true), (false, some true),
        (true, some true), (false, none), (true, none)] ∧
      ∃ g s', Run (ReferenceBank.step ⟨8, 1, 10⟩ (Heap.memory WORD_SIZE 8)) NoCalls s g s' ∧
        ∀ t, s'.thread t = .idle := by
  have hexec : (execUnder (ReferenceBank.step ⟨8, 1, 10⟩ (Heap.memory WORD_SIZE 8)) CallsOfMeasure
      lookTogether (ReferenceBank.create (⟨[(8, 32)], 0⟩ : Heap ℤ), [])).map
        (fun q => valuesReturned q.2) = some [(false, some true), (true, some true),
          (false, some true), (true, some true), (false, none), (true, none)] := by
    decide +kernel
  obtain ⟨⟨s, h⟩, hexec, hreturns⟩ := Option.map_eq_some_iff.mp hexec
  obtain ⟨s, hr, -⟩ := Run.of_execUnder (f := fun _ => ()) lookTogether .start
    (congrArg (Option.map fun p => (p.2, ())) hexec)
  exact ⟨h, s, hr, hreturns, (reference_never_accused ⟨by decide, by decide, by decide⟩ Heap.lawful
    (Heap.lawfulAlloc (by decide)) ⟨by decide, by decide, by simp⟩ hr).2.2⟩

end DualStm
