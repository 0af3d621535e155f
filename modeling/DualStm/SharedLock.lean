import DualStm.Library.RwLock
import DualStm.SegmentList

/-!
# The reference library under its lock

`tm_begin` of the reference implementation takes a readers-writer lock and `tm_end` gives it
back, so a transaction that may write runs alone. Transactions that only read run side by
side; as they change nothing, all transactions are what they would be one after the other, in
the order in which their `tm_begin` returned.
-/

namespace DualStm

namespace Reference

/-! ## The lock and the handles

`tm_begin` takes the lock in one of two modes and returns a handle that says which. `tm_end`
gives the lock back as the handle says. -/

/-- `tx_t`, an unsigned integer of the machine. -/
abbrev Tx := UInt64

/-- `invalid_tx`, the handle that no transaction has. -/
def invalidTx : Tx := ~~~0

/-- `UINTPTR_MAX`, the largest unsigned integer. -/
def uintptrMax : UInt64 := 0xffffffffffffffff

/-- `read_only_tx`, the handle of a transaction that only reads. -/
def readOnlyTx : Tx := uintptrMax - 10

/-- `read_write_tx`, the handle of any other transaction. -/
def readWriteTx : Tx := uintptrMax - 11

variable {τ : Type}

section

variable [DecidableEq τ]

/-- `shared_lock_acquire`. The environment decides whether `pthread_rwlock_wrlock` fails. -/
def sharedLockAcquire [Fintype τ] (lock : RwLock τ) (t : τ) (ok : Bool) :
    Option (RwLock τ × Bool) :=
  lock.lock t .exclusive ok

/-- `shared_lock_acquire_shared`, which is granted beside other readers. -/
def sharedLockAcquireShared [Fintype τ] (lock : RwLock τ) (t : τ) (ok : Bool) :
    Option (RwLock τ × Bool) := lock.lock t .shared ok

/-- `shared_lock_release`, `pthread_rwlock_unlock` for a writer. -/
def sharedLockRelease (lock : RwLock τ) (t : τ) : Option (RwLock τ) := lock.unlock t

/-- `shared_lock_release_shared`, `pthread_rwlock_unlock` for a reader. -/
def sharedLockReleaseShared (lock : RwLock τ) (t : τ) : Option (RwLock τ) := lock.unlock t

/-- `tm_begin`: the handle of the mode in which the lock was taken, or `invalid_tx`. -/
def tmBegin [Fintype τ] (lock : RwLock τ) (t : τ) (isRo ok : Bool) : Option (RwLock τ × Tx) := do
  if isRo then
    let (lock, taken) ← sharedLockAcquireShared lock t ok
    return (lock, if taken then readOnlyTx else invalidTx)
  else
    let (lock, taken) ← sharedLockAcquire lock t ok
    return (lock, if taken then readWriteTx else invalidTx)

/-- `tm_end`: the lock is released as the handle says. -/
def tmEnd (lock : RwLock τ) (t : τ) (tx : Tx) : Option (RwLock τ) :=
  if tx = readOnlyTx then sharedLockReleaseShared lock t else sharedLockRelease lock t

end

/-! ## Threads

Any number of threads, each with the handle it was given. A call within a transaction is one
step, on the memory that the lock guards. -/

/-- A call within a transaction. -/
inductive Op where
  /-- `tm_read` -/
  | read (source : Ptr) (size : UInt64)
  /-- a call that changes the memory -/
  | call (c : Call)

/-- What a call within a transaction returned. -/
inductive Result where
  /-- the bytes read -/
  | bytes (bs : List UInt8)
  /-- what the call did -/
  | event (e : Event)
  deriving DecidableEq

/-- The calls within a transaction, one at a time. -/
def operate (s : State) : Op → Option (State × Result)
  | .read source size => (tmRead s source size).map fun bs => (s, .bytes bs)
  | .call c => (step s c).map fun (s, e) => (s, .event e)

/-- The library and the threads that use it. -/
structure Shared (τ : Type) where
  /-- the memory, with the region -/
  memory : State
  /-- `lock` -/
  lock : RwLock τ
  /-- the handles; `invalid_tx` outside transactions -/
  tx : τ → Tx

/-- What a thread does next: it begins, calls or ends. -/
inductive Request (τ : Type) where
  /-- `tm_begin`, and whether the lock is refused -/
  | tmBegin (t : τ) (isRo ok : Bool)
  /-- a call within the transaction -/
  | operate (t : τ) (op : Op)
  /-- `tm_end` -/
  | tmEnd (t : τ)

/-- The mode in which `tm_begin` takes the lock. -/
def holdOf (isRo : Bool) : Hold := if isRo then .shared else .exclusive

/-- The transition function. A thread waits in `tm_begin` while its step is not enabled. -/
def Shared.step [DecidableEq τ] [Fintype τ] (s : Shared τ) :
    Request τ → Option (Shared τ × GuardEvent τ Op Result)
  | .tmBegin t isRo ok =>
    if s.tx t ≠ invalidTx then none
    else (Reference.tmBegin s.lock t isRo ok).map fun (lock, tx) =>
      ({ s with lock := lock, tx := Function.update s.tx t tx },
        if tx = invalidTx then .refused t (holdOf isRo) else .acquired t (holdOf isRo))
  | .operate t op =>
    if s.tx t = invalidTx then none
    else (Reference.operate s.memory op).map fun (memory, r) =>
      ({ s with memory := memory }, .did t op r)
  | .tmEnd t =>
    if s.tx t = invalidTx then none
    else (Reference.tmEnd s.lock t (s.tx t)).map fun lock =>
      ({ s with lock := lock, tx := Function.update s.tx t invalidTx }, .released t)

/-- Nobody has begun a transaction, and the lock is free. -/
def Shared.Idle (s : Shared τ) : Prop := s.lock = .init ∧ ∀ t, s.tx t = invalidTx

/-- The call only reads the memory. -/
def Op.IsRead : Op → Prop
  | .read _ _ => True
  | .call _ => False

/-- In a transaction that was begun as read-only the client only reads. -/
def ReadersRead : Discipline (Shared τ) (GuardEvent τ Op Result) := fun _ s e =>
  match e with
  | .did t op _ => s.tx t = readOnlyTx → op.IsRead
  | _ => True

instance (op : Op) : Decidable op.IsRead :=
  match op with
  | .read _ _ => inferInstanceAs (Decidable True)
  | .call _ => inferInstanceAs (Decidable False)

instance (h : List (GuardEvent τ Op Result)) (s : Shared τ) (e : GuardEvent τ Op Result) :
    Decidable (ReadersRead h s e) :=
  match e with
  | .did _ _ _ => inferInstanceAs (Decidable (_ → _))
  | .acquired _ _ => inferInstanceAs (Decidable True)
  | .refused _ _ => inferInstanceAs (Decidable True)
  | .released _ => inferInstanceAs (Decidable True)

/-- `tm_read` leaves the memory as it is. -/
theorem operate_of_isRead {s s' : State} {op : Op} {r : Result} (hread : op.IsRead)
    (hop : operate s op = some (s', r)) : s' = s := by
  cases op with
  | read source size =>
    obtain ⟨bs, -, heq⟩ := Option.map_eq_some_iff.mp hop
    exact (Prod.mk.inj heq).1.symm
  | call c => exact hread.elim

/-! ## A step

A handle tells how its thread holds the lock. So a step of the library is a step of an object
that a readers-writer lock guards. -/

/-- The handle tells how the lock is held. -/
def handleOf : Option Hold → Tx
  | none => invalidTx
  | some .shared => readOnlyTx
  | some .exclusive => readWriteTx

/-- The handles are those of the lock. -/
def Handles (s : Shared τ) : Prop := ∀ t, s.tx t = handleOf (s.lock.held t)

theorem Shared.Idle.handles {s : Shared τ} (hi : s.Idle) : Handles s := by
  intro t
  rw [hi.2 t, hi.1]
  rfl

variable [DecidableEq τ]

theorem Handles.set {s : Shared τ} (hh : Handles s) (memory : State) (t : τ) (k : Option Hold) :
    Handles ⟨memory, s.lock.set t k, Function.update s.tx t (handleOf k)⟩ := by
  intro u
  simp only
  obtain rfl | hut := eq_or_ne u t
  · rw [Function.update_self, RwLock.set_self]
  · rw [Function.update_of_ne hut, RwLock.set_of_ne hut]
    exact hh u

/-- What the lock answers, and what it is then. -/
theorem lock_eq_some [Fintype τ] {lock lock' : RwLock τ} {t : τ} {k : Hold} {ok taken : Bool}
    (hl : lock.lock t k ok = some (lock', taken)) :
    lock.held t = none ∧ (taken = false ∧ lock' = lock ∨
      taken = true ∧ lock.Admits k ∧ lock' = lock.set t (some k)) := by
  unfold RwLock.lock at hl
  split at hl
  · cases hl
  · rename_i hheld
    refine ⟨Classical.not_not.mp hheld, ?_⟩
    split at hl
    · obtain ⟨rfl, rfl⟩ := Prod.mk.inj (Option.some.inj hl)
      exact .inl ⟨rfl, rfl⟩
    · split at hl
      · rename_i hk
        obtain ⟨rfl, rfl⟩ := Prod.mk.inj (Option.some.inj hl)
        exact .inr ⟨rfl, hk, rfl⟩
      · cases hl

/-- What `tm_begin` answers, and what the lock is then. -/
theorem tmBegin_eq_some [Fintype τ] {lock lock' : RwLock τ} {t : τ} {isRo ok : Bool} {tx : Tx}
    (hb : tmBegin lock t isRo ok = some (lock', tx)) :
    lock.held t = none ∧ (tx = invalidTx ∧ lock' = lock ∨
      tx = handleOf (some (holdOf isRo)) ∧ lock.Admits (holdOf isRo) ∧
        lock' = lock.set t (some (holdOf isRo))) := by
  cases isRo with
  | true =>
    obtain ⟨⟨lock₁, taken⟩, hl, heq⟩ := Option.bind_eq_some_iff.mp hb
    obtain ⟨rfl, rfl⟩ := Prod.mk.inj (Option.some.inj heq)
    obtain ⟨hheld, ⟨rfl, rfl⟩ | ⟨rfl, hk, rfl⟩⟩ := lock_eq_some hl
    · exact ⟨hheld, .inl ⟨rfl, rfl⟩⟩
    · exact ⟨hheld, .inr ⟨rfl, hk, rfl⟩⟩
  | false =>
    obtain ⟨⟨lock₁, taken⟩, hl, heq⟩ := Option.bind_eq_some_iff.mp hb
    obtain ⟨rfl, rfl⟩ := Prod.mk.inj (Option.some.inj heq)
    obtain ⟨hheld, ⟨rfl, rfl⟩ | ⟨rfl, hk, rfl⟩⟩ := lock_eq_some hl
    · exact ⟨hheld, .inl ⟨rfl, rfl⟩⟩
    · exact ⟨hheld, .inr ⟨rfl, hk, rfl⟩⟩

/-- `tm_end` releases the lock that `tm_begin` took. -/
theorem tmEnd_eq_some {lock lock' : RwLock τ} {t : τ} {tx : Tx}
    (he : tmEnd lock t tx = some lock') : lock.held t ≠ none ∧ lock' = lock.set t none := by
  rw [tmEnd, sharedLockReleaseShared, sharedLockRelease, ite_self, RwLock.unlock] at he
  split at he
  · cases he
  · rename_i hheld
    exact ⟨hheld, (Option.some.inj he).symm⟩

/-- A step is one of the lock, or an operation of a holder of it. -/
theorem Shared.step_cases [Fintype τ] {s s' : Shared τ} {a : Request τ} {e : GuardEvent τ Op Result}
    (hh : Handles s) (hs : s.step a = some (s', e)) :
    Handles s' ∧
      (((∀ t op r, e ≠ .did t op r) ∧ s'.memory = s.memory ∧
          ∀ {σ : Type} (R : σ → Op → Result → σ → Prop) (m : σ),
            GuardStep R Op.IsRead m s.lock e m s'.lock) ∨
        ∃ t k op r, e = .did t op r ∧ s.lock.held t = some k ∧ s'.lock = s.lock ∧
          operate s.memory op = some (s'.memory, r)) := by
  cases a with
  | tmBegin t isRo ok =>
    rw [Shared.step] at hs
    split at hs
    · cases hs
    · obtain ⟨⟨lock, tx⟩, hb, heq⟩ := Option.map_eq_some_iff.mp hs
      obtain ⟨rfl, rfl⟩ := Prod.mk.inj heq
      obtain ⟨hheld, ⟨rfl, rfl⟩ | ⟨rfl, hk, rfl⟩⟩ := tmBegin_eq_some hb
      · rw [if_pos rfl]
        refine ⟨?_, .inl ⟨by rintro t op r ⟨⟩, rfl, fun R m => .refused⟩⟩
        · have hset := hh.set s.memory t none
          have hsame : s.lock.set t none = s.lock := by
            rw [RwLock.set, ← hheld, Function.update_eq_self]
          rwa [hsame] at hset
      · have hvalid : handleOf (some (holdOf isRo)) ≠ invalidTx := by
          cases isRo <;> decide
        rw [if_neg hvalid]
        exact ⟨hh.set s.memory t _, .inl ⟨by rintro t op r ⟨⟩, rfl, fun R m => .acquired hheld hk⟩⟩
  | operate t op =>
    rw [Shared.step] at hs
    split at hs
    · cases hs
    · rename_i htx
      obtain ⟨⟨memory, r⟩, hop, heq⟩ := Option.map_eq_some_iff.mp hs
      obtain ⟨rfl, rfl⟩ := Prod.mk.inj heq
      refine ⟨hh, .inr ?_⟩
      cases hk : s.lock.held t with
      | none =>
        rw [hh t, hk] at htx
        exact absurd rfl htx
      | some k => exact ⟨t, k, op, r, rfl, hk, rfl, hop⟩
  | tmEnd t =>
    rw [Shared.step] at hs
    split at hs
    · cases hs
    · obtain ⟨lock, he, heq⟩ := Option.map_eq_some_iff.mp hs
      obtain ⟨rfl, rfl⟩ := Prod.mk.inj heq
      obtain ⟨hheld, rfl⟩ := tmEnd_eq_some he
      obtain ⟨k, hk⟩ := Option.ne_none_iff_exists'.mp hheld
      exact ⟨hh.set s.memory t none,
        .inl ⟨by rintro t op r ⟨⟩, rfl, fun R m => .released hk⟩⟩

omit [DecidableEq τ] in
/-- A read-only handle means a shared lock. -/
theorem Handles.readOnly {s : Shared τ} (hh : Handles s) {t : τ} {k : Hold}
    (hk : s.lock.held t = some k) (hshared : k = .shared) : s.tx t = readOnlyTx := by
  rw [hh t, hk, hshared]
  rfl

omit [DecidableEq τ] in
/-- A read-write handle means an exclusive lock. -/
theorem Handles.readWrite {s : Shared τ} (hh : Handles s) {t : τ} (ht : s.tx t = readWriteTx) :
    s.lock.held t = some .exclusive := by
  rw [hh t] at ht
  cases hk : s.lock.held t with
  | none =>
    rw [hk] at ht
    cases ht
  | some k =>
    rw [hk] at ht
    cases k with
    | shared => cases ht
    | exclusive => rfl

/-! ## Runs

The rules of the readers-writer lock give the order of the transactions. What is left to show
is that nobody waits where the lock is free. -/

variable [Fintype τ] {s₀ s : Shared τ} {h : List (GuardEvent τ Op Result)}

/-- The memory, as an object that answers to calls. -/
def Operates (m : State) (op : Op) (r : Result) (m' : State) : Prop := operate m op = some (m', r)

/-- What every run keeps: the handles, and the sessions of the lock. -/
theorem Shared.sessionInv (hidle : s₀.Idle) (hr : Run Shared.step ReadersRead s₀ h s) :
    Handles s ∧ SessionInv Operates Op.IsRead s₀.memory h s.memory s.lock := by
  induction hr with
  | start =>
    refine ⟨hidle.handles, ?_⟩
    rw [hidle.1]
    exact .init
  | @next h s s' a e hr hs hq ih =>
    obtain ⟨hh, hi⟩ := ih
    obtain ⟨hh', hcases⟩ := Shared.step_cases hh hs
    refine ⟨hh', hi.step operate_of_isRead ?_⟩
    rcases hcases with ⟨-, hmem, hlock⟩ | ⟨t, k, op, r, rfl, hk, hlock, hop⟩
    · rw [hmem]
      exact hlock Operates s.memory
    · rw [hlock]
      exact .did hk hop fun hshared => hq (hh.readOnly hk hshared)

omit [DecidableEq τ] [Fintype τ] in
/-- Outside transactions nobody holds the lock. -/
theorem Handles.free (hh : Handles s) {t : τ} (ht : s.tx t = invalidTx) : s.lock.held t = none := by
  rw [hh t] at ht
  cases hk : s.lock.held t with
  | none => rfl
  | some k =>
    rw [hk] at ht
    cases k <;> cases ht

/-- Nobody waits in `tm_end`. -/
theorem Handles.tmEnd (hh : Handles s) {t : τ} (ht : s.tx t ≠ invalidTx) :
    s.step (.tmEnd t) = some ({ s with
      lock := s.lock.set t none
      tx := Function.update s.tx t invalidTx }, .released t) := by
  have hheld : s.lock.held t ≠ none := by
    intro hnone
    rw [hh t, hnone] at ht
    exact ht rfl
  rw [Shared.step, if_neg ht, Reference.tmEnd, sharedLockReleaseShared, sharedLockRelease, ite_self,
    RwLock.unlock, if_neg hheld, Option.map_some]

/-- `tm_begin` takes the lock when it is admitted. -/
theorem tmBegin_of_admits {lock : RwLock τ} {t : τ} {isRo : Bool} (hnone : lock.held t = none)
    (hadmits : lock.Admits (holdOf isRo)) :
    Reference.tmBegin lock t isRo true =
      some (lock.set t (some (holdOf isRo)), handleOf (some (holdOf isRo))) := by
  have hlock : lock.lock t (holdOf isRo) true = some (lock.set t (some (holdOf isRo)), true) := by
    rw [RwLock.lock, if_neg (Classical.not_not.mpr hnone), if_neg (by decide), if_pos hadmits]
  cases isRo with
  | true =>
    rw [Reference.tmBegin, if_pos rfl, sharedLockAcquireShared]
    exact Option.bind_eq_some_iff.mpr ⟨_, hlock, rfl⟩
  | false =>
    rw [Reference.tmBegin, if_neg (by decide), sharedLockAcquire]
    exact Option.bind_eq_some_iff.mpr ⟨_, hlock, rfl⟩

omit [DecidableEq τ] [Fintype τ] in
/-- A lock that nobody holds admits everybody. -/
theorem admits_of_free {lock : RwLock τ} (hfree : ∀ t, lock.held t = none) (k : Hold) :
    lock.Admits k := by
  cases k with
  | shared =>
    intro t
    rw [hfree t]
    rintro ⟨⟩
  | exclusive => exact hfree

/-- Nobody waits in `tm_begin` when nobody is inside. -/
theorem Handles.tmBegin (hh : Handles s) (hout : ∀ t, s.tx t = invalidTx) (t : τ) (isRo : Bool) :
    s.step (.tmBegin t isRo true) = some ({ s with
      lock := s.lock.set t (some (holdOf isRo))
      tx := Function.update s.tx t (handleOf (some (holdOf isRo))) },
        .acquired t (holdOf isRo)) := by
  have hadmits := admits_of_free (fun u => hh.free (hout u)) (holdOf isRo)
  have hbegin := tmBegin_of_admits (hh.free (hout t)) hadmits
  have hvalid : handleOf (some (holdOf isRo)) ≠ invalidTx := by
    cases isRo <;> decide
  rw [Shared.step, if_neg (Classical.not_not.mpr (hout t)), hbegin, Option.map_some]
  simp only [if_neg hvalid]

/-- **The reference library is serializable.** In every run whose read-only transactions
only read: the calls of all transactions, each transaction as a whole and one after the other
in the order in which they began, lead to the same memory with the same results; a
transaction that may write is alone; nobody has to wait to end; and with nobody inside
everybody can begin. -/
theorem serializable (hidle : s₀.Idle) (hr : Run Shared.step ReadersRead s₀ h s) :
    Performs Operates s₀.memory (serial h) s.memory ∧
      ((sessions h).map fun b => (b.thread, b.hold)) = acquisitions h ∧
      (∀ t, ((sessions h).filter fun b => b.thread = t).flatMap Session.calls = callsOf t h) ∧
      (∀ t u, s.tx t = readWriteTx → u ≠ t → s.tx u = invalidTx) ∧
      (∀ t, s.tx t ≠ invalidTx → ∃ s', s.step (.tmEnd t) = some (s', .released t)) ∧
      ((∀ t, s.tx t = invalidTx) → ∀ t isRo, ∃ s',
        s.step (.tmBegin t isRo true) = some (s', .acquired t (holdOf isRo))) := by
  obtain ⟨hh, hi⟩ := Shared.sessionInv hidle hr
  refine ⟨hi.performs, map_sessions h, hi.calls, ?_, fun t ht => ⟨_, hh.tmEnd ht⟩,
    fun hout t isRo => ⟨_, hh.tmBegin hout t isRo⟩⟩
  intro t u ht hu
  rw [hh u, hi.alone (hh.readWrite ht) hu]
  rfl

/-- One thread writes; then two threads read at the same time, and the first to begin ends
first. -/
def writeThenReadTwice : List (Request Bool) :=
  [.tmBegin true false true, .operate true (.call (.write [7] 8192)), .tmEnd true,
    .tmBegin false true true, .tmBegin true true true, .operate true (.read 8192 1),
    .operate false (.read 8192 1), .tmEnd false, .operate true (.read 8193 1)]

/-- Who ran the sessions, and what they returned. -/
def answers (h : List (GuardEvent Bool Op Result)) : List (Bool × Hold × List Result) :=
  (sessions h).map fun b => (b.thread, b.hold, b.calls.map Prod.snd)

/-- The answers of the run above are those of the three transactions one after the other. -/
theorem serializable_readers :
    ∃ (s₀ s : Shared Bool) (h : List (GuardEvent Bool Op Result)),
      Run Shared.step ReadersRead s₀ h s ∧
      answers h = [(true, .exclusive, [.event (.write 8192 1)]), (false, .shared, [.bytes [7]]),
        (true, .shared, [.bytes [7], .bytes [0]])] ∧
      Performs Operates s₀.memory (serial h) s.memory := by
  have hexec : ((tmCreate 88 noBlocks 64 8 (some (grantAt 4096)) (some (grantAt 8192)) true).bind
      fun c => match c with
        | .shared s₀ => (execUnder Shared.step ReadersRead writeThenReadTwice
            (⟨s₀, .init, fun _ => invalidTx⟩, [])).map fun p => answers p.2
        | .invalid _ => none) = some [(true, .exclusive, [.event (.write 8192 1)]),
          (false, .shared, [.bytes [7]]), (true, .shared, [.bytes [7], .bytes [0]])] := by
    decide +kernel
  obtain ⟨c, -, hexec⟩ := Option.bind_eq_some_iff.mp hexec
  cases c with
  | invalid heap => cases hexec
  | shared memory =>
    obtain ⟨⟨s, h⟩, hexec, hanswers⟩ := Option.map_eq_some_iff.mp hexec
    obtain ⟨s, hr, -⟩ := Run.of_execUnder (f := fun _ => ()) writeThenReadTwice .start
      (congrArg (Option.map fun p => (p.2, ())) hexec)
    exact ⟨_, s, h, hr, hanswers, (serializable ⟨rfl, fun _ => rfl⟩ hr).1⟩

end Reference

end DualStm
