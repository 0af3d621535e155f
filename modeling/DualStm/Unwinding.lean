import DualStm.Library.Run

/-!
# A transaction and how it is left

`Transaction` and `transactional` of `transactional.hpp`, on any library: what the library
answers is the environment's choice. A call that is refused throws `TransactionRetry`, and so
does the destructor when the library refuses to end the transaction; a closure can throw for
reasons of its own. An exception runs the destructor on its way out, which ends the
transaction unless it is aborted, and `transactional` begins again after a `TransactionRetry`.

So every run consists of attempts, `Attempts`, and the closure is run from its beginning in
each of them, with the variables that it captures as they are.
-/

namespace DualStm

namespace Unwinding

/-- What is thrown. Of what else there is nothing is known. -/
inductive Exception (ε : Type) where
  | transactionBegin
  | transactionRetry
  | transactionReadOnly
  | transactionAlloc
  | other (x : ε)

/-- `Transaction::Mode`, what the transaction is begun as. -/
inductive Mode where
  | readWrite
  | readOnly

/-- The mode as the `bool` that `tm_begin` takes. -/
def Mode.isRo : Mode → Bool
  | .readWrite => false
  | .readOnly => true

/-- What is left of a closure that is given to `transactional`: the operations that it calls,
what is copied being `V`s, and the assignments of the captured variables. -/
inductive Func (C ε V α : Type) where
  /-- return -/
  | ret (a : α)
  /-- throw -/
  | throw (ex : Exception ε)
  /-- assign the captured variables -/
  | save (c : C) (next : Func C ε V α)
  /-- `read` -/
  | read (source size : ℕ) (next : V → Func C ε V α)
  /-- `write` -/
  | write (source : V) (size target : ℕ) (next : Func C ε V α)
  /-- `alloc` -/
  | alloc (size : ℕ) (next : ℕ → Func C ε V α)
  /-- `free` -/
  | free (target : ℕ) (next : Func C ε V α)

/-- `STM::Alloc`, and the target that a success comes with. -/
inductive Alloc where
  | success (target : ℕ)
  | abort
  | nomem

/-- What the library answers to a call. -/
inductive Answer (X V : Type) where
  /-- to `tm_begin`; nothing is `invalid_tx` -/
  | begun (tx : Option X)
  /-- to `tm_read`; nothing if the transaction cannot continue -/
  | read (v : Option V)
  /-- to `tm_alloc` -/
  | alloc (r : Alloc)
  /-- to any other call -/
  | bool (ok : Bool)

/-- A call of the library and what it has answered. -/
inductive LibCall (X V : Type) where
  | tmBegin (isRo : Bool) (tx : Option X)
  | tmRead (tx : X) (source size : ℕ) (v : Option V)
  | tmWrite (tx : X) (source : V) (size target : ℕ) (ok : Bool)
  | tmAlloc (tx : X) (size : ℕ) (r : Alloc)
  | tmFree (tx : X) (target : ℕ) (ok : Bool)
  | tmEnd (tx : X) (ok : Bool)

/-- An object of the class `Transaction`, which the destructor has not yet closed. -/
structure Transaction (X : Type) where
  /-- the handle -/
  tx : X
  /-- the transaction was aborted -/
  aborted : Bool
  /-- it is read-only -/
  isRo : Bool

/-- How a scope is left: with a value, or with something thrown. -/
inductive Exit (ε α : Type) where
  | returned (a : α)
  | threw (ex : Exception ε)

/-- Where a call of `transactional` is. -/
inductive Place (X C ε V α : Type) where
  /-- in the constructor -/
  | constructing
  /-- in the closure -/
  | inside (t : Transaction X) (rest : Func C ε V α)
  /-- in the destructor -/
  | destroying (t : Transaction X) (e : Exit ε α)
  /-- it has returned, or thrown -/
  | done (e : Exit ε α)
  /-- a destructor has thrown during the unwinding -/
  | terminated

/-- A call of `transactional`, with the variables that its closure captures. -/
structure State (X C ε V α : Type) where
  /-- the captured variables -/
  captured : C
  /-- where it is -/
  place : Place X C ε V α

variable {X C ε V α : Type}

/-- The handler of `transactional`: a retry begins again, and everything else leaves the loop. -/
def caught : Exit ε α → Place X C ε V α
  | .threw .transactionRetry => .constructing
  | e => .done e

/-- The scope of the transaction is left: the destructor runs. -/
def leave (t : Transaction X) (e : Exit ε α) : Place X C ε V α :=
  if t.aborted then caught e else .destroying t e

/-- The destructor is done. What it throws itself must not meet another exception. -/
def ended (e : Exit ε α) : Bool → Place X C ε V α
  | true => caught e
  | false =>
    match e with
    | .returned _ => caught (.threw .transactionRetry)
    | .threw _ => .terminated

/-- The closure goes on to its next call, or leaves the scope. -/
def reach (assertMode : Bool) (t : Transaction X) : Func C ε V α → C → State X C ε V α
  | .ret a, c => ⟨c, leave t (.returned a)⟩
  | .throw ex, c => ⟨c, leave t (.threw ex)⟩
  | .save c next, _ => reach assertMode t next c
  | .read source size next, c => ⟨c, .inside t (.read source size next)⟩
  | .write source size target next, c =>
    if assertMode && t.isRo then ⟨c, leave t (.threw .transactionReadOnly)⟩
    else ⟨c, .inside t (.write source size target next)⟩
  | .alloc size next, c =>
    if assertMode && t.isRo then ⟨c, leave t (.threw .transactionReadOnly)⟩
    else ⟨c, .inside t (.alloc size next)⟩
  | .free target next, c =>
    if assertMode && t.isRo then ⟨c, leave t (.threw .transactionReadOnly)⟩
    else ⟨c, .inside t (.free target next)⟩

/-- A call is refused: the object becomes invalid, and the retry is thrown to the handler. -/
def refuse (t : Transaction X) (c : C) : State X C ε V α :=
  ⟨c, leave { t with aborted := true } (.threw .transactionRetry)⟩

/-- The library answers the pending call. -/
def step (assertMode : Bool) (mode : Mode) (func : C → Func C ε V α) (s : State X C ε V α)
    (a : Answer X V) : Option (State X C ε V α × LibCall X V) :=
  match s.place, a with
  | .constructing, .begun (some x) =>
    some (reach assertMode ⟨x, false, mode.isRo⟩ (func s.captured) s.captured,
      .tmBegin mode.isRo (some x))
  | .constructing, .begun none =>
    some (⟨s.captured, caught (.threw .transactionBegin)⟩, .tmBegin mode.isRo none)
  | .inside t (.read source size next), .read (some v) =>
    some (reach assertMode t (next v) s.captured, .tmRead t.tx source size (some v))
  | .inside t (.read source size _), .read none =>
    some (refuse t s.captured, .tmRead t.tx source size none)
  | .inside t (.write source size target next), .bool true =>
    some (reach assertMode t next s.captured, .tmWrite t.tx source size target true)
  | .inside t (.write source size target _), .bool false =>
    some (refuse t s.captured, .tmWrite t.tx source size target false)
  | .inside t (.alloc size next), .alloc (.success target) =>
    some (reach assertMode t (next target) s.captured, .tmAlloc t.tx size (.success target))
  | .inside t (.alloc size _), .alloc .nomem =>
    some (⟨s.captured, leave t (.threw .transactionAlloc)⟩, .tmAlloc t.tx size .nomem)
  | .inside t (.alloc size _), .alloc .abort =>
    some (refuse t s.captured, .tmAlloc t.tx size .abort)
  | .inside t (.free target next), .bool true =>
    some (reach assertMode t next s.captured, .tmFree t.tx target true)
  | .inside t (.free target _), .bool false =>
    some (refuse t s.captured, .tmFree t.tx target false)
  | .destroying t e, .bool ok =>
    some (⟨s.captured, ended e ok⟩, .tmEnd t.tx ok)
  | _, _ => none

/-- `transactional` is called, and its first step is the constructor. -/
def call (c : C) : State X C ε V α := ⟨c, .constructing⟩

/-! ## Attempts

An attempt is one turn of the loop of `transactional`: a transaction in which the closure is
served until it is refused something, or until it comes to its end. A run is a sequence of
these, the last one perhaps not over. -/

/-- The call may change the memory. -/
def LibCall.modifies : LibCall X V → Bool
  | .tmWrite _ _ _ _ _ | .tmAlloc _ _ _ | .tmFree _ _ _ => true
  | _ => false

/-- The closure `p` has done the calls, newest first, which were all accepted, and has this
left to do. With `writes` it may modify the memory. -/
inductive Serves (writes : Bool) (x : X) (p : Func C ε V α) (c : C) :
    List (LibCall X V) → Func C ε V α → C → Prop where
  | start : Serves writes x p c [] p c
  | save {g : List (LibCall X V)} {c₁ c₂ : C} {next : Func C ε V α}
      (h : Serves writes x p c g (.save c₁ next) c₂) : Serves writes x p c g next c₁
  | read {g : List (LibCall X V)} {source size : ℕ} {next : V → Func C ε V α} {c' : C}
      (h : Serves writes x p c g (.read source size next) c') (v : V) :
    Serves writes x p c (.tmRead x source size (some v) :: g) (next v) c'
  | write {g : List (LibCall X V)} {source : V} {size target : ℕ} {next : Func C ε V α} {c' : C}
      (h : Serves writes x p c g (.write source size target next) c') (hw : writes = true) :
    Serves writes x p c (.tmWrite x source size target true :: g) next c'
  | alloc {g : List (LibCall X V)} {size : ℕ} {next : ℕ → Func C ε V α} {c' : C}
      (h : Serves writes x p c g (.alloc size next) c') (hw : writes = true) (target : ℕ) :
    Serves writes x p c (.tmAlloc x size (.success target) :: g) (next target) c'
  | free {g : List (LibCall X V)} {target : ℕ} {next : Func C ε V α} {c' : C}
      (h : Serves writes x p c g (.free target next) c') (hw : writes = true) :
    Serves writes x p c (.tmFree x target true :: g) next c'

/-- The next call of the closure is refused. -/
inductive Refuses (writes : Bool) (x : X) : Func C ε V α → LibCall X V → Prop where
  | read {source size : ℕ} {next : V → Func C ε V α} :
    Refuses writes x (.read source size next) (.tmRead x source size none)
  | write {source : V} {size target : ℕ} {next : Func C ε V α} (hw : writes = true) :
    Refuses writes x (.write source size target next) (.tmWrite x source size target false)
  | alloc {size : ℕ} {next : ℕ → Func C ε V α} (hw : writes = true) :
    Refuses writes x (.alloc size next) (.tmAlloc x size .abort)
  | free {target : ℕ} {next : Func C ε V α} (hw : writes = true) :
    Refuses writes x (.free target next) (.tmFree x target false)

/-- The next operation of the closure modifies the memory. -/
def Func.modifies : Func C ε V α → Bool
  | .write _ _ _ _ | .alloc _ _ | .free _ _ => true
  | _ => false

/-- The next operation of the closure is a call of the library, which `assert_mode` lets
through. -/
def Func.calls (writes : Bool) : Func C ε V α → Bool
  | .read _ _ _ => true
  | .write _ _ _ _ | .alloc _ _ | .free _ _ => writes
  | _ => false

/-- The closure `p` has come to its end, one way or the other, and no call was refused. -/
inductive Leaves (writes : Bool) (x : X) (p : Func C ε V α) (c : C) :
    List (LibCall X V) → Exit ε α → C → Prop where
  | ret {g : List (LibCall X V)} {a : α} {c' : C} (h : Serves writes x p c g (.ret a) c') :
    Leaves writes x p c g (.returned a) c'
  | throw {g : List (LibCall X V)} {ex : Exception ε} {c' : C}
      (h : Serves writes x p c g (.throw ex) c') : Leaves writes x p c g (.threw ex) c'
  | readOnly {g : List (LibCall X V)} {q : Func C ε V α} {c' : C}
      (h : Serves writes x p c g q c') (hq : q.modifies = true) (hw : writes = false) :
    Leaves writes x p c g (.threw .transactionReadOnly) c'
  | nomem {g : List (LibCall X V)} {size : ℕ} {next : ℕ → Func C ε V α} {c' : C}
      (h : Serves writes x p c g (.alloc size next) c') (hw : writes = true) :
    Leaves writes x p c (.tmAlloc x size .nomem :: g) (.threw .transactionAlloc) c'

/-- Whole attempts, one after the other, each of them leading to the next one: of the
closures `func`, the captured variables being `c` at first. -/
inductive Attempts (writes isRo : Bool) (func : C → Func C ε V α) (c : C) :
    List (LibCall X V) → C → Prop where
  | start : Attempts writes isRo func c [] c
  /-- a call was refused -/
  | refused {h g : List (LibCall X V)} {x : X} {q : Func C ε V α} {k : LibCall X V} {c₀ c' : C}
      (h₀ : Attempts writes isRo func c h c₀) (hs : Serves writes x (func c₀) c₀ g q c')
      (hr : Refuses writes x q k) :
    Attempts writes isRo func c (k :: (g ++ .tmBegin isRo (some x) :: h)) c'
  /-- the end was refused -/
  | undone {h g : List (LibCall X V)} {x : X} {a : α} {c₀ c' : C}
      (h₀ : Attempts writes isRo func c h c₀)
      (hl : Leaves writes x (func c₀) c₀ g (.returned a) c') :
    Attempts writes isRo func c (.tmEnd x false :: (g ++ .tmBegin isRo (some x) :: h)) c'
  /-- the closure has thrown the exception itself -/
  | again {h g : List (LibCall X V)} {x : X} {c₀ c' : C}
      (h₀ : Attempts writes isRo func c h c₀)
      (hl : Leaves writes x (func c₀) c₀ g (.threw .transactionRetry) c') :
    Attempts writes isRo func c (.tmEnd x true :: (g ++ .tmBegin isRo (some x) :: h)) c'

/-- Where a call of `transactional` is, and what it has done to come there. -/
inductive Stage (writes isRo : Bool) (func : C → Func C ε V α) (c : C) :
    List (LibCall X V) → State X C ε V α → Prop where
  | constructing {h : List (LibCall X V)} {c' : C} (h₀ : Attempts writes isRo func c h c') :
    Stage writes isRo func c h ⟨c', .constructing⟩
  | inside {h g : List (LibCall X V)} {x : X} {q : Func C ε V α} {c₀ c' : C}
      (h₀ : Attempts writes isRo func c h c₀) (hs : Serves writes x (func c₀) c₀ g q c')
      (hq : q.calls writes = true) :
    Stage writes isRo func c (g ++ .tmBegin isRo (some x) :: h) ⟨c', .inside ⟨x, false, isRo⟩ q⟩
  | destroying {h g : List (LibCall X V)} {x : X} {e : Exit ε α} {c₀ c' : C}
      (h₀ : Attempts writes isRo func c h c₀) (hl : Leaves writes x (func c₀) c₀ g e c') :
    Stage writes isRo func c (g ++ .tmBegin isRo (some x) :: h)
      ⟨c', .destroying ⟨x, false, isRo⟩ e⟩
  | refused {h : List (LibCall X V)} {c' : C} (h₀ : Attempts writes isRo func c h c') :
    Stage writes isRo func c (.tmBegin isRo none :: h) ⟨c', .done (.threw .transactionBegin)⟩
  | done {h g : List (LibCall X V)} {x : X} {e : Exit ε α} {c₀ c' : C}
      (h₀ : Attempts writes isRo func c h c₀) (hl : Leaves writes x (func c₀) c₀ g e c')
      (hne : e ≠ .threw .transactionRetry) :
    Stage writes isRo func c (.tmEnd x true :: (g ++ .tmBegin isRo (some x) :: h)) ⟨c', .done e⟩
  | terminated {h g : List (LibCall X V)} {x : X} {ex : Exception ε} {c₀ c' : C}
      (h₀ : Attempts writes isRo func c h c₀) (hl : Leaves writes x (func c₀) c₀ g (.threw ex) c') :
    Stage writes isRo func c (.tmEnd x false :: (g ++ .tmBegin isRo (some x) :: h))
      ⟨c', .terminated⟩

variable {assertMode writes isRo : Bool} {mode : Mode} {func : C → Func C ε V α} {c c₀ c' : C}
  {h g : List (LibCall X V)} {s s' : State X C ε V α} {a : Answer X V} {k : LibCall X V} {x : X}
  {q p : Func C ε V α} {e : Exit ε α}

theorem reach_of_modifies {t : Transaction X} (hq : q.modifies = true) :
    reach assertMode t q c =
      if assertMode && t.isRo then ⟨c, leave t (.threw .transactionReadOnly)⟩
      else ⟨c, .inside t q⟩ := by
  cases q with
  | write source size target next => rfl
  | alloc size next => rfl
  | free target next => rfl
  | _ => cases hq

theorem calls_of_modifies (hq : q.modifies = true) : q.calls writes = writes := by
  cases q with
  | write source size target next => rfl
  | alloc size next => rfl
  | free target next => rfl
  | _ => cases hq

namespace Stage

/-- The closure goes on, and would modify the memory. -/
theorem reach_modifies (h₀ : Attempts (!(assertMode && isRo)) isRo func c h c₀)
    (hs : Serves (!(assertMode && isRo)) x (func c₀) c₀ g q c') (hq : q.modifies = true) :
    Stage (!(assertMode && isRo)) isRo func c (g ++ .tmBegin isRo (some x) :: h)
      (Unwinding.reach assertMode ⟨x, false, isRo⟩ q c') := by
  rw [reach_of_modifies hq]
  by_cases hro : (assertMode && isRo) = true
  · rw [if_pos hro]
    exact .destroying h₀ (.readOnly hs hq (by rw [hro]; rfl))
  · rw [if_neg hro]
    rw [Bool.not_eq_true] at hro
    exact .inside h₀ hs (by rw [calls_of_modifies hq, hro]; rfl)

/-- A closure that has been served goes on, and the run is still in an attempt. -/
theorem reach (h₀ : Attempts (!(assertMode && isRo)) isRo func c h c₀)
    (hs : Serves (!(assertMode && isRo)) x (func c₀) c₀ g q c') :
    Stage (!(assertMode && isRo)) isRo func c (g ++ .tmBegin isRo (some x) :: h)
      (Unwinding.reach assertMode ⟨x, false, isRo⟩ q c') := by
  induction q generalizing c' with
  | ret a => exact .destroying h₀ (.ret hs)
  | throw ex => exact .destroying h₀ (.throw hs)
  | save c₁ next ih => exact ih hs.save
  | read source size next => exact .inside h₀ hs rfl
  | write source size target next => exact reach_modifies h₀ hs rfl
  | alloc size next => exact reach_modifies h₀ hs rfl
  | free target next => exact reach_modifies h₀ hs rfl

/-- The destructor has ended the transaction. -/
theorem ended (h₀ : Attempts writes isRo func c h c₀) (hl : Leaves writes x (func c₀) c₀ g e c')
    (ok : Bool) :
    Stage writes isRo func c (.tmEnd x ok :: (g ++ .tmBegin isRo (some x) :: h))
      ⟨c', Unwinding.ended e ok⟩ := by
  cases ok with
  | true =>
    cases e with
    | returned a => exact .done h₀ hl (by simp)
    | threw ex =>
      cases ex with
      | transactionRetry => exact .constructing (.again h₀ hl)
      | _ => exact .done h₀ hl (by simp)
  | false =>
    cases e with
    | returned a => exact .constructing (.undone h₀ hl)
    | threw ex => exact .terminated h₀ hl

/-- **One answer of the library** keeps the run in an attempt, or takes it to the next one. -/
theorem step (hst : Stage (!(assertMode && mode.isRo)) mode.isRo func c h s)
    (hs : Unwinding.step assertMode mode func s a = some (s', k)) :
    Stage (!(assertMode && mode.isRo)) mode.isRo func c (k :: h) s' := by
  cases hst with
  | constructing h₀ =>
    cases a with
    | begun tx =>
      cases tx with
      | some x =>
        obtain ⟨rfl, rfl⟩ := Prod.mk.inj (Option.some.inj hs)
        exact reach (g := []) h₀ .start
      | none =>
        obtain ⟨rfl, rfl⟩ := Prod.mk.inj (Option.some.inj hs)
        exact .refused h₀
    | _ => cases hs
  | inside h₀ hserves hq =>
    rename_i q c₀ c'
    cases q with
    | read source size next =>
      cases a with
      | read v =>
        cases v with
        | some v =>
          obtain ⟨rfl, rfl⟩ := Prod.mk.inj (Option.some.inj hs)
          exact reach h₀ (hserves.read v)
        | none =>
          obtain ⟨rfl, rfl⟩ := Prod.mk.inj (Option.some.inj hs)
          exact .constructing (.refused h₀ hserves .read)
      | _ => cases hs
    | write source size target next =>
      cases a with
      | bool ok =>
        cases ok with
        | true =>
          obtain ⟨rfl, rfl⟩ := Prod.mk.inj (Option.some.inj hs)
          exact reach h₀ (hserves.write hq)
        | false =>
          obtain ⟨rfl, rfl⟩ := Prod.mk.inj (Option.some.inj hs)
          exact .constructing (.refused h₀ hserves (.write hq))
      | _ => cases hs
    | alloc size next =>
      cases a with
      | alloc r =>
        cases r with
        | success target =>
          obtain ⟨rfl, rfl⟩ := Prod.mk.inj (Option.some.inj hs)
          exact reach h₀ (hserves.alloc hq target)
        | abort =>
          obtain ⟨rfl, rfl⟩ := Prod.mk.inj (Option.some.inj hs)
          exact .constructing (.refused h₀ hserves (.alloc hq))
        | nomem =>
          obtain ⟨rfl, rfl⟩ := Prod.mk.inj (Option.some.inj hs)
          exact .destroying h₀ (.nomem hserves hq)
      | _ => cases hs
    | free target next =>
      cases a with
      | bool ok =>
        cases ok with
        | true =>
          obtain ⟨rfl, rfl⟩ := Prod.mk.inj (Option.some.inj hs)
          exact reach h₀ (hserves.free hq)
        | false =>
          obtain ⟨rfl, rfl⟩ := Prod.mk.inj (Option.some.inj hs)
          exact .constructing (.refused h₀ hserves (.free hq))
      | _ => cases hs
    | _ => cases hq
  | destroying h₀ hl =>
    cases a with
    | bool ok =>
      obtain ⟨rfl, rfl⟩ := Prod.mk.inj (Option.some.inj hs)
      exact ended h₀ hl ok
    | _ => cases hs
  | refused h₀ => cases a <;> cases hs
  | done h₀ hl hne => cases a <;> cases hs
  | terminated h₀ hl => cases a <;> cases hs

theorem run (hr : Run (Unwinding.step assertMode mode func) anyStep (call c) h s) :
    Stage (!(assertMode && mode.isRo)) mode.isRo func c h s := by
  induction hr with
  | start => exact .constructing .start
  | next _ hs _ ih => exact ih.step hs

end Stage

/-! ## Every sequence of attempts is a run

The other way round: whatever attempts the relations allow, there are answers of the library
with which the machine makes them. -/

section

variable {s₀ : State X C ε V α}

/-- The closure waits for the answer to its next operation. -/
theorem waits (hr : Run (step assertMode mode func) anyStep s₀ h
      (reach assertMode ⟨x, false, mode.isRo⟩ q c)) (hq : q.modifies = true)
    (hw : (!(assertMode && mode.isRo)) = true) :
    Run (step assertMode mode func) anyStep s₀ h ⟨c, .inside ⟨x, false, mode.isRo⟩ q⟩ := by
  rw [Bool.not_eq_true'] at hw
  rw [reach_of_modifies hq, if_neg (by rw [hw]; exact Bool.false_ne_true)] at hr
  exact hr

/-- The machine can serve the closure as the relation says. -/
theorem Serves.run (hs : Serves (!(assertMode && mode.isRo)) x p c g q c')
    (hr : Run (step assertMode mode func) anyStep s₀ h
      (reach assertMode ⟨x, false, mode.isRo⟩ p c)) :
    Run (step assertMode mode func) anyStep s₀ (g ++ h)
      (reach assertMode ⟨x, false, mode.isRo⟩ q c') := by
  induction hs with
  | start => exact hr
  | save h ih => exact ih
  | read h v ih => exact ih.next (a := .read (some v)) rfl trivial
  | write h hw ih =>
    exact (waits ih rfl hw).next (a := .bool true) rfl trivial
  | alloc h hw target ih =>
    exact (waits ih rfl hw).next (a := .alloc (.success target)) rfl trivial
  | free h hw ih =>
    exact (waits ih rfl hw).next (a := .bool true) rfl trivial

/-- The machine can be refused the next call of the closure. -/
theorem Refuses.run (hk : Refuses (!(assertMode && mode.isRo)) x q k)
    (hr : Run (step assertMode mode func) anyStep s₀ h
      (reach assertMode ⟨x, false, mode.isRo⟩ q c)) :
    Run (step assertMode mode func) anyStep s₀ (k :: h) ⟨c, .constructing⟩ := by
  cases hk with
  | read => exact hr.next (a := .read none) rfl trivial
  | write hw =>
    exact (waits hr rfl hw).next (a := .bool false) rfl trivial
  | alloc hw =>
    exact (waits hr rfl hw).next (a := .alloc .abort) rfl trivial
  | free hw =>
    exact (waits hr rfl hw).next (a := .bool false) rfl trivial

/-- The machine can come to the end of the closure as the relation says. -/
theorem Leaves.run (hl : Leaves (!(assertMode && mode.isRo)) x p c g e c')
    (hr : Run (step assertMode mode func) anyStep s₀ h
      (reach assertMode ⟨x, false, mode.isRo⟩ p c)) :
    Run (step assertMode mode func) anyStep s₀ (g ++ h)
      ⟨c', .destroying ⟨x, false, mode.isRo⟩ e⟩ := by
  cases hl with
  | ret hs => exact hs.run hr
  | throw hs => exact hs.run hr
  | readOnly hs hq hw =>
    have hro := hs.run hr
    rw [Bool.not_eq_false'] at hw
    rw [reach_of_modifies hq, if_pos hw] at hro
    exact hro
  | nomem hs hw => exact (waits (hs.run hr) rfl hw).next (a := .alloc .nomem) rfl trivial

theorem Attempts.run (ha : Attempts (!(assertMode && mode.isRo)) mode.isRo func c h c') :
    Run (step assertMode mode func) anyStep (call c) h ⟨c', .constructing⟩ := by
  induction ha with
  | start => exact .start
  | @refused h g x q k c₀ c' h₀ hs hk ih =>
    exact hk.run (hs.run (ih.next (a := .begun (some x)) rfl trivial))
  | @undone h g x a c₀ c' h₀ hl ih =>
    exact (hl.run (ih.next (a := .begun (some x)) rfl trivial)).next (a := .bool false) rfl trivial
  | @again h g x c₀ c' h₀ hl ih =>
    exact (hl.run (ih.next (a := .begun (some x)) rfl trivial)).next (a := .bool true) rfl trivial

end

/-! ## What the library sees

The calls of a run as the library gets them: each transaction is opened, used and closed before
the next one is opened, and at most the last one is committed. -/

/-- The transaction that a call has begun. -/
def LibCall.begun : LibCall X V → Option X
  | .tmBegin _ tx => tx
  | _ => none

/-- The transaction that a call is for. -/
def LibCall.tx : LibCall X V → Option X
  | .tmBegin _ _ => none
  | .tmRead tx _ _ _ | .tmWrite tx _ _ _ _ | .tmAlloc tx _ _ | .tmFree tx _ _ | .tmEnd tx _ =>
    some tx

/-- The transaction goes on after the call. -/
def LibCall.goesOn : LibCall X V → Bool
  | .tmRead _ _ _ v => v.isSome
  | .tmWrite _ _ _ _ ok | .tmFree _ _ ok => ok
  | .tmAlloc _ _ .abort => false
  | .tmAlloc _ _ _ => true
  | .tmBegin _ _ | .tmEnd _ _ => false

/-- The transaction `x` has been begun, and neither ended nor refused a call. -/
def Open (x : X) : List (LibCall X V) → Prop
  | [] => False
  | k :: h => k.begun = some x ∨ k.goesOn = true ∧ Open x h

/-- The library is called as it asks for: transactions do not overlap, and every call is for
the one that is open. -/
def Orderly : List (LibCall X V) → Prop
  | [] => True
  | k :: h => Orderly h ∧ (k.tx = none → ∀ x, ¬ Open x h) ∧ ∀ x, k.tx = some x → Open x h

/-- How many transactions have been committed. -/
def commits : List (LibCall X V) → ℕ
  | [] => 0
  | .tmEnd _ true :: h => commits h + 1
  | _ :: h => commits h

/-- The closure does not throw `TransactionRetry` of itself. -/
def Func.Quiet : Func C ε V α → Prop
  | .ret _ => True
  | .throw ex => ex ≠ .transactionRetry
  | .save _ next => next.Quiet
  | .read _ _ next => ∀ v, (next v).Quiet
  | .write _ _ _ next => next.Quiet
  | .alloc _ next => ∀ target, (next target).Quiet
  | .free _ next => next.Quiet

/-- What the calls of one attempt do to the account of the library. -/
structure Accepted (writes : Bool) (x : X) (g : List (LibCall X V)) : Prop where
  /-- the calls are for their transaction, which they leave open -/
  orderly : ∀ {h}, Orderly h → Open x h → Orderly (g ++ h) ∧ Open x (g ++ h)
  /-- nothing is committed -/
  commits : ∀ h, commits (g ++ h) = commits h
  /-- nothing is modified by a transaction that may not -/
  modifies : ∀ k ∈ g, k.modifies = true → writes = true

namespace Accepted

theorem nil : Accepted writes x ([] : List (LibCall X V)) := by
  refine ⟨fun ho hx => ⟨ho, hx⟩, fun _ => rfl, fun k hk => ?_⟩
  cases hk

/-- One more call of the transaction, which is accepted and lets the transaction go on, keeps
the calls accepted. -/
theorem cons (hg : Accepted writes x g) (htx : k.tx = some x) (hgo : k.goesOn = true)
    (hw : k.modifies = true → writes = true) : Accepted writes x (k :: g) := by
  refine ⟨fun ho hx => ?_, fun h => ?_, fun k' hk' => ?_⟩
  · obtain ⟨ho, hx⟩ := hg.orderly ho hx
    refine ⟨⟨ho, fun hnone => ?_, fun y hy => ?_⟩, .inr ⟨hgo, hx⟩⟩
    · rw [htx] at hnone
      cases hnone
    · rw [htx] at hy
      obtain rfl := Option.some.inj hy
      exact hx
  · cases k with
    | tmEnd tx ok => cases hgo
    | _ => exact hg.commits h
  · rcases List.mem_cons.mp hk' with rfl | hk'
    · exact hw
    · exact hg.modifies k' hk'

end Accepted

theorem Serves.accepted (hs : Serves writes x p c g q c') : Accepted writes x g := by
  induction hs with
  | start => exact .nil
  | save h ih => exact ih
  | read h v ih => exact ih.cons rfl rfl (by simp [LibCall.modifies])
  | write h hw ih => exact ih.cons rfl rfl fun _ => hw
  | alloc h hw target ih => exact ih.cons rfl rfl fun _ => hw
  | free h hw ih => exact ih.cons rfl rfl fun _ => hw

theorem Leaves.accepted (hl : Leaves writes x p c g e c') : Accepted writes x g := by
  cases hl with
  | ret hs => exact hs.accepted
  | throw hs => exact hs.accepted
  | readOnly hs _ _ => exact hs.accepted
  | nomem hs hw => exact hs.accepted.cons rfl rfl fun _ => hw

theorem Serves.quiet (hs : Serves writes x p c g q c') (hp : p.Quiet) : q.Quiet := by
  induction hs with
  | start => exact hp
  | save h ih => exact ih
  | read h v ih => exact ih v
  | write h hw ih => exact ih
  | alloc h hw target ih => exact ih target
  | free h hw ih => exact ih

/-- The calls were as they should be, and nothing was modified by a transaction that may
not. -/
structure Proper (writes : Bool) (h : List (LibCall X V)) : Prop where
  /-- the calls -/
  orderly : Orderly h
  /-- the modifications -/
  modifies : ∀ k ∈ h, k.modifies = true → writes = true

/-- The calls are proper, and no transaction is open after them. -/
structure Settled (writes : Bool) (h : List (LibCall X V)) : Prop extends Proper writes h where
  /-- nothing is open -/
  closed : ∀ x, ¬ Open x h

/-- The calls are proper, and the transaction `x` is open after them. -/
structure Pending (writes : Bool) (x : X) (h : List (LibCall X V)) : Prop
    extends Proper writes h where
  /-- the transaction is open -/
  isOpen : Open x h

/-- An attempt that is made after settled calls leaves its transaction open. -/
theorem Settled.attempt (isRo : Bool) (hh : Settled writes h) (hg : Accepted writes x g) :
    Pending writes x (g ++ .tmBegin isRo (some x) :: h) := by
  have ho : Orderly (.tmBegin isRo (some x) :: h) :=
    ⟨hh.orderly, fun _ => hh.closed, fun y hy => by cases hy⟩
  obtain ⟨ho, hx⟩ := hg.orderly ho (.inl rfl)
  refine ⟨⟨ho, ?_⟩, hx⟩
  intro k hk hmod
  rcases List.mem_append.mp hk with hk | hk
  · exact hg.modifies k hk hmod
  · rcases List.mem_cons.mp hk with rfl | hk
    · cases hmod
    · exact hh.modifies k hk hmod

/-- A call with which the open transaction ends settles the calls. -/
theorem Pending.close (hh : Pending writes x h) (htx : k.tx = some x) (hgo : k.goesOn = false)
    (hw : k.modifies = true → writes = true) : Settled writes (k :: h) := by
  refine ⟨⟨⟨hh.orderly, ?_, ?_⟩, ?_⟩, ?_⟩
  · intro hnone
    rw [htx] at hnone
    cases hnone
  · intro y hy
    rw [htx] at hy
    obtain rfl := Option.some.inj hy
    exact hh.isOpen
  · intro k' hk'
    rcases List.mem_cons.mp hk' with rfl | hk'
    · exact hw
    · exact hh.modifies k' hk'
  · intro y hy
    rcases hy with hy | ⟨hy, -⟩
    · cases k with
      | tmBegin isRo tx => cases htx
      | _ => cases hy
    · rw [hgo] at hy
      cases hy

theorem Refuses.shape (hk : Refuses writes x q k) :
    k.tx = some x ∧ k.goesOn = false ∧ (k.modifies = true → writes = true) ∧
      ∀ h, commits (k :: h) = commits h := by
  cases hk with
  | read => exact ⟨rfl, rfl, by simp [LibCall.modifies], fun _ => rfl⟩
  | write hw => exact ⟨rfl, rfl, fun _ => hw, fun _ => rfl⟩
  | alloc hw => exact ⟨rfl, rfl, fun _ => hw, fun _ => rfl⟩
  | free hw => exact ⟨rfl, rfl, fun _ => hw, fun _ => rfl⟩

theorem Attempts.settled (ha : Attempts writes isRo func c h c') : Settled writes h := by
  induction ha with
  | start =>
    refine ⟨⟨trivial, ?_⟩, fun x hx => hx⟩
    intro k hk
    cases hk
  | refused h₀ hs hk ih =>
    obtain ⟨htx, hgo, hw, -⟩ := hk.shape
    exact (ih.attempt _ hs.accepted).close htx hgo hw
  | undone h₀ hl ih => exact (ih.attempt _ hl.accepted).close rfl rfl (by simp [LibCall.modifies])
  | again h₀ hl ih => exact (ih.attempt _ hl.accepted).close rfl rfl (by simp [LibCall.modifies])

/-- A closure that is quiet is not left with a `TransactionRetry`. -/
theorem Leaves.ne_retry (hl : Leaves writes x p c g e c') (hp : p.Quiet) :
    e ≠ .threw .transactionRetry := by
  intro he
  subst he
  cases hl with
  | throw hs => exact hs.quiet hp rfl

theorem commits_attempt (hg : Accepted writes x g) :
    commits (g ++ .tmBegin isRo (some x) :: h) = commits h :=
  hg.commits _

/-- What leads to another attempt is not committed. -/
theorem Attempts.commits (hquiet : ∀ c, (func c).Quiet)
    (ha : Attempts writes isRo func c h c') : Unwinding.commits h = 0 := by
  induction ha with
  | start => rfl
  | refused h₀ hs hk ih => rw [hk.shape.2.2.2, commits_attempt hs.accepted, ih]
  | undone h₀ hl ih => exact (commits_attempt hl.accepted).trans ih
  | again h₀ hl ih => exact absurd rfl (hl.ne_retry (hquiet _))

namespace Stage

theorem proper (hst : Stage writes isRo func c h s) : Proper writes h := by
  cases hst with
  | constructing h₀ => exact h₀.settled.toProper
  | inside h₀ hs hq => exact (h₀.settled.attempt _ hs.accepted).toProper
  | destroying h₀ hl => exact (h₀.settled.attempt _ hl.accepted).toProper
  | refused h₀ =>
    have hh := h₀.settled
    refine ⟨⟨hh.orderly, fun _ => hh.closed, fun x hx => by cases hx⟩, ?_⟩
    intro k hk hmod
    rcases List.mem_cons.mp hk with rfl | hk
    · cases hmod
    · exact hh.modifies k hk hmod
  | done h₀ hl hne =>
    have hp := h₀.settled.attempt isRo hl.accepted
    exact (hp.close rfl rfl (by simp [LibCall.modifies])).toProper
  | terminated h₀ hl =>
    have hp := h₀.settled.attempt isRo hl.accepted
    exact (hp.close rfl rfl (by simp [LibCall.modifies])).toProper

theorem commits_eq_zero (hst : Stage writes isRo func c h s) (hquiet : ∀ c, (func c).Quiet)
    (hne : ∀ e, s.place ≠ .done e) : commits h = 0 := by
  cases hst with
  | constructing h₀ => exact h₀.commits hquiet
  | inside h₀ hs hq => exact (commits_attempt hs.accepted).trans (h₀.commits hquiet)
  | destroying h₀ hl => exact (commits_attempt hl.accepted).trans (h₀.commits hquiet)
  | refused h₀ => exact absurd rfl (hne _)
  | done h₀ hl _ => exact absurd rfl (hne _)
  | terminated h₀ hl => exact (commits_attempt hl.accepted).trans (h₀.commits hquiet)

theorem committed_of_done (hst : Stage writes isRo func c h s) (hquiet : ∀ c, (func c).Quiet)
    (he : s.place = .done e) :
    (e = .threw .transactionBegin ∧ commits h = 0) ∨
      commits h = 1 ∧ ∃ h₀ g x c₀, h = .tmEnd x true :: (g ++ .tmBegin isRo (some x) :: h₀) ∧
        Attempts writes isRo func c h₀ c₀ ∧ Leaves writes x (func c₀) c₀ g e s.captured := by
  cases hst with
  | refused h₀ =>
    injection he with he
    have hzero := h₀.commits hquiet
    exact .inl ⟨he.symm, hzero⟩
  | done h₀ hl _ =>
    injection he with he
    subst he
    refine .inr ⟨?_, _, _, _, _, rfl, h₀, hl⟩
    exact congrArg (· + 1) ((commits_attempt hl.accepted).trans (h₀.commits hquiet))
  | _ => cases he

end Stage

/-- **What `transactional` does.** With any library and any closure, its runs are exactly the
sequences of attempts. -/
theorem transactional_attempts {assertMode : Bool} {mode : Mode} {func : C → Func C ε V α} {c : C}
    {h : List (LibCall X V)} {s : State X C ε V α} :
    Run (step assertMode mode func) anyStep (call c) h s ↔
      Stage (!(assertMode && mode.isRo)) mode.isRo func c h s := by
  refine ⟨Stage.run, ?_⟩
  intro hst
  cases hst with
  | constructing h₀ => exact h₀.run
  | inside h₀ hs hq =>
    rename_i x q c₀ c'
    have hr := hs.run (h₀.run.next (a := .begun (some x)) rfl trivial)
    cases q with
    | read source size next => exact hr
    | write source size target next => exact waits hr rfl hq
    | alloc size next => exact waits hr rfl hq
    | free target next => exact waits hr rfl hq
    | _ => cases hq
  | destroying h₀ hl =>
    rename_i x e c₀ c'
    exact hl.run (h₀.run.next (a := .begun (some x)) rfl trivial)
  | refused h₀ => exact h₀.run.next (a := .begun none) rfl trivial
  | done h₀ hl hne =>
    rename_i x e c₀ c'
    have hend := hl.run (h₀.run.next (a := .begun (some x)) rfl trivial)
    cases e with
    | returned a => exact hend.next (a := .bool true) rfl trivial
    | threw ex =>
      cases ex with
      | transactionRetry => exact absurd rfl hne
      | _ => exact hend.next (a := .bool true) rfl trivial
  | terminated h₀ hl =>
    rename_i x ex c₀ c'
    have hend := hl.run (h₀.run.next (a := .begun (some x)) rfl trivial)
    exact hend.next (a := .bool false) rfl trivial

/-- **A transaction is committed once.** Let the closure throw no `TransactionRetry` of itself.
In every run of `transactional`, with any library: the calls are as the library expects them;
with `assert_mode` no call of a read-only transaction modifies anything; nothing is committed
before the end; and at the end, unless a `tm_begin` has failed, exactly one transaction is
committed, the last one, in which the closure has come from its beginning to what
`transactional` returns or throws, without a call that was refused. -/
theorem transactional_commits_once {assertMode : Bool} {mode : Mode} {func : C → Func C ε V α}
    {c : C} (hquiet : ∀ c, (func c).Quiet) {h : List (LibCall X V)} {s : State X C ε V α}
    (hr : Run (step assertMode mode func) anyStep (call c) h s) :
    Orderly h ∧
      (assertMode = true → mode = .readOnly → ∀ k ∈ h, k.modifies = false) ∧
      ((∀ e, s.place ≠ .done e) → commits h = 0) ∧
      (∀ e, s.place = .done e →
        (e = .threw .transactionBegin ∧ commits h = 0) ∨
        commits h = 1 ∧ ∃ h₀ g x c₀, h = .tmEnd x true :: (g ++ .tmBegin mode.isRo (some x) :: h₀) ∧
          Attempts (!(assertMode && mode.isRo)) mode.isRo func c h₀ c₀ ∧
          Leaves (!(assertMode && mode.isRo)) x (func c₀) c₀ g e s.captured) := by
  have hst := Stage.run hr
  obtain ⟨ho, hmod⟩ := hst.proper
  refine ⟨ho, ?_, hst.commits_eq_zero hquiet, fun e he => hst.committed_of_done hquiet he⟩
  intro ha hm k hk
  subst ha hm
  rw [← Bool.not_eq_true]
  intro hk'
  exact Bool.false_ne_true (hmod k hk hk')

/-- Count the attempts, and add one to a word. -/
def countingAttempts (attempts : ℕ) : Func ℕ Empty ℤ ℤ :=
  .save (attempts + 1) (.read 8 8 fun v => .write (v + 1) 8 8 (.ret v))

/-- The first attempt is refused its `read`, the second one is committed. -/
theorem transactional_commits_once_counting :
    ∃ (h : List (LibCall ℕ ℤ)) (s : State ℕ ℕ Empty ℤ ℤ),
      Run (step false .readWrite countingAttempts) anyStep (call 0) h s ∧ s.captured = 2 ∧
        s.place = .done (.returned 5) ∧ commits h = 1 := by
  have hquiet : ∀ attempts, (countingAttempts attempts).Quiet := fun _ _ => trivial
  have hr : Run (step false .readWrite countingAttempts) anyStep (call 0)
      [.tmEnd 9 true, .tmWrite 9 6 8 8 true, .tmRead 9 8 8 (some 5), .tmBegin false (some 9),
        .tmRead 7 8 8 none, .tmBegin false (some 7)] ⟨2, .done (.returned 5)⟩ :=
    Run.start.of_exec [.begun (some 7), .read none, .begun (some 9), .read (some 5), .bool true,
      .bool true] rfl
  obtain ⟨-, -, -, hlast⟩ := transactional_commits_once hquiet hr
  obtain ⟨hbegin, -⟩ | ⟨hone, -⟩ := hlast _ rfl
  · cases hbegin
  · exact ⟨_, _, hr, rfl, rfl, hone⟩

end Unwinding

end DualStm
