import DualStm.Library.Run
import Mathlib.Logic.Function.Basic

/-!
# Operations that are atomic somewhere between call and return

An object with operations, used by any number of threads, each of which calls one
operation at a time. In the atomic object a pending operation takes effect in one step,
at some point between its call and its return; its runs are what a concurrent
implementation has to look like from outside.

`Run.linearize` is the rule for showing that one does: a relation between the states of
the implementation and of the atomic object, such that every step of the implementation
is a call, a return, the point at which a pending operation takes effect, or nothing.
-/

namespace DualStm

universe u v w x y

/-- Where a thread is with its operation. -/
inductive Phase (Op : Type v) (R : Type w) where
  /-- nowhere -/
  | idle
  /-- called, not yet in effect -/
  | pending (op : Op)
  /-- the operation has taken effect, with this result -/
  | done (r : R)

/-- What is to be seen of a step: a call, a return, or nothing. -/
inductive CallEvent (τ : Type u) (Op : Type v) (R : Type w) where
  /-- an operation is called -/
  | called (t : τ) (op : Op)
  /-- a thread returns -/
  | returned (t : τ) (r : R)
  /-- nothing -/
  | silent
  deriving DecidableEq

/-- The calls and returns of a history. -/
def visible {τ : Type u} {Op : Type v} {R : Type w} :
    List (CallEvent τ Op R) → List (CallEvent τ Op R)
  | [] => []
  | .silent :: h => visible h
  | e :: h => e :: visible h

/-- The object and the threads that use it. -/
structure AtomicState (σ : Type x) (τ : Type u) (Op : Type v) (R : Type w) where
  /-- the object -/
  obj : σ
  /-- the threads -/
  phase : τ → Phase Op R

/-- What the threads may do: call an operation, let it take effect, return. -/
inductive CallAction (τ : Type u) (Op : Type v) where
  /-- call an operation -/
  | call (t : τ) (op : Op)
  /-- let it take effect -/
  | perform (t : τ)
  /-- return -/
  | ret (t : τ)

namespace AtomicState

variable {σ : Type x} {τ : Type u} {Op : Type v} {R : Type w} [DecidableEq τ]

/-- The object before anybody has called anything. -/
def start (obj : σ) : AtomicState σ τ Op R := ⟨obj, fun _ => .idle⟩

/-- Thread `t` is in another phase, and the object is as it was. -/
def setPhase (a : AtomicState σ τ Op R) (t : τ) (p : Phase Op R) : AtomicState σ τ Op R :=
  { a with phase := Function.update a.phase t p }

/-- The operation of a thread takes effect. -/
def perform (apply : τ → Op → σ → R × σ) (a : AtomicState σ τ Op R) (t : τ) (op : Op) :
    AtomicState σ τ Op R :=
  { a with obj := (apply t op a.obj).2 }.setPhase t (.done (apply t op a.obj).1)

/-- The atomic object: `apply` is what an operation does to it and what it returns. -/
def step (apply : τ → Op → σ → R × σ) (a : AtomicState σ τ Op R) :
    CallAction τ Op → Option (AtomicState σ τ Op R × CallEvent τ Op R)
  | .call t op =>
    match a.phase t with
    | .idle => some (a.setPhase t (.pending op), .called t op)
    | _ => none
  | .perform t =>
    match a.phase t with
    | .pending op => some (a.perform apply t op, .silent)
    | _ => none
  | .ret t =>
    match a.phase t with
    | .done r => some (a.setPhase t .idle, .returned t r)
    | _ => none

section

variable (a : AtomicState σ τ Op R) (t : τ) (p : Phase Op R)

@[simp] theorem setPhase_obj : (a.setPhase t p).obj = a.obj := rfl

@[simp] theorem setPhase_phase_self : (a.setPhase t p).phase t = p :=
  Function.update_self ..

theorem setPhase_phase_ne {u : τ} (hu : u ≠ t) : (a.setPhase t p).phase u = a.phase u :=
  Function.update_of_ne hu ..

end

end AtomicState

/-- How a step of an implementation shows in the atomic object. -/
inductive Matches {σ : Type x} {τ : Type u} {Op : Type v} {R : Type w} [DecidableEq τ]
    (apply : τ → Op → σ → R × σ) (a : AtomicState σ τ Op R) :
    CallEvent τ Op R → AtomicState σ τ Op R → Prop where
  /-- a call -/
  | call {t : τ} {op : Op} (hp : a.phase t = .idle) :
    Matches apply a (.called t op) (a.setPhase t (.pending op))
  /-- nothing -/
  | stay : Matches apply a .silent a
  /-- a pending operation takes effect -/
  | perform {t : τ} {op : Op} (hp : a.phase t = .pending op) :
    Matches apply a .silent (a.perform apply t op)
  /-- a return -/
  | ret {t : τ} {r : R} (hp : a.phase t = .done r) :
    Matches apply a (.returned t r) (a.setPhase t .idle)

/-- **Forward simulation.** If every step of the implementation shows in the atomic object,
so does every run: with the same calls and returns in the same order, and each operation
in effect at one point between the two. -/
theorem Run.linearize {κ : Type y} {α : Type v} {σ : Type x} {τ : Type u} {Op : Type v}
    {R : Type w} [DecidableEq τ] {apply : τ → Op → σ → R × σ}
    {step : κ → α → Option (κ × CallEvent τ Op R)} (Rel : κ → AtomicState σ τ Op R → Prop)
    (hstep : ∀ {s s' a act e}, Rel s a → step s act = some (s', e) →
      ∃ a', Matches apply a e a' ∧ Rel s' a')
    {s₀ s : κ} {a₀ : AtomicState σ τ Op R} {h : List (CallEvent τ Op R)} (h₀ : Rel s₀ a₀)
    (hr : Run step anyStep s₀ h s) :
    ∃ h' a, Run (AtomicState.step apply) anyStep a₀ h' a ∧ visible h' = visible h ∧ Rel s a := by
  induction hr with
  | start => exact ⟨[], a₀, .start, rfl, h₀⟩
  | next _ hs _ ih =>
    obtain ⟨h', a, hrun, hvis, hrel⟩ := ih
    obtain ⟨a', hm, hrel'⟩ := hstep hrel hs
    cases hm with
    | @call t op hp =>
      have hnext : a.step apply (.call t op) = some (a.setPhase t (.pending op), .called t op) := by
        simp only [AtomicState.step, hp]
      exact ⟨_, _, hrun.next hnext trivial, congrArg (CallEvent.called t op :: ·) hvis, hrel'⟩
    | stay => exact ⟨h', a, hrun, hvis, hrel'⟩
    | @perform t op hp =>
      have hnext : a.step apply (.perform t) = some (a.perform apply t op, .silent) := by
        simp only [AtomicState.step, hp]
      exact ⟨_, _, hrun.next hnext trivial, hvis, hrel'⟩
    | @ret t r hp =>
      have hnext : a.step apply (.ret t) = some (a.setPhase t .idle, .returned t r) := by
        simp only [AtomicState.step, hp]
      exact ⟨_, _, hrun.next hnext trivial, congrArg (CallEvent.returned t r :: ·) hvis, hrel'⟩

end DualStm
