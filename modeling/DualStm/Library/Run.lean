import Mathlib.Algebra.GroupWithZero.Nat
import Mathlib.Order.Basic
import Mathlib.Data.List.Basic

/-!
# Runs of a labelled machine

A machine is a partial step function: from a state, an action either is not
enabled or leads to one next state and emits one event. A **run** records the
events it emitted, newest first, so that a step conses onto the history and
every function of the history is a plain recursion.

A run carries a *discipline* `Q`: a condition that every one of its steps meets
(what the clients promise, or what an analysis excludes).
-/

namespace DualStm

universe u v w

variable {σ : Type u} {α : Type v} {ε : Type w}

/-- A discipline on steps: the history so far, the state the step starts in and
the event it emits. -/
abbrev Discipline (σ : Type u) (ε : Type w) := List ε → σ → ε → Prop

/-- The discipline that asks for nothing. -/
def anyStep : Discipline σ ε := fun _ _ _ => True

instance (h : List ε) (s : σ) (e : ε) : Decidable (anyStep h s e) :=
  inferInstanceAs (Decidable True)

/-- Runs of the machine `step` from `s₀`, each step meeting `Q`. The history is
newest first. -/
inductive Run (step : σ → α → Option (σ × ε)) (Q : Discipline σ ε) (s₀ : σ) :
    List ε → σ → Prop where
  /-- the empty run -/
  | start : Run step Q s₀ [] s₀
  /-- one more step -/
  | next {h : List ε} {s s' : σ} {a : α} {e : ε} :
      Run step Q s₀ h s → step s a = some (s', e) → Q h s e → Run step Q s₀ (e :: h) s'

/-- Run a list of actions, oldest first, collecting the history. -/
def exec (step : σ → α → Option (σ × ε)) : List α → σ × List ε → Option (σ × List ε)
  | [], p => some p
  | a :: as, (s, h) => (step s a).bind fun (s', e) => exec step as (s', e :: h)

/-- Run a list of actions, as long as every step meets the discipline. -/
def execUnder (step : σ → α → Option (σ × ε)) (Q : Discipline σ ε)
    [∀ h s e, Decidable (Q h s e)] : List α → σ × List ε → Option (σ × List ε)
  | [], p => some p
  | a :: as, (s, h) => (step s a).bind fun (s', e) =>
    if Q h s e then execUnder step Q as (s', e :: h) else none

-- The threads of a run that is told by its actions are numbers. As constants these are
-- in no list a proof of its own.
instance neZeroTwo : NeZero 2 := ⟨nofun⟩

instance neZeroThree : NeZero 3 := ⟨nofun⟩

namespace Run

variable {step : σ → α → Option (σ × ε)} {Q Q' : Discipline σ ε} {s₀ s s' : σ}
  {h h' : List ε}

/-- A run under a discipline is one under any weaker discipline. -/
theorem mono (hr : Run step Q s₀ h s) (hQ : ∀ h s e, Q h s e → Q' h s e) :
    Run step Q' s₀ h s := by
  induction hr with
  | start => exact .start
  | next _ hs hq ih => exact ih.next hs (hQ _ _ _ hq)

/-- A run under a discipline is a run. -/
theorem any (hr : Run step Q s₀ h s) : Run step anyStep s₀ h s :=
  hr.mono fun _ _ _ _ => trivial

/-- A discipline that asks only about the events. -/
theorem of_forall (hr : Run step anyStep s₀ h s) (hQ : ∀ e ∈ h, ∀ h s, Q h s e) :
    Run step Q s₀ h s := by
  induction hr with
  | start => exact .start
  | next _ hs _ ih =>
    obtain ⟨he, hQ⟩ := List.forall_mem_cons.mp hQ
    exact (ih hQ).next hs (he _ _)

/-- A run split at any point of its history. -/
theorem split (hr : Run step Q s₀ (h' ++ h) s') :
    ∃ s, Run step Q s₀ h s ∧ Run step (fun g => Q (g ++ h)) s h' s' := by
  induction h' generalizing s' with
  | nil => exact ⟨s', hr, .start⟩
  | cons e h' ih =>
    cases hr with
    | next hr hs hq =>
      obtain ⟨s, hr₁, hr₂⟩ := ih hr
      exact ⟨s, hr₁, hr₂.next hs hq⟩

/-- Runs compose: the later run meets the discipline over the longer history. -/
theorem append (hr : Run step Q s₀ h s) (hr' : Run step (fun g => Q (g ++ h)) s h' s') :
    Run step Q s₀ (h' ++ h) s' := by
  induction hr' with
  | start => exact hr
  | next _ hs hq ih => exact ih.next hs hq

/-- Runs without a discipline compose. -/
theorem trans (hr : Run step anyStep s₀ h s) (hr' : Run step anyStep s h' s') :
    Run step anyStep s₀ (h' ++ h) s' :=
  hr.append (hr'.mono fun _ _ _ _ => trivial)

/-- A run with a history that is not empty has a last step. -/
theorem last {e : ε} (hr : Run step Q s₀ (e :: h) s') :
    ∃ s a, Run step Q s₀ h s ∧ step s a = some (s', e) ∧ Q h s e := by
  cases hr with
  | next hr hs hq => exact ⟨_, _, hr, hs, hq⟩

theorem mem_of_exec {e : ε} (as : List α) : ∀ {s : σ} {h : List ε},
    exec step as (s, h) = some (s', h') → e ∈ h → e ∈ h' := by
  induction as with
  | nil =>
    intro s h he hmem
    obtain ⟨-, rfl⟩ := Prod.mk.inj (Option.some.inj he)
    exact hmem
  | cons a as ih =>
    intro s h he hmem
    obtain ⟨p, -, he⟩ := Option.bind_eq_some_iff.mp he
    exact ih he (List.mem_cons_of_mem _ hmem)

/-- What `exec` returns is a run, of a discipline that its actions meet. -/
theorem of_exec_of (as : List α) (hQ : ∀ h s s' e, ∀ a ∈ as, step s a = some (s', e) → e ∈ h' →
    Q h s e) : ∀ {s : σ} {h : List ε}, Run step Q s₀ h s →
    exec step as (s, h) = some (s', h') → Run step Q s₀ h' s' := by
  induction as with
  | nil =>
    intro s h hr he
    obtain ⟨rfl, rfl⟩ := Prod.mk.inj (Option.some.inj he)
    exact hr
  | cons a as ih =>
    intro s h hr he
    obtain ⟨⟨s₁, e⟩, hs, he⟩ := Option.bind_eq_some_iff.mp he
    exact ih (fun h s s' e b hb => hQ h s s' e b (List.mem_cons_of_mem _ hb))
      (hr.next hs (hQ h s s₁ e a List.mem_cons_self hs (mem_of_exec as he List.mem_cons_self))) he

/-- What `exec` returns is a run. -/
theorem of_exec (as : List α) {s : σ} {h : List ε} (hr : Run step anyStep s₀ h s)
    (he : exec step as (s, h) = some (s', h')) : Run step anyStep s₀ h' s' :=
  hr.of_exec_of as (fun _ _ _ _ _ _ _ _ => trivial) he

/-- A run told by its actions and its history. -/
theorem of_history (as : List α) (he : (exec step as (s, [])).map Prod.snd = some h) :
    ∃ s', Run step anyStep s h s' := by
  obtain ⟨⟨s', h'⟩, hexec, rfl⟩ := Option.map_eq_some_iff.mp he
  exact ⟨s', Run.start.of_exec as hexec⟩

/-- What `execUnder` returns is a run under its discipline. -/
theorem of_execUnder_eq [∀ h s e, Decidable (Q h s e)] (as : List α) : ∀ {s : σ} {h : List ε},
    Run step Q s₀ h s → execUnder step Q as (s, h) = some (s', h') → Run step Q s₀ h' s' := by
  induction as with
  | nil =>
    intro s h hr he
    obtain ⟨rfl, rfl⟩ := Prod.mk.inj (Option.some.inj he)
    exact hr
  | cons a as ih =>
    intro s h hr he
    obtain ⟨⟨s₁, e⟩, hs, hp⟩ := Option.bind_eq_some_iff.mp he
    by_cases hq : Q h s e
    · simp only [if_pos hq] at hp
      exact ih (hr.next hs hq) hp
    · simp only [if_neg hq] at hp
      cases hp

/-- A run under a discipline told by its actions and its history, with something that can
be seen of its last state. -/
theorem of_execUnder {β : Type v} [∀ h s e, Decidable (Q h s e)] {f : σ → β} {x : β}
    (as : List α) {s : σ} {h : List ε} (hr : Run step Q s₀ h s)
    (he : (execUnder step Q as (s, h)).map (fun p => (p.2, f p.1)) = some (h', x)) :
    ∃ s', Run step Q s₀ h' s' ∧ f s' = x := by
  obtain ⟨⟨s', g⟩, hexec, heq⟩ := Option.map_eq_some_iff.mp he
  obtain ⟨rfl, rfl⟩ := Prod.mk.inj heq
  exact ⟨s', of_execUnder_eq as hr hexec, rfl⟩

/-- A run under a discipline told by its actions, with something that can be seen of its
history and of its last state. -/
theorem exists_of_execUnder [∀ h s e, Decidable (Q h s e)] {P : List ε → σ → Prop}
    [∀ h s, Decidable (P h s)] (as : List α)
    (he : (execUnder step Q as (s₀, [])).any (fun p => decide (P p.2 p.1)) = true) :
    ∃ h s, Run step Q s₀ h s ∧ P h s := by
  obtain ⟨⟨s, h⟩, hexec, hp⟩ := (Option.any_eq_true _ _).mp he
  exact ⟨h, s, of_execUnder_eq as .start hexec, of_decide_eq_true hp⟩

end Run

end DualStm
