import Mathlib.Data.List.Basic

/-!
# A mutex and the calls that use it

The history of one mutex, newest first: who took it, who gave it back, and which
calls of the functions that use it returned. A history is **disciplined** when a
thread only gives back what it has, and has nothing left when its call returns.

A program keeps the discipline if each of its threads knows, from where it stands
in its code, whether it is inside the critical section. `LockMove` lists what one
step may do to the mutex, `MutexInv` ties the owner and the history to the positions
of the threads, and `MutexInv.disciplined_cons` says which steps break the discipline.
-/

namespace DualStm

universe u

variable {τ : Type u}

/-- What happens to a mutex: it is taken, it is given back, or somebody returns from their
work. -/
inductive LockEvent (τ : Type u) where
  /-- a thread took it -/
  | acquired (t : τ)
  /-- a thread gave it back -/
  | released (t : τ)
  /-- a call that uses it returned -/
  | returned (t : τ)
  deriving DecidableEq

/-- The thread is between taking the mutex and giving it back. -/
def HasLock (t : τ) : List (LockEvent τ) → Prop
  | [] => False
  | .acquired u :: h => u = t ∨ HasLock t h
  | .released u :: h => u ≠ t ∧ HasLock t h
  | .returned _ :: h => HasLock t h

/-- The mutex is taken while nobody has it, given back by the thread that has it,
and not left behind by a call. -/
def Disciplined : List (LockEvent τ) → Prop
  | [] => True
  | .acquired _ :: h => Disciplined h ∧ ∀ u, ¬ HasLock u h
  | .released t :: h => Disciplined h ∧ HasLock t h
  | .returned t :: h => Disciplined h ∧ ¬ HasLock t h

/-- Every part of a disciplined history is. -/
theorem Disciplined.tail {e : LockEvent τ} {h : List (LockEvent τ)}
    (hd : Disciplined (e :: h)) : Disciplined h := by
  cases e <;> exact hd.1

theorem Disciplined.of_append {l h : List (LockEvent τ)} (hd : Disciplined (l ++ h)) :
    Disciplined h := by
  induction l with
  | nil => exact hd
  | cons e l ih => exact ih hd.tail

/-- **Mutual exclusion.** At most one thread is between taking and giving back. -/
theorem Disciplined.unique {h : List (LockEvent τ)} (hd : Disciplined h) :
    ∀ {t u : τ}, HasLock t h → HasLock u h → t = u := by
  induction h with
  | nil => exact fun ht => ht.elim
  | cons e h ih =>
    intro t u ht hu
    cases e with
    | acquired v =>
      obtain rfl | ht := ht
      · obtain rfl | hu := hu
        · rfl
        · exact absurd hu (hd.2 u)
      · exact absurd ht (hd.2 t)
    | released v => exact ih hd.1 ht.2 hu.2
    | returned v => exact ih hd.1 ht hu

/-- What a step of thread `t` may do to the mutex: its owner and whether `t` stands
inside the critical section, before and after, and what is recorded. -/
inductive LockMove (t : τ) (owner : Option τ) :
    Bool → Option τ → Bool → Option (LockEvent τ) → Prop where
  /-- nothing -/
  | idle {inside : Bool} : LockMove t owner inside owner inside none
  /-- take it, if nobody has it -/
  | acquire (ho : owner = none) : LockMove t owner false (some t) true (some (.acquired t))
  /-- give it back, whoever has it -/
  | release {inside : Bool} : LockMove t owner inside none false (some (.released t))
  /-- return, to a caller that is outside -/
  | ret {inside : Bool} : LockMove t owner inside owner false (some (.returned t))

/-- A thread that gives back only what it has, and returns without it, keeps the owner of
the mutex the thread inside. -/
theorem LockMove.owner_iff {t : τ} {owner owner' : Option τ} {inside inside' : τ → Bool}
    {e : Option (LockEvent τ)} (ho : ∀ u, owner = some u ↔ inside u = true)
    (hm : LockMove t owner (inside t) owner' (inside' t) e)
    (hrel : e = some (.released t) → inside t = true)
    (hret : e = some (.returned t) → inside t = false)
    (hother : ∀ u, u ≠ t → inside' u = inside u) (u : τ) :
    owner' = some u ↔ inside' u = true := by
  generalize hin : inside t = b at hm hrel hret
  generalize hin' : inside' t = b' at hm
  by_cases hu : u = t
  · subst hu
    cases hm with
    | idle => rw [ho, hin, hin']
    | acquire => simp [hin']
    | release => simp [hin']
    | ret => rw [ho, hin, hin', hret rfl]
  · rw [hother u hu]
    cases hm with
    | idle => exact ho u
    | acquire hfree =>
      have hout := ho u
      simp only [hfree, reduceCtorEq, false_iff] at hout
      simp [hout, Ne.symm hu]
    | release =>
      -- `t` was the thread inside
      have hown : owner = some t := (ho t).mpr (hin.trans (hrel rfl))
      have hout := ho u
      rw [hown] at hout
      simp only [Option.some.injEq, Ne.symm hu, false_iff] at hout
      simp [hout]
    | ret => exact ho u

/-- The owner, the history and the positions of the threads agree. -/
structure MutexInv (owner : Option τ) (inside : τ → Bool) (h : List (LockEvent τ)) : Prop where
  /-- the owner is the thread inside -/
  owner_iff : ∀ t, owner = some t ↔ inside t = true
  /-- the thread inside has the lock by the history -/
  hasLock_iff : ∀ t, HasLock t h ↔ inside t = true

namespace MutexInv

variable {owner owner' : Option τ} {inside inside' : τ → Bool} {h : List (LockEvent τ)} {t : τ}
  {e : Option (LockEvent τ)}

/-- A mutex that nobody has taken meets the invariant. -/
theorem start (hin : ∀ t, inside t = false) : MutexInv none inside [] := by
  constructor
  · intro t
    simp [hin t]
  · intro t
    simp [HasLock, hin t]

/-- At most one thread is inside. -/
theorem unique (hi : MutexInv owner inside h) {t u : τ} (ht : inside t = true)
    (hu : inside u = true) : t = u := by
  have ho := (hi.owner_iff t).mpr ht
  rw [(hi.owner_iff u).mpr hu] at ho
  exact (Option.some.inj ho).symm

/-- While nobody owns it, nobody is inside. -/
theorem free (hi : MutexInv none inside h) (u : τ) : inside u = false := by
  rw [← Bool.not_eq_true, ← hi.owner_iff u]
  exact nofun

/-- **When a step keeps the discipline.** A thread outside must not give the mutex back,
and one inside must not return. -/
theorem disciplined_cons {b : Bool} (hi : MutexInv owner inside h)
    (hm : LockMove t owner (inside t) owner' b e) :
    Disciplined (e.toList ++ h) ↔ Disciplined h ∧
      (e = some (.released t) → inside t = true) ∧ (e = some (.returned t) → inside t = false) := by
  generalize hin : inside t = b' at hm
  cases hm with
  | idle => simp
  | acquire ho =>
    subst ho
    have hno : ∀ u, ¬ HasLock u h := by
      intro u hu
      rw [hi.hasLock_iff u, hi.free u] at hu
      cases hu
    simpa [Disciplined] using fun _ => hno
  | release =>
    have := hi.hasLock_iff t
    simp [Disciplined, this, hin]
  | ret =>
    have := hi.hasLock_iff t
    simp [Disciplined, this, hin]

/-- A step that keeps the discipline keeps the invariant. -/
theorem step (hi : MutexInv owner inside h)
    (hm : LockMove t owner (inside t) owner' (inside' t) e)
    (hother : ∀ u, u ≠ t → inside' u = inside u) (hd : Disciplined (e.toList ++ h)) :
    MutexInv owner' inside' (e.toList ++ h) := by
  obtain ⟨-, hrel, hret⟩ := (hi.disciplined_cons hm).mp hd
  refine ⟨hm.owner_iff hi.owner_iff hrel hret hother, ?_⟩
  intro u
  generalize hin : inside t = b at hm hrel hret
  generalize hin' : inside' t = b' at hm
  by_cases hu : u = t
  · subst hu
    cases hm with
    | idle => simp [hi.hasLock_iff u, hin, hin']
    | acquire => simp [HasLock, hin']
    | release => simp [HasLock, hin']
    | ret => simp [HasLock, hi.hasLock_iff u, hin, hin', hret rfl]
  · rw [hother u hu]
    cases hm with
    | idle => exact hi.hasLock_iff u
    | acquire => simp [HasLock, hi.hasLock_iff u, Ne.symm hu]
    | release => simp [HasLock, hi.hasLock_iff u, Ne.symm hu]
    | ret => exact hi.hasLock_iff u

end MutexInv

end DualStm
