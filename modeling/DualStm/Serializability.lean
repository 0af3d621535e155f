import DualStm.Atomicity
import DualStm.Library.Serial

/-!
# Serializability of an epoch

The transactions of an epoch all read from its start state, and no two of them
write the same word. Whether they can be put in a serial order is then decided by
one relation: `T` read a word before writing it, and `U` committed a change of
that word, so `T` has to come before `U`. `access_set` has room for the first
transaction that accesses a word only, so a second reader leaves no trace and the
relation may have a cycle: `write_skew` is the smallest one.
-/

namespace DualStm

variable {τ W : Type}

/-- The reads and writes of a transaction, oldest first. -/
def accesses (T : Txn) : List (Event τ W) → List (Access Loc W)
  | [] => []
  | .read U ℓ v :: h => accesses T h ++ if U = T then [.read ℓ v] else []
  | .wrote U ℓ v :: h => accesses T h ++ if U = T then [.write ℓ v] else []
  | _ :: h => accesses T h

/-- The transactions of the epoch that left through `tm_end`, replayed one after
the other in some order, read what they read and lead from `m` to `m'`. -/
def Serializable (h : List (Event τ W)) (ep : ℕ) (m m' : Loc → W) : Prop :=
  ∃ order : List Txn, order.Nodup ∧ (∀ T, T ∈ order ↔ Ended h T ∧ T.epoch = ep) ∧
    Replays m (order.flatMap fun T => accesses T h) m'

section

variable {h : List (Event τ W)} {T : Txn} {ℓ : Loc} {v : W}

theorem lastIn_accesses : lastIn ℓ (accesses T h) = lastWrite T ℓ h := by
  induction h with
  | nil => rfl
  | cons e h ih =>
    cases e with
    | read U m w =>
      rw [accesses, lastIn_append, ih]
      split <;> rfl
    | wrote U m w =>
      rw [accesses, lastIn_append, ih, lastWrite]
      by_cases hU : U = T <;> by_cases hm : m = ℓ <;> simp [hU, hm, lastIn]
    | _ => exact ih

/-- An access of a longer list is the new one or an old one. -/
theorem append_singleton_eq {α : Type} {pre post as : List α} {x y : α}
    (h : as ++ [y] = pre ++ x :: post) :
    (y = x ∧ as = pre) ∨ ∃ post', as = pre ++ x :: post' := by
  rcases List.eq_nil_or_concat post with rfl | ⟨post', z, rfl⟩
  · obtain ⟨has, hy⟩ := List.append_inj' h rfl
    exact .inl ⟨(List.cons.inj hy).1, has⟩
  · refine .inr ⟨post', ?_⟩
    have h' : as ++ [y] = (pre ++ x :: post') ++ [z] := by simpa using h
    exact (List.append_inj' h' rfl).1

/-- A recorded read is an event of the history, and what was recorded before it
came before it. -/
theorem exists_read_of_accesses {pre post : List (Access Loc W)}
    (has : accesses T h = pre ++ .read ℓ v :: post) :
    ∃ g' g, h = g' ++ .read T ℓ v :: g ∧ accesses T g = pre := by
  induction h generalizing post with
  | nil => cases pre <;> cases has
  | cons e h ih =>
    have hold : ∀ {post'}, accesses T h = pre ++ .read ℓ v :: post' →
        ∃ g' g, e :: h = g' ++ .read T ℓ v :: g ∧ accesses T g = pre := by
      intro post' has'
      obtain ⟨g', g, rfl, hg⟩ := ih has'
      exact ⟨e :: g', g, rfl, hg⟩
    cases e with
    | read U m w =>
      by_cases hU : U = T
      · rw [accesses, if_pos hU] at has
        rcases append_singleton_eq has with ⟨heq, hpre⟩ | ⟨post', has'⟩
        · injection heq with hm hw
          exact ⟨[], h, by rw [hU, hm, hw]; rfl, hpre⟩
        · exact hold has'
      · rw [accesses, if_neg hU, List.append_nil] at has
        exact hold has
    | wrote U m w =>
      by_cases hU : U = T
      · rw [accesses, if_pos hU] at has
        rcases append_singleton_eq has with ⟨heq, -⟩ | ⟨post', has'⟩
        · cases heq
        · exact hold has'
      · rw [accesses, if_neg hU, List.append_nil] at has
        exact hold has
    | _ => exact hold has

end

variable [DecidableEq τ] [Fintype τ] [Zero W]

/-- Every transaction is consistent with the start state of its epoch. -/
theorem consistent_accesses {s₀ s : State τ W} {h : List (Event τ W)} (hrest : s₀.AtRest)
    (hset : s₀.region.Settled ∅) (hr : Run State.step freesNothing s₀ h s) (T : Txn) :
    Consistent (epochMem s₀.committed T.epoch h) (accesses T h) := by
  intro pre post ℓ v has
  obtain ⟨g', g, rfl, rfl⟩ := exists_read_of_accesses has
  rw [lastIn_accesses]
  exact read_in_run (fun _ _ _ => avoids_of_freesNothing) hrest hset hr

/-- One thread runs alone, while the other two wait for the next epoch. -/
def gathering : List (Event (Fin 3) ℕ) :=
  [.ended ⟨0, 0⟩ true, .silent, .waiting 2, .called 2 false, .waiting 1, .called 1 false,
    .began 0 ⟨0, 0⟩, .called 0 false]

/-- Two transactions read the same word, one of them writes it. -/
def oneWriter : List (Event (Fin 3) ℕ) :=
  [.ended ⟨1, 0⟩ false, .writeDone ⟨1, 0⟩ 0 0, .wrote ⟨1, 0⟩ (0, 0) 1, .silent,
    .readDone ⟨1, 1⟩ 0 0 [(0, 0)], .read ⟨1, 1⟩ (0, 0) 0, .silent,
    .readDone ⟨1, 0⟩ 0 0 [(0, 0)], .read ⟨1, 0⟩ (0, 0) 0, .silent,
    .silent, .silent, .began 2 ⟨1, 1⟩, .began 1 ⟨1, 0⟩]

/-- The two transactions read both words, each the one before the other, and each
writes the word it read first. -/
def skewed : List (Event (Fin 3) ℕ) :=
  [.ended ⟨1, 0⟩ false, .writeDone ⟨1, 1⟩ 0 1, .wrote ⟨1, 1⟩ (0, 1) 1, .silent,
    .writeDone ⟨1, 0⟩ 0 0, .wrote ⟨1, 0⟩ (0, 0) 1, .silent,
    .readDone ⟨1, 1⟩ 0 0 [(0, 0)], .read ⟨1, 1⟩ (0, 0) 0, .silent,
    .readDone ⟨1, 0⟩ 0 1 [(0, 0)], .read ⟨1, 0⟩ (0, 1) 0, .silent,
    .readDone ⟨1, 1⟩ 0 1 [(0, 0)], .read ⟨1, 1⟩ (0, 1) 0, .silent,
    .readDone ⟨1, 0⟩ 0 0 [(0, 0)], .read ⟨1, 0⟩ (0, 0) 0, .silent,
    .silent, .silent, .began 2 ⟨1, 1⟩, .began 1 ⟨1, 0⟩]

/-- The second epoch of a run of the three threads, cut out of the run. -/
theorem exists_epoch {h₂ : List (Event (Fin 3) ℕ)} (as : List (Action (Fin 3) ℕ))
    (he : (exec State.step as (threeThreads, [])).map Prod.snd =
      some (.ended ⟨1, 1⟩ true :: (h₂ ++ gathering)))
    (hfree : ∀ e ∈ h₂, e.isFree = false) :
    ∃ s₁ s s' a, Run State.step freesNothing threeThreads gathering s₁ ∧
      Run State.step freesNothing s₁ h₂ s ∧ s₁.epoch = s.epoch ∧ s.epoch = 1 ∧
      s.step a = some (s', .ended ⟨1, 1⟩ true) := by
  obtain ⟨s', hr⟩ := Run.of_history as he
  obtain ⟨s, a, hr, hs, -⟩ := hr.last
  obtain ⟨s₁, hr₁, hr₂⟩ := hr.split
  obtain ⟨s₀, b, -, hs₀, -⟩ := hr₁.last
  have hep : s.epoch = 1 := ((step_cases hs).left_epoch rfl).symm
  have hep₀ : s₀.epoch = 0 := ((step_cases hs₀).left_epoch rfl).symm
  have hep₁ : s₁.epoch = 1 := by
    rcases (step_cases hs₀).epoch with ⟨hc, -⟩ | ⟨-, -, hep₁⟩
    · exact absurd ⟨⟨0, 0⟩, rfl⟩ hc
    · rw [hep₁, hep₀]
  exact ⟨s₁, s, s', a, hr₁.of_forall (by simp [gathering, freesNothing, Event.isFree]),
    Run.of_forall (hr₂.mono fun _ _ _ _ => trivial) fun e he _ _ => hfree e he,
    hep₁.trans hep.symm, hep, hs⟩

end DualStm
