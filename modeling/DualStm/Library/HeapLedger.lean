import Mathlib.Data.Nat.Notation
import Mathlib.Data.List.Count
import Mathlib.Data.List.Perm.Basic

/-!
# A ledger of heap blocks

An allocator seen through its books. Its calls are numbered; the environment decides
which of them are granted a block, and block `k` is what call `k` returned. `free`
enters a block on the list of released ones.

`Holds` is the law of conservation: every block granted so far has been released once
or is held once, and no other has been. A program accounts for its blocks by a list
that holds them, and each call has its rule.
-/

namespace DualStm

/-- The books of an allocator: how many calls there have been, and which blocks were released. -/
structure HeapLedger where
  /-- how many calls there have been -/
  calls : ℕ
  /-- the blocks released, the last one first -/
  released : List ℕ
  deriving DecidableEq

namespace HeapLedger

/-- The books after one more call. -/
def called (l : HeapLedger) : HeapLedger := { l with calls := l.calls + 1 }

/-- An allocation: a new block, or `none` for `NULL`. -/
def alloc (grant : ℕ → Bool) (l : HeapLedger) : Option ℕ × HeapLedger :=
  (if grant l.calls = true then some l.calls else none, l.called)

/-- `free`, of nothing as well. -/
def free (p : Option ℕ) (l : HeapLedger) : HeapLedger :=
  match p with
  | some k => { l with released := k :: l.released }
  | none => l

/-- A call between two states of the books was not granted. -/
def Refused (grant : ℕ → Bool) (l l' : HeapLedger) : Prop :=
  ∃ k < l'.calls, l.calls ≤ k ∧ grant k = false

instance (grant : ℕ → Bool) (l l' : HeapLedger) : Decidable (Refused grant l l') :=
  inferInstanceAs (Decidable (∃ k < _, _))

/-- Every block granted has been released exactly once, and nothing else has. -/
def Balanced (grant : ℕ → Bool) (l : HeapLedger) : Prop :=
  ∀ k, l.released.count k = if k < l.calls ∧ grant k = true then 1 else 0

/-- Every block granted has been released or is held, once, and nothing else has. -/
def Holds (grant : ℕ → Bool) (l : HeapLedger) (held : List ℕ) : Prop :=
  ∀ k, l.released.count k + held.count k = if k < l.calls ∧ grant k = true then 1 else 0

section

variable {grant : ℕ → Bool} {l l' l'' : HeapLedger}

theorem Refused.of_le (hr : Refused grant l' l'') (hle : l.calls ≤ l'.calls) :
    Refused grant l l'' := by
  obtain ⟨k, hk, hk', hno⟩ := hr
  exact ⟨k, hk, Nat.le_trans hle hk', hno⟩

/-- A call in a stretch is in the first or the second part of it. -/
theorem Refused.split (hr : Refused grant l l'') (l' : HeapLedger) :
    Refused grant l l' ∨ Refused grant l' l'' := by
  obtain ⟨k, hk, hk', hno⟩ := hr
  rcases Nat.lt_or_ge k l'.calls with hlt | hge
  · exact .inl ⟨k, hlt, hk', hno⟩
  · exact .inr ⟨k, hk, hge, hno⟩

/-- Where no call was refused, each was granted. -/
theorem grant_of_not_refused (hr : ¬ Refused grant l l') {k : ℕ} (hk : l.calls + k < l'.calls) :
    grant (l.calls + k) = true := by
  by_contra hno
  exact hr ⟨_, hk, Nat.le_add_right _ _, Bool.not_eq_true _ ▸ hno⟩

end

@[simp] theorem called_calls (l : HeapLedger) : l.called.calls = l.calls + 1 := rfl

@[simp] theorem called_released (l : HeapLedger) : l.called.released = l.released := rfl

@[simp] theorem free_none (l : HeapLedger) : l.free none = l := rfl

@[simp] theorem free_calls (p : Option ℕ) (l : HeapLedger) : (l.free p).calls = l.calls := by
  cases p <;> rfl

section

variable {grant : ℕ → Bool} {l : HeapLedger} {held held' : List ℕ} {k : ℕ}

theorem alloc_of_grant (hg : grant l.calls = true) :
    l.alloc grant = (some l.calls, l.called) := by
  rw [alloc, if_pos hg]

theorem alloc_of_not_grant (hg : grant l.calls = false) :
    l.alloc grant = (none, l.called) := by
  rw [alloc, if_neg (by simp [hg])]

theorem Holds.perm (hl : Holds grant l held) (hp : held.Perm held') : Holds grant l held' := by
  intro k
  rw [← hp.count_eq]
  exact hl k

/-- A block that was granted is held from then on. -/
theorem Holds.granted (hl : Holds grant l held) (hg : grant l.calls = true) :
    Holds grant l.called (l.calls :: held) := by
  intro k
  have hk := hl k
  rw [called_calls, called_released, List.count_cons]
  by_cases hkc : k = l.calls
  · subst hkc
    rw [if_neg (by simp)] at hk
    rw [if_pos (BEq.rfl), if_pos ⟨Nat.lt_succ_self _, hg⟩]
    omega
  · rw [if_neg (by simp [Ne.symm hkc])]
    have hlt : k < l.calls + 1 ↔ k < l.calls := by omega
    simp only [hlt, Nat.add_zero]
    exact hk

/-- A call that was not granted changes nothing. -/
theorem Holds.refused (hl : Holds grant l held) (hg : grant l.calls = false) :
    Holds grant l.called held := by
  intro k
  have hk := hl k
  rw [called_calls, called_released]
  by_cases hkc : k = l.calls
  · subst hkc
    rw [if_neg (by simp)] at hk
    rw [if_neg (by simp [hg])]
    exact hk
  · have hlt : k < l.calls + 1 ↔ k < l.calls := by omega
    simp only [hlt]
    exact hk

/-- Who releases a block holds it no longer. -/
theorem Holds.free (hl : Holds grant l (k :: held)) : Holds grant (l.free (some k)) held := by
  intro j
  have hj := hl j
  have hcount : (l.free (some k)).released = k :: l.released := rfl
  rw [List.count_cons] at hj
  rw [free_calls, hcount, List.count_cons, ← hj]
  omega

theorem Holds.free_toList {p : Option ℕ} (hl : Holds grant l (p.toList ++ held)) :
    Holds grant (l.free p) held := by
  cases p with
  | none => exact hl
  | some k => exact hl.free

/-- The books are balanced when nothing is held any more. -/
theorem Holds.balanced_iff (hl : Holds grant l held) : Balanced grant l ↔ held = [] := by
  constructor
  · intro hb
    apply List.eq_nil_iff_forall_not_mem.mpr
    intro k hk
    have hpos := List.count_pos_iff.mpr hk
    have hk := hl k
    rw [hb k] at hk
    omega
  · rintro rfl k
    rw [← hl k, List.count_nil, Nat.add_zero]

end

/-! ## Blocks held by the members of a family

Each member of a family holds some blocks. When one member gets others or loses some, what they
hold together changes by these. -/

section

variable {ι : Type*} [DecidableEq ι] {f : ι → List ℕ} {g : List ℕ} {i : ι}

theorem flatMap_update_of_not_mem {is : List ι} (hi : i ∉ is) :
    is.flatMap (Function.update f i g) = is.flatMap f := by
  apply List.flatMap_congr
  intro j hj
  rw [Function.update_of_ne]
  rintro rfl
  exact hi hj

/-- A member that is given new blocks no longer holds its old ones. -/
theorem perm_flatMap_update {is : List ι} (hnodup : is.Nodup) (hi : i ∈ is) :
    (g ++ is.flatMap f).Perm (is.flatMap (Function.update f i g) ++ f i) := by
  induction is with
  | nil => exact absurd hi List.not_mem_nil
  | cons j is ih =>
    rw [List.nodup_cons] at hnodup
    rw [List.flatMap_cons, List.flatMap_cons]
    by_cases hij : j = i
    · subst hij
      rw [flatMap_update_of_not_mem hnodup.1, Function.update_self, List.append_assoc]
      exact List.perm_append_comm.append_left g
    · rw [Function.update_of_ne hij]
      have hi : i ∈ is := (List.mem_cons.mp hi).resolve_left fun h => hij h.symm
      calc (g ++ (f j ++ is.flatMap f)).Perm (f j ++ (g ++ is.flatMap f)) := by
            rw [← List.append_assoc, ← List.append_assoc]
            exact List.perm_append_comm.append_right _
        _ |>.Perm (f j ++ (is.flatMap (Function.update f i g) ++ f i)) :=
            (ih hnodup.2 hi).append_left _
        _ |>.Perm ((f j ++ is.flatMap (Function.update f i g)) ++ f i) := by
            rw [List.append_assoc]

end

end HeapLedger

end DualStm
