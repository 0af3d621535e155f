import DualStm.Library.Run
import Mathlib.Algebra.Order.BigOperators.Group.Finset

/-!
# Runs that come to an end

A machine whose every step lowers a cost does only so many steps, and from every state it
gets to one where it can do no more. The cost of a system of threads is the sum of theirs.
-/

namespace DualStm

universe u v w

variable {σ : Type u} {α : Type v} {ε : Type w} {step : σ → α → Option (σ × ε)}

/-- The machine can do no more. -/
def Stuck (step : σ → α → Option (σ × ε)) (s : σ) : Prop := ∀ a, step s a = none

/-- Within `I`, every step lowers the cost. -/
def Lowers (step : σ → α → Option (σ × ε)) (I : σ → Prop) (cost : σ → ℕ) : Prop :=
  ∀ s a s' e, I s → step s a = some (s', e) → I s' ∧ cost s' < cost s

namespace Lowers

variable {I : σ → Prop} {cost : σ → ℕ} {s s₀ : σ} {h : List ε}

/-- A run is no longer than the cost it starts with. -/
theorem length_add_le {Q : Discipline σ ε} (hl : Lowers step I cost) (h₀ : I s₀)
    (hr : Run step Q s₀ h s) : I s ∧ h.length + cost s ≤ cost s₀ := by
  induction hr with
  | start => exact ⟨h₀, by rw [List.length_nil, Nat.zero_add]⟩
  | next hr hs _ ih =>
    obtain ⟨hI, hle⟩ := ih
    obtain ⟨hI', hlt⟩ := hl _ _ _ _ hI hs
    refine ⟨hI', ?_⟩
    rw [List.length_cons]
    omega

/-- A machine whose steps lower a cost goes on until nothing can be done any more. -/
theorem exists_stuck (hl : Lowers step I cost) (h₀ : I s₀) :
    ∃ h s, Run step anyStep s₀ h s ∧ Stuck step s := by
  obtain ⟨n, hn⟩ : ∃ n, cost s₀ ≤ n := ⟨_, le_rfl⟩
  induction n generalizing s₀ with
  | zero =>
    refine ⟨[], s₀, .start, ?_⟩
    intro a
    cases hs : step s₀ a with
    | none => rfl
    | some p =>
      have hlt := (hl s₀ a p.1 p.2 h₀ hs).2
      omega
  | succ n ih =>
    by_cases hstuck : Stuck step s₀
    · exact ⟨[], s₀, .start, hstuck⟩
    · obtain ⟨a, ha⟩ := not_forall.mp hstuck
      obtain ⟨⟨s₁, e⟩, hs⟩ := Option.ne_none_iff_exists'.mp ha
      obtain ⟨h₁, hlt⟩ := hl s₀ a s₁ e h₀ hs
      obtain ⟨h, s, hr, hstuck⟩ := ih h₁ (by omega)
      have hfirst : Run step anyStep s₀ [e] s₁ := Run.start.next hs trivial
      exact ⟨h ++ [e], s, hfirst.trans hr, hstuck⟩

end Lowers

/-- The sum goes down when one member does and no other goes up. -/
theorem sum_lt_of_member {τ : Type u} [Fintype τ] {f g : τ → ℕ} {t : τ} (ht : f t < g t)
    (hother : ∀ u, u ≠ t → f u ≤ g u) : ∑ u, f u < ∑ u, g u := by
  refine Finset.sum_lt_sum ?_ ⟨t, Finset.mem_univ t, ht⟩
  intro u _
  by_cases hut : u = t
  · rw [hut]
    exact ht.le
  · exact hother u hut

/-- The sum moves with the one member that changes. -/
theorem sum_add_of_member {τ : Type u} [Fintype τ] [DecidableEq τ] {f g : τ → ℕ} {t : τ}
    (hother : ∀ u, u ≠ t → f u = g u) : ∑ u, f u + g t = ∑ u, g u + f t := by
  have hrest : ∑ u ∈ Finset.univ.erase t, f u = ∑ u ∈ Finset.univ.erase t, g u :=
    Finset.sum_congr rfl fun u hu => hother u (Finset.ne_of_mem_erase hu)
  have hf := Finset.add_sum_erase Finset.univ f (Finset.mem_univ t)
  have hg := Finset.add_sum_erase Finset.univ g (Finset.mem_univ t)
  omega

end DualStm
