import Mathlib.Data.Fintype.Basic
import Mathlib.Data.Finset.Card
import Mathlib.Algebra.BigOperators.Ring.Finset
import Mathlib.Algebra.Order.BigOperators.Group.Finset

/-!
# Counting the members of a family

A finite family `f : τ → β` (the threads of a program, with what each of them
is doing) and a Boolean property of the members. Global counters of concurrent
code are such counts; the lemmas say how a count moves when one member changes
and when all of them are mapped at once.
-/

namespace DualStm

universe u v

variable {τ : Type u} {β : Type v} [Fintype τ]

/-- The number of members of `f` with the property `p`. -/
def countOf (p : β → Bool) (f : τ → β) : ℕ := (Finset.univ.filter fun t => p (f t) = true).card

theorem countOf_eq_sum (p : β → Bool) (f : τ → β) :
    countOf p f = ∑ t, (p (f t)).toNat := by
  rw [countOf, Finset.card_filter]
  apply Finset.sum_congr rfl
  intro t _
  cases p (f t) <;> rfl

/-- Changing one member moves the count by that member alone. -/
theorem countOf_update [DecidableEq τ] (p : β → Bool) (f : τ → β) (t : τ) (x : β) :
    countOf p (Function.update f t x) + (p (f t)).toNat = countOf p f + (p x).toNat := by
  have hrest : ∑ u ∈ Finset.univ.erase t, (p (Function.update f t x u)).toNat
      = ∑ u ∈ Finset.univ.erase t, (p (f u)).toNat := by
    apply Finset.sum_congr rfl
    intro u hu
    rw [Function.update_of_ne (Finset.ne_of_mem_erase hu)]
  have hnew := Finset.add_sum_erase Finset.univ
    (fun u => (p (Function.update f t x u)).toNat) (Finset.mem_univ t)
  have hold := Finset.add_sum_erase Finset.univ (fun u => (p (f u)).toNat) (Finset.mem_univ t)
  simp only [Function.update_self] at hnew
  rw [countOf_eq_sum, countOf_eq_sum]
  omega

/-- Changing a member that keeps the property does not move the count. -/
theorem countOf_update_of_eq [DecidableEq τ] {p : β → Bool} {f : τ → β} {t : τ} {x : β}
    (hx : p x = p (f t)) : countOf p (Function.update f t x) = countOf p f := by
  have h := countOf_update p f t x
  rw [hx] at h
  exact Nat.add_right_cancel h

/-- A count of disjoint properties is the sum of the counts. -/
theorem countOf_or {p q r : β → Bool} (f : τ → β)
    (hr : ∀ x, (r x).toNat = (p x).toNat + (q x).toNat) :
    countOf r f = countOf p f + countOf q f := by
  rw [countOf_eq_sum, countOf_eq_sum, countOf_eq_sum, ← Finset.sum_add_distrib]
  exact Finset.sum_congr rfl fun t _ => hr (f t)

/-- To count the images of a map is to count its arguments. -/
theorem countOf_comp {γ : Type*} (p : γ → Bool) (g : β → γ) (f : τ → β) :
    countOf p (fun t => g (f t)) = countOf (fun x => p (g x)) f := rfl

/-- A property of no member counts zero. -/
theorem countOf_eq_zero {p : β → Bool} {f : τ → β} :
    countOf p f = 0 ↔ ∀ t, p (f t) = false := by
  simp [countOf, Finset.filter_eq_empty_iff]

theorem countOf_pos {p : β → Bool} {f : τ → β} {t : τ} (ht : p (f t) = true) :
    0 < countOf p f := by
  apply Nat.pos_of_ne_zero
  intro h0
  rw [countOf_eq_zero.mp h0 t] at ht
  cases ht

/-- The only member with the property. -/
theorem countOf_le_one {p : β → Bool} {f : τ → β} (h : countOf p f ≤ 1) {t t' : τ}
    (ht : p (f t) = true) (ht' : p (f t') = true) : t = t' :=
  Finset.card_le_one.mp h t (by simpa using ht) t' (by simpa using ht')

theorem countOf_le_card (p : β → Bool) (f : τ → β) : countOf p f ≤ Fintype.card τ :=
  Finset.card_le_univ _

/-- A property of every member counts them all. -/
theorem countOf_eq_card {p : β → Bool} {f : τ → β} :
    countOf p f = Fintype.card τ ↔ ∀ t, p (f t) = true := by
  rw [countOf, Finset.card_eq_iff_eq_univ, Finset.filter_eq_self]
  exact ⟨fun h t => h t (Finset.mem_univ t), fun h t _ => h t⟩

end DualStm
