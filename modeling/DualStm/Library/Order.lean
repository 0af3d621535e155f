import Mathlib.Order.Extension.Linear
import Mathlib.Data.List.Sort
import Mathlib.Data.List.Nodup
import Mathlib.Logic.Relation

/-!
# Ordering a finite set against a relation

A list without repetitions can be rearranged so that nothing comes after an
element it has to precede, exactly when the relation has no cycle on it.
-/

namespace DualStm

universe u

variable {ι : Type u}

/-- The relation has no cycle among the members of `l`. -/
def AcyclicOn (r : ι → ι → Prop) (l : List ι) : Prop :=
  ∀ a, ¬ Relation.TransGen (fun a b => a ∈ l ∧ b ∈ l ∧ r a b) a a

/-- Everybody stands after those that have to precede it. -/
def Respects (r : ι → ι → Prop) (l : List ι) : Prop := l.Pairwise fun a b => ¬ r b a

/-- Without a cycle there is such an arrangement: extend the reflexive transitive
closure to a linear order and sort by it. -/
theorem AcyclicOn.exists_respects {r : ι → ι → Prop} {l : List ι} (hl : l.Nodup)
    (ha : AcyclicOn r l) : ∃ l', l'.Perm l ∧ Respects r l' := by
  classical
  set r' : ι → ι → Prop := fun a b => a ∈ l ∧ b ∈ l ∧ r a b with hr'
  have hpo : IsPartialOrder ι (Relation.ReflTransGen r') :=
    { refl := fun _ => .refl
      trans := fun _ _ _ => .trans
      antisymm := by
        intro a b hab hba
        rcases Relation.reflTransGen_iff_eq_or_transGen.mp hab with rfl | hab
        · rfl
        · exact absurd (hab.trans_left hba) (ha a) }
  obtain ⟨s, hs, hle⟩ := extend_partialOrder (Relation.ReflTransGen r')
  have hperm : (l.insertionSort s).Perm l := l.perm_insertionSort s
  refine ⟨l.insertionSort s, hperm, ?_⟩
  apply ((l.pairwise_insertionSort s).and (hperm.nodup_iff.mpr hl)).imp_of_mem
  rintro a b hmem hmem' ⟨hab, hne⟩ hba
  -- `b` had to come first, so the linear order has both below the other
  have hle' : s b a :=
    hle b a (.single ⟨hperm.mem_iff.mp hmem', hperm.mem_iff.mp hmem, hba⟩)
  exact hne (antisymm_of s hab hle')

/-- An arrangement rules cycles out: along the relation, positions go up. -/
theorem Respects.acyclicOn {r : ι → ι → Prop} (hirr : ∀ a, ¬ r a a) {l l' : List ι}
    (hperm : l'.Perm l) (hr : Respects r l') : AcyclicOn r l := by
  classical
  have hup : ∀ {a b}, a ∈ l → b ∈ l → r a b → l'.idxOf a < l'.idxOf b := by
    intro a b ha hb hab
    have ha' := List.idxOf_lt_length_of_mem (hperm.mem_iff.mpr ha)
    have hb' := List.idxOf_lt_length_of_mem (hperm.mem_iff.mpr hb)
    rcases lt_trichotomy (l'.idxOf a) (l'.idxOf b) with hlt | heq | hgt
    · exact hlt
    · have hget : l'[l'.idxOf a] = l'[l'.idxOf b] := by simp only [heq]
      rw [List.getElem_idxOf, List.getElem_idxOf] at hget
      exact absurd (hget ▸ hab) (hirr b)
    · have := List.pairwise_iff_getElem.mp hr _ _ hb' ha' hgt
      rw [List.getElem_idxOf, List.getElem_idxOf] at this
      exact absurd hab this
  have htrans : ∀ {a b}, Relation.TransGen (fun a b => a ∈ l ∧ b ∈ l ∧ r a b) a b →
      l'.idxOf a < l'.idxOf b := by
    intro a b hab
    induction hab with
    | single h => exact hup h.1 h.2.1 h.2.2
    | tail _ h ih => exact ih.trans (hup h.1 h.2.1 h.2.2)
  exact fun a ha => lt_irrefl _ (htrans ha)

/-- **An arrangement exists exactly without a cycle.** -/
theorem exists_respects_iff {r : ι → ι → Prop} (hirr : ∀ a, ¬ r a a) {l : List ι}
    (hl : l.Nodup) : (∃ l', l'.Perm l ∧ Respects r l') ↔ AcyclicOn r l := by
  constructor
  · rintro ⟨l', hperm, hr⟩
    exact hr.acyclicOn hirr hperm
  · exact fun ha => ha.exists_respects hl

end DualStm
