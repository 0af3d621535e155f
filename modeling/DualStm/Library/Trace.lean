import DualStm.Library.Prog
import DualStm.Library.Serial
import Mathlib.Data.List.Perm.Basic

/-!
# Programs and their accesses

A program that is served by somebody, be it a plain memory or a transactional one, has
done a list of accesses and has something left to do: `Leads`. If the list is consistent
with a memory, this is how far the program comes alone on that memory, `Leads.run`. So
programs whose lists replay one after the other could as well have run one after the
other, `inSequence_of_replays`.
-/

namespace DualStm

variable {C V α M L ι : Type}

namespace Prog

section

variable [DecidableEq L] {place : ℕ → Option L} {p q : Prog C V α}
  {as : List (Access L V)} {m : L → V} {c : C}

/-- Served with the accesses `as`, the program `p` has this left. -/
inductive Leads (place : ℕ → Option L) (p : Prog C V α) :
    List (Access L V) → Prog C V α → Prop where
  | start : Leads place p [] p
  | read {as : List (Access L V)} {a : ℕ} {ℓ : L} {next : V → Prog C V α}
      (h : Leads place p as (.read a next)) (ha : place a = some ℓ) (v : V) :
    Leads place p (as ++ [.read ℓ v]) (next v)
  | write {as : List (Access L V)} {a : ℕ} {ℓ : L} {v : V} {next : Prog C V α}
      (h : Leads place p as (.write a v next)) (ha : place a = some ℓ) :
    Leads place p (as ++ [.write ℓ v]) next

namespace Leads

/-- Alone on the memory it comes to the same point. -/
theorem run (h : Leads place p as q) (hm : Consistent m as) :
    p.run (Memory.ofPlaces place) c m = q.run (Memory.ofPlaces place) c (overlay m as) := by
  induction h with
  | start => rfl
  | @read as a ℓ next h ha v ih =>
    obtain ⟨has, hv⟩ := consistent_append.mp hm
    rw [ih has, overlay_append, overlay_read, ← consistent_read.mp hv]
    simp [Prog.run, Memory.ofPlaces, ha]
  | @write as a ℓ v next h ha ih =>
    obtain ⟨has, -⟩ := consistent_append.mp hm
    rw [ih has, overlay_append, overlay_write]
    simp [Prog.run, Memory.ofPlaces, ha]

omit [DecidableEq L] in
/-- A program that has ended has nothing more to do. -/
theorem of_ret {x : α} (h : Leads place (.ret x) as q) : as = [] ∧ q = .ret x := by
  induction h with
  | start => exact ⟨rfl, rfl⟩
  | read h ha v ih => cases ih.2
  | write h ha ih => cases ih.2

omit [DecidableEq L] in
/-- A program that reads goes on with what it reads. -/
theorem of_read {a : ℕ} {next : V → Prog C V α} (h : Leads place (.read a next) as q) :
    as = [] ∧ q = .read a next ∨ ∃ ℓ v as', place a = some ℓ ∧ as = .read ℓ v :: as' ∧
      (next v).Leads place as' q := by
  induction h with
  | start => exact .inl ⟨rfl, rfl⟩
  | @read as b ℓ next' h hb v ih =>
    right
    rcases ih with ⟨rfl, heq⟩ | ⟨ℓ₀, v₀, as', ha, rfl, hrest⟩
    · injection heq with haddr hnext
      subst haddr hnext
      exact ⟨ℓ, v, [], hb, rfl, .start⟩
    · exact ⟨ℓ₀, v₀, as' ++ [.read ℓ v], ha, rfl, hrest.read hb v⟩
  | @write as b ℓ v next' h hb ih =>
    right
    rcases ih with ⟨rfl, heq⟩ | ⟨ℓ₀, v₀, as', ha, rfl, hrest⟩
    · cases heq
    · exact ⟨ℓ₀, v₀, as' ++ [.write ℓ v], ha, rfl, hrest.write hb⟩

omit [DecidableEq L] in
/-- A program that writes goes on when its write is served. -/
theorem of_write {a : ℕ} {w : V} {next : Prog C V α} (h : Leads place (.write a w next) as q) :
    as = [] ∧ q = .write a w next ∨ ∃ ℓ as', place a = some ℓ ∧ as = .write ℓ w :: as' ∧
      next.Leads place as' q := by
  induction h with
  | start => exact .inl ⟨rfl, rfl⟩
  | @read as b ℓ next' h hb v ih =>
    right
    rcases ih with ⟨rfl, heq⟩ | ⟨ℓ₀, as', ha, rfl, hrest⟩
    · cases heq
    · exact ⟨ℓ₀, as' ++ [.read ℓ v], ha, rfl, hrest.read hb v⟩
  | @write as b ℓ v next' h hb ih =>
    right
    rcases ih with ⟨rfl, heq⟩ | ⟨ℓ₀, as', ha, rfl, hrest⟩
    · injection heq with haddr hv hnext
      subst haddr hv hnext
      exact ⟨ℓ, [], hb, rfl, .start⟩
    · exact ⟨ℓ₀, as' ++ [.write ℓ v], ha, rfl, hrest.write hb⟩

end Leads

end

/-! ## One after the other

If each program has done its list of accesses and the lists replay one after the other, the
programs run one after the other come to the same values and the same memory. -/

/-- The programs, each alone on the memory and one after the other, return these values. -/
def InSequence (mem : Memory M V) (c : C) : List (Prog C V α × α) → M → M → Prop
  | [], m, m' => m' = m
  | (p, x) :: ps, m, m' => ∃ m₁, p.run mem c m = some (x, c, m₁) ∧ InSequence mem c ps m₁ m'

/-- What each of them keeps, all of them keep. -/
theorem InSequence.keeps {mem : Memory M V} {c : C} {ps : List (Prog C V α × α)} {J : M → Prop}
    (hkeeps : ∀ b ∈ ps, ∀ m, J m → b.1.wp mem (fun _ _ m' => J m') c m) {m m' : M}
    (h : InSequence mem c ps m m') (hm : J m) : J m' := by
  induction ps generalizing m with
  | nil =>
    obtain rfl : m' = m := h
    exact hm
  | cons b ps ih =>
    obtain ⟨m₁, hrun, hrest⟩ := h
    apply ih (fun b' hb' => hkeeps b' (List.mem_cons_of_mem _ hb')) hrest
    obtain ⟨x, c', m₂, hrun', hJ⟩ := wp_iff_run.mp (hkeeps b List.mem_cons_self m hm)
    rw [hrun] at hrun'
    obtain ⟨-, h⟩ := Prod.mk.inj (Option.some.inj hrun')
    obtain ⟨-, rfl⟩ := Prod.mk.inj h
    exact hJ

/-- **Accesses that replay.** The programs that have done them could have run one after
the other. -/
theorem inSequence_of_replays [DecidableEq L] {place : ℕ → Option L} {c : C}
    {acc : ι → List (Access L V)} {program : ι → Prog C V α} {result : ι → α} {l : List ι}
    (hleads : ∀ a ∈ l, Leads place (program a) (acc a) (.ret (result a))) {m m' : L → V}
    (h : Replays m (l.flatMap acc) m') :
    InSequence (Memory.ofPlaces place) c (l.map fun a => (program a, result a)) m m' := by
  induction l generalizing m with
  | nil => exact h
  | cons a l ih =>
    rw [List.flatMap_cons, replays_iff, consistent_append, overlay_append] at h
    obtain ⟨⟨hfirst, hrest⟩, hend⟩ := h
    refine ⟨overlay m (acc a), ?_, ?_⟩
    · exact (hleads a List.mem_cons_self).run hfirst
    · exact ih (fun b hb => hleads b (List.mem_cons_of_mem _ hb)) (replays_iff.mpr ⟨hrest, hend⟩)

end Prog

/-- An order of what a list is mapped to is one of the list. -/
theorem exists_perm_of_map {κ : Type} {f : ι → κ} {l : List ι} {order : List κ}
    (h : order.Perm (l.map f)) : ∃ l' : List ι, l'.Perm l ∧ l'.map f = order := by
  have hmap : List.Forall₂ (fun b a => b = f a) (l.map f) l := by
    rw [List.forall₂_map_left_iff]
    exact List.forall₂_refl l
  obtain ⟨l', hl', hperm⟩ := List.perm_comp_forall₂ h hmap
  refine ⟨l', hperm, ?_⟩
  rw [← List.forall₂_eq_eq_eq, List.forall₂_map_left_iff]
  exact hl'.flip.imp fun a b hab => hab.symm

end DualStm
