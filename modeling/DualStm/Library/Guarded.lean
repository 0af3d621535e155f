import DualStm.Library.Prog
import DualStm.Library.RwLock

/-!
# What a readers-writer lock guards

An object under the lock keeps a property `J` in the sense of the lock: a thread that takes
the lock finds `J`, and one that gives back an exclusive lock leaves `J` behind. What a thread
inside relies on, `P`, is its own affair, as nobody else can change the object.

If the object is a memory and the thread runs a program, it relies on the rest of its program
coming to the right end: `Prog.wp`, which `advance` keeps.
-/

namespace DualStm

universe u v

variable {τ : Type u} {σ : Type v}

/-- The lock guards `J`, and a thread inside may rely on its `P`. -/
structure Guards (l : RwLock τ) (J : σ → Prop) (P : τ → σ → Prop) (m : σ) : Prop where
  /-- an exclusive holder is alone -/
  alone : ∀ t u, l.held t = some .exclusive → u ≠ t → l.held u = none
  /-- what holds inside -/
  inside : ∀ t, l.held t ≠ none → P t m
  /-- what holds while nobody may change the object -/
  outside : (∀ t, l.held t ≠ some .exclusive) → J m

namespace Guards

variable {l : RwLock τ} {J J' : σ → Prop} {P P' : τ → σ → Prop} {m m' : σ} {t : τ} {k : Hold}

/-- A lock that nobody has taken guards what holds of the memory. -/
theorem init (hJ : J m) : Guards .init J P m := by
  refine ⟨?_, fun t ht => absurd rfl ht, fun _ => hJ⟩
  intro t u ht
  cases ht

/-- Who finds the lock free finds `J`. -/
theorem of_admits (hg : Guards l J P m) (hk : l.Admits k) : J m := by
  apply hg.outside
  intro t ht
  cases k with
  | shared => exact hk t ht
  | exclusive =>
    rw [hk t] at ht
    cases ht

/-- A thread does something with the object, and changes it under an exclusive lock only. -/
theorem operate (hg : Guards l J P m) (ht : l.held t = some k) (hm : k = .shared → m' = m)
    (hP : P' t m') (hother : ∀ u, u ≠ t → P u m → P' u m) : Guards l J P' m' := by
  cases k with
  | shared =>
    obtain rfl := hm rfl
    refine ⟨hg.alone, ?_, hg.outside⟩
    intro u hu
    obtain rfl | hut := eq_or_ne u t
    · exact hP
    · exact hother u hut (hg.inside u hu)
  | exclusive =>
    refine ⟨hg.alone, ?_, fun hno => absurd ht (hno t)⟩
    intro u hu
    obtain rfl | hut := eq_or_ne u t
    · exact hP
    · exact absurd (hg.alone t u ht hut) hu

/-- What happens outside of the lock leaves it the guard of the same. -/
theorem elsewhere (hg : Guards l J P m) (ht : l.held t = none)
    (hother : ∀ u, u ≠ t → P u m → P' u m) : Guards l J P' m := by
  refine ⟨hg.alone, ?_, hg.outside⟩
  intro u hu
  obtain rfl | hut := eq_or_ne u t
  · exact absurd ht hu
  · exact hother u hut (hg.inside u hu)

variable [DecidableEq τ]

/-- A thread that takes the lock can rely on what it guards. -/
theorem acquire (hg : Guards l J P m) (hnone : l.held t = none) (hk : l.Admits k)
    (hP : P' t m) (hother : ∀ u, u ≠ t → P u m → P' u m) :
    Guards (l.set t (some k)) J P' m := by
  have hJ := hg.of_admits hk
  refine ⟨?_, ?_, fun _ => hJ⟩
  · intro u w hu hw
    obtain rfl | hut := eq_or_ne u t
    · rw [RwLock.set_self] at hu
      obtain rfl := Option.some.inj hu
      rw [RwLock.set_of_ne hw]
      exact hk w
    · rw [RwLock.set_of_ne hut] at hu
      cases k with
      | shared => exact absurd hu (hk u)
      | exclusive =>
        rw [hk u] at hu
        cases hu
  · intro u hu
    obtain rfl | hut := eq_or_ne u t
    · exact hP
    · rw [RwLock.set_of_ne hut] at hu
      exact hother u hut (hg.inside u hu)

/-- A thread gives the lock back, and with it the lock may come to guard something else. -/
theorem release (hg : Guards l J P m) (ht : l.held t = some k) (hJ : k = .exclusive → J' m)
    (hJ' : k = .shared → J m → J' m) (hother : ∀ u, u ≠ t → P u m → P' u m) :
    Guards (l.set t none) J' P' m := by
  refine ⟨?_, ?_, ?_⟩
  · intro u w hu hw
    obtain rfl | hut := eq_or_ne u t
    · rw [RwLock.set_self] at hu
      cases hu
    · rw [RwLock.set_of_ne hut] at hu
      obtain rfl | hwt := eq_or_ne w t
      · exact RwLock.set_self
      · rw [RwLock.set_of_ne hwt]
        exact hg.alone u w hu hw
  · intro u hu
    obtain rfl | hut := eq_or_ne u t
    · exact absurd RwLock.set_self hu
    · rw [RwLock.set_of_ne hut] at hu
      exact hother u hut (hg.inside u hu)
  · intro hno
    cases k with
    | exclusive => exact hJ rfl
    | shared =>
      refine hJ' rfl (hg.outside ?_)
      intro u hu
      obtain rfl | hut := eq_or_ne u t
      · rw [ht] at hu
        cases hu
      · exact hno u (by rw [RwLock.set_of_ne hut, hu])

end Guards

/-! ## Programs, step by step

A program under a lock is run one operation at a time. Its precondition goes from one operation
to the next, so it is something its thread can rely on. -/

namespace Prog

variable {C V α M : Type} {mem : Memory M V} {p p' : Prog C V α} {c c' : C} {m m' : M}
  {Q : α → C → M → Prop}

/-- The next operation of a program, on the values it has captured and the memory. -/
def advance (mem : Memory M V) : Prog C V α → C → M → Option (Prog C V α × C × M)
  | .ret _, _, _ => none
  | .read addr next, c, m => (mem.read m addr).map fun v => (next v, c, m)
  | .write addr v next, c, m => (mem.write m addr v).map fun m => (next, c, m)
  | .alloc size next, c, m => (mem.alloc m size).map fun r => (next r.1, c, r.2)
  | .free addr next, c, m => (mem.free m addr).map fun m => (next, c, m)
  | .save c next, _, m => some (next, c, m)
  | .fault, _, _ => none

/-- What the program is to come to, the rest of it is. -/
theorem wp_advance (h : p.wp mem Q c m) (hs : p.advance mem c m = some (p', c', m')) :
    p'.wp mem Q c' m' := by
  cases p with
  | ret a => cases hs
  | read addr next =>
    obtain ⟨v, hv, h⟩ := h
    rw [advance, hv] at hs
    cases hs
    exact h
  | write addr v next =>
    obtain ⟨m₁, hm, h⟩ := h
    rw [advance, hm] at hs
    cases hs
    exact h
  | alloc size next =>
    obtain ⟨r, hr, h⟩ := h
    rw [advance, hr] at hs
    cases hs
    exact h
  | free addr next =>
    obtain ⟨m₁, hm, h⟩ := h
    rw [advance, hm] at hs
    cases hs
    exact h
  | save c next =>
    cases hs
    exact h
  | fault => exact h.elim

/-- A program whose precondition holds has a next operation, unless it has come to its end. -/
theorem exists_advance (h : p.wp mem Q c m) (hp : ∀ a, p ≠ .ret a) :
    ∃ p' c' m', p.advance mem c m = some (p', c', m') := by
  cases p with
  | ret a => exact absurd rfl (hp a)
  | read addr next =>
    obtain ⟨v, hv, -⟩ := h
    exact ⟨next v, c, m, by rw [advance, hv]; rfl⟩
  | write addr v next =>
    obtain ⟨m', hm, -⟩ := h
    exact ⟨next, c, m', by rw [advance, hm]; rfl⟩
  | alloc size next =>
    obtain ⟨r, hr, -⟩ := h
    exact ⟨next r.1, c, r.2, by rw [advance, hr]; rfl⟩
  | free addr next =>
    obtain ⟨m', hm, -⟩ := h
    exact ⟨next, c, m', by rw [advance, hm]; rfl⟩
  | save c' next => exact ⟨next, c', m, rfl⟩
  | fault => exact h.elim

/-- The program only reads. -/
def OnlyReads : Prog C V α → Prop
  | .ret _ => True
  | .read _ next => ∀ v, (next v).OnlyReads
  | .write _ _ _ => False
  | .alloc _ _ => False
  | .free _ _ => False
  | .save _ next => next.OnlyReads
  | .fault => True

/-- A program that only reads leaves the memory as it is. -/
theorem OnlyReads.advance (hp : p.OnlyReads) (hs : p.advance mem c m = some (p', c', m')) :
    p'.OnlyReads ∧ m' = m := by
  cases p with
  | ret a => cases hs
  | read addr next =>
    obtain ⟨v, -, heq⟩ := Option.map_eq_some_iff.mp hs
    cases heq
    exact ⟨hp v, rfl⟩
  | write addr v next => exact hp.elim
  | alloc size next => exact hp.elim
  | free addr next => exact hp.elim
  | save c next =>
    cases hs
    exact ⟨hp, rfl⟩
  | fault => cases hs

theorem onlyReads_bind {β : Type} {f : α → Prog C V β} (hp : p.OnlyReads)
    (hf : ∀ a, (f a).OnlyReads) : (p >>= f).OnlyReads := by
  show (p.bind f).OnlyReads
  induction p with
  | ret a => exact hf a
  | read addr next ih => exact fun v => ih v (hp v)
  | write addr v next ih => exact hp.elim
  | alloc size next ih => exact hp.elim
  | free addr next ih => exact hp.elim
  | save c next ih => exact ih hp
  | fault => trivial

end Prog

end DualStm
