import Mathlib.Data.List.Nodup
import Mathlib.Logic.Function.Basic

/-!
# Programs over a memory of words

The code of a client of a shared memory, as a tree of the operations it calls:
`Prog C V α` reads and writes words of type `V`, gets and frees segments, and
ends with an `α`. The variables of type `C` outlive the program, and `save`
assigns them; a program that is given up halfway leaves them as they are.

* `run` — what a program does on a memory that serves it alone. A step outside
  the memory has no result, nor has a `fault`.
* `wp` — the same as a predicate transformer, with one rule for each operation.
* `loop` — a `while` loop, whose body is a program that goes on with new locals
  or ends; `loop_total` is its rule for total correctness.

A memory is known by what its words hold (`Memory.Holds`), a list of addresses
that stand for different words.
-/

namespace DualStm

/-- A program with outer variables `C` over words of type `V`. -/
inductive Prog (C V α : Type) : Type where
  /-- end -/
  | ret (a : α)
  /-- read a word -/
  | read (addr : ℕ) (next : V → Prog C V α)
  /-- write a word -/
  | write (addr : ℕ) (v : V) (next : Prog C V α)
  /-- get a segment of some size -/
  | alloc (size : ℕ) (next : ℕ → Prog C V α)
  /-- free a segment -/
  | free (addr : ℕ) (next : Prog C V α)
  /-- assign the outer variables -/
  | save (c : C) (next : Prog C V α)
  /-- undefined behaviour -/
  | fault

/-- A memory, as one client at a time sees it. A call outside of what it owns has
no result. -/
structure Memory (M V : Type) where
  /-- read a word -/
  read : M → ℕ → Option V
  /-- write a word -/
  write : M → ℕ → V → Option M
  /-- get a segment: its address -/
  alloc : M → ℕ → Option (ℕ × M)
  /-- free a segment -/
  free : M → ℕ → Option M

/-- A memory that serves the calls of another, and maybe more. -/
structure Memory.Extends {M V : Type} (mem mem' : Memory M V) : Prop where
  /-- reads -/
  read : ∀ {m a v}, mem'.read m a = some v → mem.read m a = some v
  /-- writes -/
  write : ∀ {m a v m'}, mem'.write m a v = some m' → mem.write m a v = some m'
  /-- new segments -/
  alloc : ∀ {m size r}, mem'.alloc m size = some r → mem.alloc m size = some r
  /-- ends of segments -/
  free : ∀ {m a m'}, mem'.free m a = some m' → mem.free m a = some m'

namespace Prog

variable {C V M S α β : Type}

/-- Go on with another program after the value of the first. -/
protected def bind (f : α → Prog C V β) : Prog C V α → Prog C V β
  | .ret a => f a
  | .read addr next => .read addr fun v => (next v).bind f
  | .write addr v next => .write addr v (next.bind f)
  | .alloc size next => .alloc size fun a => (next a).bind f
  | .free addr next => .free addr (next.bind f)
  | .save c next => .save c (next.bind f)
  | .fault => .fault

instance : Monad (Prog C V) where
  pure := .ret
  bind p f := p.bind f

/-- Run a program alone on a memory; `none` when an operation has no result. -/
def run (mem : Memory M V) : Prog C V α → C → M → Option (α × C × M)
  | .ret a, c, m => some (a, c, m)
  | .read addr next, c, m => (mem.read m addr).bind fun v => (next v).run mem c m
  | .write addr v next, c, m => (mem.write m addr v).bind fun m' => next.run mem c m'
  | .alloc size next, c, m => (mem.alloc m size).bind fun r => (next r.1).run mem c r.2
  | .free addr next, c, m => (mem.free m addr).bind fun m' => next.run mem c m'
  | .save c' next, _, m => next.run mem c' m
  | .fault, _, _ => none

/-- The program runs to its end, and to one with `Q`. -/
def wp (mem : Memory M V) : Prog C V α → (α → C → M → Prop) → C → M → Prop
  | .ret a, Q, c, m => Q a c m
  | .read addr next, Q, c, m => ∃ v, mem.read m addr = some v ∧ (next v).wp mem Q c m
  | .write addr v next, Q, c, m => ∃ m', mem.write m addr v = some m' ∧ next.wp mem Q c m'
  | .alloc size next, Q, c, m =>
    ∃ r, mem.alloc m size = some r ∧ (next r.1).wp mem Q c r.2
  | .free addr next, Q, c, m => ∃ m', mem.free m addr = some m' ∧ next.wp mem Q c m'
  | .save c' next, Q, _, m => next.wp mem Q c' m
  | .fault, _, _, _ => False

section

variable {mem : Memory M V} {p : Prog C V α} {Q Q' : α → C → M → Prop} {c : C} {m : M}

theorem wp_iff_run :
    p.wp mem Q c m ↔ ∃ a c' m', p.run mem c m = some (a, c', m') ∧ Q a c' m' := by
  induction p generalizing c m with
  | ret a => simp [wp, run]
  | read addr next ih =>
    rcases h : mem.read m addr with _ | v
    · simp [wp, run, h]
    · simp [wp, run, h, ih]
  | write addr v next ih =>
    rcases h : mem.write m addr v with _ | m'
    · simp [wp, run, h]
    · simp [wp, run, h, ih]
  | alloc size next ih =>
    rcases h : mem.alloc m size with _ | r
    · simp [wp, run, h]
    · simp [wp, run, h, ih]
  | free addr next ih =>
    rcases h : mem.free m addr with _ | m'
    · simp [wp, run, h]
    · simp [wp, run, h, ih]
  | save c' next ih => simp [wp, run, ih]
  | fault => simp [wp, run]

theorem wp_mono (h : p.wp mem Q c m) (hQ : ∀ a c m, Q a c m → Q' a c m) : p.wp mem Q' c m := by
  obtain ⟨a, c', m', hrun, hq⟩ := wp_iff_run.mp h
  exact wp_iff_run.mpr ⟨a, c', m', hrun, hQ _ _ _ hq⟩

@[simp] theorem wp_pure {a : α} : (pure a : Prog C V α).wp mem Q c m ↔ Q a c m := Iff.rfl

@[simp] theorem wp_bind {f : α → Prog C V β} {Q : β → C → M → Prop} :
    (p >>= f).wp mem Q c m ↔ p.wp mem (fun a => (f a).wp mem Q) c m := by
  show (p.bind f).wp mem Q c m ↔ _
  induction p generalizing c m with
  | ret a => rfl
  | read addr next ih => exact exists_congr fun v => and_congr_right fun _ => ih v
  | write addr v next ih => exact exists_congr fun m' => and_congr_right fun _ => ih
  | alloc size next ih => exact exists_congr fun r => and_congr_right fun _ => ih _
  | free addr next ih => exact exists_congr fun m' => and_congr_right fun _ => ih
  | save c' next ih => exact ih
  | fault => rfl

theorem run_extends {mem' : Memory M V} (h : mem.Extends mem') {r : α × C × M}
    (hr : p.run mem' c m = some r) : p.run mem c m = some r := by
  induction p generalizing c m with
  | ret a => exact hr
  | read addr next ih =>
    obtain ⟨v, hv, hr⟩ := Option.bind_eq_some_iff.mp hr
    exact Option.bind_eq_some_iff.mpr ⟨v, h.read hv, ih v hr⟩
  | write addr v next ih =>
    obtain ⟨m', hm', hr⟩ := Option.bind_eq_some_iff.mp hr
    exact Option.bind_eq_some_iff.mpr ⟨m', h.write hm', ih hr⟩
  | alloc size next ih =>
    obtain ⟨b, hb, hr⟩ := Option.bind_eq_some_iff.mp hr
    exact Option.bind_eq_some_iff.mpr ⟨b, h.alloc hb, ih _ hr⟩
  | free addr next ih =>
    obtain ⟨m', hm', hr⟩ := Option.bind_eq_some_iff.mp hr
    exact Option.bind_eq_some_iff.mpr ⟨m', h.free hm', ih hr⟩
  | save c' next ih => exact ih hr
  | fault => cases hr

end

/-! ## Assignments

What a program has captured changes by `save` only. So a property of all that it saves is one
of what it has captured, wherever it is cut. -/

/-- Whatever the memory answers, the program assigns values with `P` only. -/
def Saves (P : C → Prop) : Prog C V α → Prop
  | .ret _ => True
  | .read _ next => ∀ v, (next v).Saves P
  | .write _ _ next => next.Saves P
  | .alloc _ next => ∀ a, (next a).Saves P
  | .free _ next => next.Saves P
  | .save c next => P c ∧ next.Saves P
  | .fault => True

section

variable {P : C → Prop} {p : Prog C V α}

@[simp] theorem saves_pure {a : α} : (pure a : Prog C V α).Saves P := trivial

theorem saves_bind {f : α → Prog C V β} (hp : p.Saves P) (hf : ∀ a, (f a).Saves P) :
    (p >>= f).Saves P := by
  show (p.bind f).Saves P
  induction p with
  | ret a => exact hf a
  | read addr next ih => exact fun v => ih v (hp v)
  | write addr v next ih => exact ih hp
  | alloc size next ih => exact fun a => ih a (hp a)
  | free addr next ih => exact ih hp
  | save c next ih => exact ⟨hp.1, ih hp.2⟩
  | fault => trivial

end

/-! ## Loops

A loop is a body that says what to go on with, or what to return. With a variant that each turn
lowers it comes to its end, and with an invariant its value is known. -/

/-- A loop whose body goes on with new locals or ends, for at most `n` turns. -/
def loop (mem : Memory M V) (body : S → Prog C V (S ⊕ α)) :
    ℕ → S → C → M → Option (α × C × M)
  | 0, _, _, _ => none
  | n + 1, s, c, m =>
    ((body s).run mem c m).bind fun
      | (.inl s', c', m') => loop mem body n s' c' m'
      | (.inr a, c', m') => some (a, c', m')

/-- **Total correctness of a loop.** `I k` holds at the head of the loop when it
has at most `k` more turns to go. -/
theorem loop_total {mem : Memory M V} {body : S → Prog C V (S ⊕ α)}
    {I : ℕ → S → C → M → Prop} {Q : α → C → M → Prop}
    (hbody : ∀ k s c m, I k s c m → (body s).wp mem
      (Sum.elim (fun s' c' m' => ∃ j < k, I j s' c' m') Q) c m)
    {k : ℕ} {s : S} {c : C} {m : M} (hI : I k s c m) :
    ∃ a c' m', (∀ n, k < n → loop mem body n s c m = some (a, c', m')) ∧ Q a c' m' := by
  induction k using Nat.strongRecOn generalizing s c m with
  | _ k ih =>
    obtain ⟨r, c', m', hrun, hpost⟩ := wp_iff_run.mp (hbody k s c m hI)
    rcases r with s' | a
    · obtain ⟨j, hj, hI'⟩ := hpost
      obtain ⟨a, c'', m'', hloop, hq⟩ := ih j hj hI'
      refine ⟨a, c'', m'', ?_, hq⟩
      intro n hn
      obtain ⟨n, rfl⟩ : ∃ n', n = n' + 1 := ⟨n - 1, by omega⟩
      rw [loop, hrun]
      exact hloop n (by omega)
    · refine ⟨a, c', m', ?_, hpost⟩
      intro n hn
      obtain ⟨n, rfl⟩ : ∃ n', n = n' + 1 := ⟨n - 1, by omega⟩
      rw [loop, hrun]
      rfl

/-- A loop whose body returns in its first turn. -/
theorem loop_once {mem : Memory M V} {body : S → Prog C V (S ⊕ α)} {Q : α → C → M → Prop}
    {s : S} {c : C} {m : M}
    (hbody : (body s).wp mem (Sum.elim (fun _ _ _ => False) Q) c m) :
    ∃ a c' m', (∀ n, 0 < n → loop mem body n s c m = some (a, c', m')) ∧ Q a c' m' := by
  refine loop_total (I := fun _ s' c' m' => s' = s ∧ c' = c ∧ m' = m) ?_ ⟨rfl, rfl, rfl⟩
  rintro k _ _ _ ⟨rfl, rfl, rfl⟩
  apply wp_mono hbody
  intro r c' m' h
  cases r with
  | inl s' => exact h.elim
  | inr a => exact h

theorem loop_extends {mem mem' : Memory M V} (h : mem.Extends mem')
    {body : S → Prog C V (S ⊕ α)} {n : ℕ} {s : S} {c : C} {m : M} {r : α × C × M}
    (hr : loop mem' body n s c m = some r) : loop mem body n s c m = some r := by
  induction n generalizing s c m with
  | zero => cases hr
  | succ n ih =>
    obtain ⟨⟨r', c', m'⟩, hbody, hr⟩ := Option.bind_eq_some_iff.mp hr
    refine Option.bind_eq_some_iff.mpr ⟨⟨r', c', m'⟩, run_extends h hbody, ?_⟩
    cases r' with
    | inl s' => exact ih hr
    | inr a => exact hr

/-! ## Attempts

An attempt that is cut at one of its operations has captured what was saved before. Which
operations there are depends on the memory it is run on. -/

/-- What the outer variables hold when an operation of the program fails and it is given
up: one entry for each operation that it comes to. -/
def leftovers (mem : Memory M V) : Prog C V α → C → M → List C
  | .ret _, _, _ => []
  | .read addr next, c, m =>
    c :: match mem.read m addr with
      | some v => (next v).leftovers mem c m
      | none => []
  | .write addr v next, c, m =>
    c :: match mem.write m addr v with
      | some m' => next.leftovers mem c m'
      | none => []
  | .alloc size next, c, m =>
    c :: match mem.alloc m size with
      | some r => (next r.1).leftovers mem c r.2
      | none => []
  | .free addr next, c, m =>
    c :: match mem.free m addr with
      | some m' => next.leftovers mem c m'
      | none => []
  | .save c' next, _, m => next.leftovers mem c' m
  | .fault, _, _ => []

/-- What a loop that is cut has captured, at each operation of its first `n` turns. -/
def loopLeftovers (mem : Memory M V) (body : S → Prog C V (S ⊕ α)) : ℕ → S → C → M → List C
  | 0, _, _, _ => []
  | n + 1, s, c, m =>
    (body s).leftovers mem c m ++
      match (body s).run mem c m with
      | some (.inl s', c', m') => loopLeftovers mem body n s' c' m'
      | _ => []

/-- Whatever the memory answers, what the program assigns has `P` and what it ends with
has `Q`. -/
def Keeps (P : C → Prop) (Q : α → Prop) : Prog C V α → Prop
  | .ret a => Q a
  | .read _ next => ∀ v, (next v).Keeps P Q
  | .write _ _ next => next.Keeps P Q
  | .alloc _ next => ∀ a, (next a).Keeps P Q
  | .free _ next => next.Keeps P Q
  | .save c next => P c ∧ next.Keeps P Q
  | .fault => True

section

variable {P : C → Prop} {Q : α → Prop} {mem : Memory M V} {p : Prog C V α} {c : C} {m : M}

theorem keeps_of_saves (hp : p.Saves P) : p.Keeps P fun _ => True := by
  induction p with
  | ret a => trivial
  | read addr next ih => exact fun v => ih v (hp v)
  | write addr v next ih => exact ih hp
  | alloc size next ih => exact fun a => ih a (hp a)
  | free addr next ih => exact ih hp
  | save c next ih => exact ⟨hp.1, ih hp.2⟩
  | fault => trivial

theorem keeps_bind {R : β → Prop} {f : α → Prog C V β} (hp : p.Keeps P Q)
    (hf : ∀ a, Q a → (f a).Keeps P R) : (p >>= f).Keeps P R := by
  show (p.bind f).Keeps P R
  induction p with
  | ret a => exact hf a hp
  | read addr next ih => exact fun v => ih v (hp v)
  | write addr v next ih => exact ih hp
  | alloc size next ih => exact fun a => ih a (hp a)
  | free addr next ih => exact ih hp
  | save c next ih => exact ⟨hp.1, ih hp.2⟩
  | fault => trivial

@[simp] theorem run_pure {a : α} : (pure a : Prog C V α).run mem c m = some (a, c, m) := rfl

theorem run_bind {f : α → Prog C V β} :
    (p >>= f).run mem c m = (p.run mem c m).bind fun r => (f r.1).run mem r.2.1 r.2.2 := by
  show (p.bind f).run mem c m = _
  induction p generalizing c m with
  | ret a => rfl
  | read addr next ih =>
    rw [Prog.bind, Prog.run, Prog.run, Option.bind_assoc]
    exact congrArg _ (funext fun v => ih v)
  | write addr v next ih =>
    rw [Prog.bind, Prog.run, Prog.run, Option.bind_assoc]
    exact congrArg _ (funext fun m' => ih)
  | alloc size next ih =>
    rw [Prog.bind, Prog.run, Prog.run, Option.bind_assoc]
    exact congrArg _ (funext fun r => ih r.1)
  | free addr next ih =>
    rw [Prog.bind, Prog.run, Prog.run, Option.bind_assoc]
    exact congrArg _ (funext fun m' => ih)
  | save c' next ih => exact ih
  | fault => rfl

@[simp] theorem leftovers_pure {a : α} : (pure a : Prog C V α).leftovers mem c m = [] := rfl

theorem leftovers_bind {f : α → Prog C V β} :
    (p >>= f).leftovers mem c m = p.leftovers mem c m ++
      ((p.run mem c m).map fun r => (f r.1).leftovers mem r.2.1 r.2.2).getD [] := by
  show (p.bind f).leftovers mem c m = _
  induction p generalizing c m with
  | ret a => rfl
  | read addr next ih =>
    rw [Prog.bind, Prog.leftovers, Prog.leftovers, Prog.run]
    cases mem.read m addr with
    | none => rfl
    | some v => exact congrArg _ (ih v)
  | write addr v next ih =>
    rw [Prog.bind, Prog.leftovers, Prog.leftovers, Prog.run]
    cases mem.write m addr v with
    | none => rfl
    | some m' => exact congrArg _ ih
  | alloc size next ih =>
    rw [Prog.bind, Prog.leftovers, Prog.leftovers, Prog.run]
    cases mem.alloc m size with
    | none => rfl
    | some r => exact congrArg _ (ih r.1)
  | free addr next ih =>
    rw [Prog.bind, Prog.leftovers, Prog.leftovers, Prog.run]
    cases mem.free m addr with
    | none => rfl
    | some m' => exact congrArg _ ih
  | save c' next ih => exact ih
  | fault => rfl

/-- What an attempt leaves is what it found or what it has assigned. -/
theorem Keeps.leftovers (hp : p.Keeps P Q) (hc : P c) : ∀ c' ∈ p.leftovers mem c m, P c' := by
  induction p generalizing c m with
  | ret a => exact fun c' h => absurd h List.not_mem_nil
  | read addr next ih =>
    rw [Prog.leftovers, List.forall_mem_cons]
    refine ⟨hc, ?_⟩
    cases mem.read m addr with
    | none => exact fun c' h => absurd h List.not_mem_nil
    | some v => exact ih v (hp v) hc
  | write addr v next ih =>
    rw [Prog.leftovers, List.forall_mem_cons]
    refine ⟨hc, ?_⟩
    cases mem.write m addr v with
    | none => exact fun c' h => absurd h List.not_mem_nil
    | some m' => exact ih hp hc
  | alloc size next ih =>
    rw [Prog.leftovers, List.forall_mem_cons]
    refine ⟨hc, ?_⟩
    cases mem.alloc m size with
    | none => exact fun c' h => absurd h List.not_mem_nil
    | some r => exact ih r.1 (hp r.1) hc
  | free addr next ih =>
    rw [Prog.leftovers, List.forall_mem_cons]
    refine ⟨hc, ?_⟩
    cases mem.free m addr with
    | none => exact fun c' h => absurd h List.not_mem_nil
    | some m' => exact ih hp hc
  | save c'' next ih => exact ih hp.2 hp.1
  | fault => exact fun c' h => absurd h List.not_mem_nil

theorem Keeps.run (hp : p.Keeps P Q) (hc : P c) {a : α} {c' : C} {m' : M}
    (hr : p.run mem c m = some (a, c', m')) : Q a ∧ P c' := by
  induction p generalizing c m with
  | ret b =>
    obtain ⟨rfl, h⟩ := Prod.mk.inj (Option.some.inj hr)
    obtain ⟨rfl, -⟩ := Prod.mk.inj h
    exact ⟨hp, hc⟩
  | read addr next ih =>
    obtain ⟨v, -, hr⟩ := Option.bind_eq_some_iff.mp hr
    exact ih v (hp v) hc hr
  | write addr v next ih =>
    obtain ⟨m₁, -, hr⟩ := Option.bind_eq_some_iff.mp hr
    exact ih hp hc hr
  | alloc size next ih =>
    obtain ⟨r, -, hr⟩ := Option.bind_eq_some_iff.mp hr
    exact ih r.1 (hp r.1) hc hr
  | free addr next ih =>
    obtain ⟨m₁, -, hr⟩ := Option.bind_eq_some_iff.mp hr
    exact ih hp hc hr
  | save c'' next ih => exact ih hp.2 hp.1 hr
  | fault => cases hr

/-- The rule for a loop: `I` is an invariant of its locals. -/
theorem loopLeftovers_of_keeps {body : S → Prog C V (S ⊕ α)} {I : S → Prop}
    (hbody : ∀ s, I s → (body s).Keeps P (Sum.elim I fun _ => True)) {n : ℕ} {s : S} (hs : I s)
    (hc : P c) : ∀ c' ∈ loopLeftovers mem body n s c m, P c' := by
  induction n generalizing s c m with
  | zero => exact fun c' h => absurd h List.not_mem_nil
  | succ n ih =>
    intro c' hmem
    rcases List.mem_append.mp hmem with hmem | hmem
    · exact (hbody s hs).leftovers hc c' hmem
    · split at hmem
      · rename_i s' c₁ m₁ hr
        obtain ⟨hs', hc₁⟩ := (hbody s hs).run hc hr
        exact ih hs' hc₁ c' hmem
      · exact absurd hmem List.not_mem_nil

/-- More turns come to more operations. -/
theorem loopLeftovers_prefix {body : S → Prog C V (S ⊕ α)} {n k : ℕ} (hle : n ≤ k) (s : S) (c : C)
    (m : M) : loopLeftovers mem body n s c m <+: loopLeftovers mem body k s c m := by
  induction n generalizing k s c m with
  | zero => exact List.nil_prefix
  | succ n ih =>
    obtain ⟨k, rfl⟩ : ∃ k', k = k' + 1 := ⟨k - 1, by omega⟩
    rw [loopLeftovers, loopLeftovers, List.prefix_append_right_inj]
    split
    · exact ih (Nat.le_of_succ_le_succ hle) _ _ _
    · exact List.prefix_rfl

/-- More turns do not change what a loop has come to. -/
theorem loop_mono {body : S → Prog C V (S ⊕ α)} {n k : ℕ} (hle : n ≤ k) {s : S} {r : α × C × M}
    (hr : loop mem body n s c m = some r) : loop mem body k s c m = some r := by
  induction n generalizing k s c m with
  | zero => cases hr
  | succ n ih =>
    obtain ⟨k, rfl⟩ : ∃ k', k = k' + 1 := ⟨k - 1, by omega⟩
    obtain ⟨⟨r', c', m'⟩, hbody, hr⟩ := Option.bind_eq_some_iff.mp hr
    refine Option.bind_eq_some_iff.mpr ⟨⟨r', c', m'⟩, hbody, ?_⟩
    cases r' with
    | inl s' => exact ih (Nat.le_of_succ_le_succ hle) hr
    | inr a => exact hr

end

end Prog

/-! ## Memories

What a program can know of a memory without knowing the memory: it holds certain values in
certain words, owns certain segments, and reads, writes and allocations do to these what they
should. -/

namespace Memory

variable {M V L : Type}

/-- The memory holds `f` at the addresses, which stand for different words, and
owns the segments, told by their addresses and sizes. -/
structure Holds (mem : Memory M V) (loc : ℕ → L) (owns : M → ℕ → ℕ → Prop) (addrs : List ℕ)
    (segs : List (ℕ × ℕ)) (m : M) (f : ℕ → V) : Prop where
  /-- no word has two of the addresses -/
  apart : (addrs.map loc).Nodup
  /-- what is there -/
  read : ∀ a ∈ addrs, mem.read m a = some (f a)
  /-- what may be freed -/
  owned : ∀ s ∈ segs, owns m s.1 s.2

/-- A write changes the word it is about, and nothing else. -/
structure Lawful (mem : Memory M V) (loc : ℕ → L) (owns : M → ℕ → ℕ → Prop) : Prop where
  /-- what can be read can be written -/
  write : ∀ {m a v}, mem.read m a = some v → ∀ w, ∃ m', mem.write m a w = some m' ∧
    mem.read m' a = some w ∧ (∀ b, loc b ≠ loc a → mem.read m' b = mem.read m b) ∧
    ∀ b n, owns m b n → owns m' b n

/-- New segments are zero-filled and their words, `stride` bytes apart, are new;
a segment goes as a whole. -/
structure LawfulAlloc [Zero V] (mem : Memory M V) (loc : ℕ → L) (owns : M → ℕ → ℕ → Prop)
    (stride : ℕ) : Prop where
  /-- a new segment -/
  alloc : ∀ m size, ∃ base m', mem.alloc m size = some (base, m') ∧ base ≠ 0 ∧
    owns m' base size ∧
    (∀ i, i * stride < size → mem.read m' (base + i * stride) = some 0) ∧
    (∀ i j, i * stride < size → j * stride < size →
      loc (base + i * stride) = loc (base + j * stride) → i = j) ∧
    (∀ a v, mem.read m a = some v → mem.read m' a = some v ∧
      ∀ i, i * stride < size → loc a ≠ loc (base + i * stride)) ∧
    ∀ b n, owns m b n → owns m' b n ∧ b ≠ base
  /-- the end of a segment -/
  free : ∀ m base size, owns m base size → ∃ m', mem.free m base = some m' ∧
    (∀ a, (∀ i, i * stride < size → loc a ≠ loc (base + i * stride)) →
      mem.read m' a = mem.read m a) ∧
    ∀ b n, owns m b n → b ≠ base → owns m' b n

namespace Holds

variable {mem : Memory M V} {loc : ℕ → L} {owns : M → ℕ → ℕ → Prop} {addrs addrs' : List ℕ}
  {segs segs' : List (ℕ × ℕ)} {m : M} {f g : ℕ → V} {a b : ℕ}

theorem loc_ne (h : mem.Holds loc owns addrs segs m f) (ha : a ∈ addrs) (hb : b ∈ addrs)
    (hne : a ≠ b) : loc a ≠ loc b :=
  fun heq => hne (List.inj_on_of_nodup_map h.apart ha hb heq)

theorem nodup (h : mem.Holds loc owns addrs segs m f) : addrs.Nodup := h.apart.of_map

/-- A memory that holds some words and segments holds any part of them. -/
theorem mono (h : mem.Holds loc owns addrs segs m f) (ha : addrs'.Sublist addrs)
    (hs : ∀ s ∈ segs', s ∈ segs) : mem.Holds loc owns addrs' segs' m f :=
  ⟨h.apart.sublist (ha.map loc), fun a hmem => h.read a (ha.subset hmem),
    fun s hmem => h.owned s (hs s hmem)⟩

/-- A word that is written holds what was written, and the others what they held. -/
theorem write (h : mem.Holds loc owns addrs segs m f) (hmem : mem.Lawful loc owns)
    (ha : a ∈ addrs) (w : V) : ∃ m', mem.write m a w = some m' ∧
      mem.Holds loc owns addrs segs m' (Function.update f a w) := by
  obtain ⟨m', hwrite, hself, hother, howns⟩ := hmem.write (h.read a ha) w
  refine ⟨m', hwrite, h.apart, ?_, fun s hs => howns _ _ (h.owned s hs)⟩
  intro b hb
  obtain rfl | hba := eq_or_ne b a
  · rw [hself, Function.update_self]
  · rw [hother b (h.loc_ne hb ha hba), h.read b hb, Function.update_of_ne hba]

/-- The rule for a new segment of `n` words. -/
theorem alloc [Zero V] (h : mem.Holds loc owns addrs segs m f) {stride : ℕ}
    (hmem : mem.LawfulAlloc loc owns stride) (hstride : 0 < stride) (n : ℕ) :
    ∃ base m', mem.alloc m (n * stride) = some (base, m') ∧ base ≠ 0 ∧
      (∀ s ∈ segs, s.1 ≠ base) ∧
      ∀ words, words = (List.range n).map (fun i => base + i * stride) →
        mem.Holds loc owns (addrs ++ words) ((base, n * stride) :: segs) m'
          (fun a => if a ∈ words then 0 else f a) := by
  obtain ⟨base, m', halloc, hbase, hown, hzero, hinj, hold, howns⟩ := hmem.alloc m (n * stride)
  refine ⟨base, m', halloc, hbase, fun s hs => (howns _ _ (h.owned s hs)).2, ?_⟩
  rintro words rfl
  have hlt : ∀ {i}, i < n → i * stride < n * stride := fun hi =>
    Nat.mul_lt_mul_of_pos_right hi hstride
  have hnew : ∀ {a b}, a ∈ addrs → b ∈ (List.range n).map (fun i => base + i * stride) →
      loc a ≠ loc b := by
    intro a b ha hb
    obtain ⟨i, hi, rfl⟩ := List.mem_map.mp hb
    exact (hold a _ (h.read a ha)).2 i (hlt (List.mem_range.mp hi))
  refine ⟨?_, ?_, ?_⟩
  · rw [List.map_append, List.nodup_append]
    refine ⟨h.apart, ?_, ?_⟩
    · rw [List.map_map]
      refine List.Nodup.map_on ?_ List.nodup_range
      intro i hi j hj
      exact hinj i j (hlt (List.mem_range.mp hi)) (hlt (List.mem_range.mp hj))
    · rintro _ hx _ hy rfl
      obtain ⟨a, ha, hxa⟩ := List.mem_map.mp hx
      obtain ⟨b, hb, hyb⟩ := List.mem_map.mp hy
      exact hnew ha hb (hxa.trans hyb.symm)
  · intro a ha
    rcases List.mem_append.mp ha with ha | ha
    · rw [if_neg fun hmem => hnew ha hmem rfl]
      exact (hold a _ (h.read a ha)).1
    · rw [if_pos ha]
      obtain ⟨i, hi, rfl⟩ := List.mem_map.mp ha
      exact hzero i (hlt (List.mem_range.mp hi))
  · intro s hs
    rcases List.mem_cons.mp hs with rfl | hs
    · exact hown
    · exact (howns _ _ (h.owned s hs)).1

/-- The rule for the end of a segment of `n` words. -/
theorem free [Zero V] {base n stride : ℕ} {words : List ℕ}
    (hwords : words = (List.range n).map fun i => base + i * stride)
    (h : mem.Holds loc owns (addrs ++ words) segs m f)
    (hmem : mem.LawfulAlloc loc owns stride) (hs : (base, n * stride) ∈ segs)
    (hsegs : ∀ s ∈ segs', s ∈ segs ∧ s.1 ≠ base) :
    ∃ m', mem.free m base = some m' ∧ mem.Holds loc owns addrs segs' m' f := by
  obtain ⟨m', hfree, hread, howns⟩ := hmem.free m base _ (h.owned _ hs)
  have happ := h.apart
  rw [List.map_append, List.nodup_append] at happ
  refine ⟨m', hfree, happ.1, ?_, ?_⟩
  · intro a ha
    rw [hread a fun i hi => ?_]
    · exact h.read a (List.mem_append_left _ ha)
    · refine happ.2.2 _ (List.mem_map_of_mem ha) _ (List.mem_map_of_mem ?_)
      rw [hwords]
      exact List.mem_map_of_mem (List.mem_range.mpr (Nat.lt_of_mul_lt_mul_right hi))
  · intro s hmem
    exact howns _ _ (h.owned s (hsegs s hmem).1) (hsegs s hmem).2

end Holds

/-- A memory that does not let one segment go. -/
def sparing (mem : Memory M V) (start : ℕ) : Memory M V :=
  { mem with free := fun m a => if a = start then none else mem.free m a }

section

variable {mem : Memory M V} {loc : ℕ → L} {owns : M → ℕ → ℕ → Prop} {start : ℕ}

theorem extends_sparing : mem.Extends (mem.sparing start) := by
  refine ⟨id, id, id, ?_⟩
  intro m a m' h
  simp only [sparing] at h
  split at h
  · cases h
  · exact h

theorem Lawful.sparing (h : mem.Lawful loc owns) : (mem.sparing start).Lawful loc owns := ⟨h.write⟩

theorem LawfulAlloc.sparing [Zero V] {stride : ℕ} (h : mem.LawfulAlloc loc owns stride)
    (hstart : ∀ m n, ¬ owns m start n) : (mem.sparing start).LawfulAlloc loc owns stride := by
  refine ⟨h.alloc, ?_⟩
  intro m base size hown
  obtain ⟨m', hfree, hrest⟩ := h.free m base size hown
  refine ⟨m', ?_, hrest⟩
  have hne : base ≠ start := by
    rintro rfl
    exact hstart m size hown
  simp only [Memory.sparing]
  rw [if_neg hne, hfree]

end

variable [DecidableEq L]

/-- The words at given places, without segments to get or to free. -/
def ofPlaces (place : ℕ → Option L) : Memory (L → V) V where
  read m a := (place a).map m
  write m a v := (place a).map fun ℓ => Function.update m ℓ v
  alloc _ _ := none
  free _ _ := none

theorem ofPlaces_lawful (place : ℕ → Option L) :
    (ofPlaces place : Memory (L → V) V).Lawful place fun _ _ _ => False := by
  refine ⟨?_⟩
  intro m a v hv w
  obtain ⟨ℓ, hℓ, -⟩ := Option.map_eq_some_iff.mp hv
  refine ⟨Function.update m ℓ w, by simp [ofPlaces, hℓ], by simp [ofPlaces, hℓ], ?_, fun _ _ h => h⟩
  intro b hb
  rcases hbℓ : place b with _ | k
  · simp [ofPlaces, hbℓ]
  · have hk : k ≠ ℓ := by
      rintro rfl
      exact hb (hbℓ.trans hℓ.symm)
    simp [ofPlaces, hbℓ, Function.update_of_ne hk]

end Memory

end DualStm
