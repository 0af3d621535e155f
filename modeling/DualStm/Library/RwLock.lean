import DualStm.Library.Run
import Mathlib.Data.Fintype.Basic
import Mathlib.Logic.Function.Basic

/-!
# Objects under a readers-writer lock

A thread holds the lock shared, with others, or exclusively. While it holds it, it
may perform operations of an object, and as long as nobody changes the object under
a shared lock, whatever the threads do is what they would have done one after the
other, in the order in which they took the lock: each **session** from an acquisition
to its release can be performed as a whole.
-/

namespace DualStm

universe u v w x

variable {τ : Type u} {σ : Type v} {ι : Type w} {ρ : Type x}

/-- How a lock is held, by one writer or by readers. -/
inductive Hold where
  /-- as a reader, with others -/
  | shared
  /-- alone -/
  | exclusive
  deriving DecidableEq

/-- A readers-writer lock, and who holds it. -/
structure RwLock (τ : Type u) where
  /-- how a thread holds it -/
  held : τ → Option Hold

namespace RwLock

/-- A new lock, which nobody holds. -/
def init : RwLock τ := ⟨fun _ => none⟩

/-- The lock is granted to a thread while the others hold it. -/
def Admits (l : RwLock τ) : Hold → Prop
  | .shared => ∀ u, l.held u ≠ some .exclusive
  | .exclusive => ∀ u, l.held u = none

instance [Fintype τ] (l : RwLock τ) (k : Hold) : Decidable (l.Admits k) :=
  match k with
  | .shared => inferInstanceAs (Decidable (∀ u, l.held u ≠ some .exclusive))
  | .exclusive => inferInstanceAs (Decidable (∀ u, l.held u = none))

variable [DecidableEq τ]

/-- A thread comes to hold the lock, or no longer does. -/
def set (l : RwLock τ) (t : τ) (k : Option Hold) : RwLock τ := ⟨Function.update l.held t k⟩

@[simp] theorem set_self {l : RwLock τ} {t : τ} {k : Option Hold} : (l.set t k).held t = k :=
  Function.update_self ..

theorem set_of_ne {l : RwLock τ} {t u : τ} {k : Option Hold} (hut : u ≠ t) :
    (l.set t k).held u = l.held u := Function.update_of_ne hut ..

/-- `pthread_rwlock_rdlock` and `pthread_rwlock_wrlock` of a thread that does not hold the
lock. It waits until the lock admits it, or is refused. -/
def lock [Fintype τ] (l : RwLock τ) (t : τ) (k : Hold) (ok : Bool) : Option (RwLock τ × Bool) :=
  if l.held t ≠ none then none
  else if ok = false then some (l, false)
  else if l.Admits k then some (l.set t (some k), true)
  else none

/-- `pthread_rwlock_unlock`; undefined if the thread does not hold the lock. -/
def unlock (l : RwLock τ) (t : τ) : Option (RwLock τ) :=
  if l.held t = none then none else some (l.set t none)

end RwLock

/-! ## Sessions

A session is what a thread does while it holds the lock. The sessions of writers follow one
another and those of readers are between them, so all of them have an order. -/

/-- What happens around an object under a lock. -/
inductive GuardEvent (τ : Type u) (ι : Type w) (ρ : Type x) where
  /-- a thread takes the lock -/
  | acquired (t : τ) (k : Hold)
  /-- a thread is refused the lock -/
  | refused (t : τ) (k : Hold)
  /-- a thread performs an operation -/
  | did (t : τ) (i : ι) (r : ρ)
  /-- a thread gives the lock back -/
  | released (t : τ)
  deriving DecidableEq

/-- What a thread did with the lock in its hands. -/
structure Session (τ : Type u) (ι : Type w) (ρ : Type x) where
  /-- the thread -/
  thread : τ
  /-- how it held the lock -/
  hold : Hold
  /-- the operations of the session, oldest first -/
  calls : List (ι × ρ)
  /-- the thread still holds the lock -/
  isOpen : Bool

/-- Operations performed one after the other. -/
def Performs (R : σ → ι → ρ → σ → Prop) : σ → List (ι × ρ) → σ → Prop
  | s, [], s' => s' = s
  | s, (i, r) :: l, s' => ∃ s₁, R s i r s₁ ∧ Performs R s₁ l s'

namespace Performs

variable {R : σ → ι → ρ → σ → Prop} {s s' : σ} {l l' : List (ι × ρ)}

theorem append_iff : Performs R s (l ++ l') s' ↔ ∃ s₁, Performs R s l s₁ ∧ Performs R s₁ l' s' := by
  induction l generalizing s with
  | nil => exact ⟨fun h => ⟨s, rfl, h⟩, fun ⟨_, h, h'⟩ => h ▸ h'⟩
  | cons c l ih =>
    obtain ⟨i, r⟩ := c
    simp only [List.cons_append, Performs, ih]
    constructor
    · rintro ⟨s₁, hR, s₂, h, h'⟩
      exact ⟨s₂, ⟨s₁, hR, h⟩, h'⟩
    · rintro ⟨s₂, ⟨s₁, hR, h⟩, h'⟩
      exact ⟨s₁, hR, s₂, h, h'⟩

theorem singleton {i : ι} {r : ρ} (hR : R s i r s') : Performs R s [(i, r)] s' := ⟨s', hR, rfl⟩

/-- A part of the object performs the same operations. -/
theorem map {σ' : Type v} {R' : σ' → ι → ρ → σ' → Prop} (f : σ → σ')
    (hf : ∀ {s i r s'}, R s i r s' → R' (f s) i r (f s')) (h : Performs R s l s') :
    Performs R' (f s) l (f s') := by
  induction l generalizing s with
  | nil => exact congrArg f h
  | cons c l ih =>
    obtain ⟨s₁, hR, h⟩ := h
    exact ⟨f s₁, hf hR, ih h⟩

/-- Calls that only read leave the object as it is. -/
theorem eq_of_reads {isRead : ι → Prop} (hread : ∀ {s i r s'}, isRead i → R s i r s' → s' = s)
    (h : Performs R s l s') (hl : ∀ c ∈ l, isRead c.1) : s' = s := by
  induction l generalizing s with
  | nil => exact h
  | cons c l ih =>
    obtain ⟨hc, hl⟩ := List.forall_mem_cons.mp hl
    obtain ⟨s₁, hR, h⟩ := h
    rw [ih h hl, hread hc hR]

end Performs

variable [DecidableEq τ]

namespace Session

/-- The open session of a thread changes, and the others do not. -/
def atOpen (t : τ) (f : Session τ ι ρ → Session τ ι ρ) (b : Session τ ι ρ) : Session τ ι ρ :=
  if b.isOpen ∧ b.thread = t then f b else b

/-- The session goes on with one more call. -/
def record (c : ι × ρ) (b : Session τ ι ρ) : Session τ ι ρ := { b with calls := b.calls ++ [c] }

/-- The session ends. -/
def close (b : Session τ ι ρ) : Session τ ι ρ := { b with isOpen := false }

theorem map_atOpen {t : τ} {f : Session τ ι ρ → Session τ ι ρ} {pre post : List (Session τ ι ρ)}
    {b : Session τ ι ρ} (hb : b.isOpen = true) (hthread : b.thread = t)
    (hother : ∀ a, a ∈ pre ∨ a ∈ post → ¬ (a.isOpen = true ∧ a.thread = t)) :
    (pre ++ b :: post).map (atOpen t f) = pre ++ f b :: post := by
  have hsame : ∀ a, a ∈ pre ∨ a ∈ post → atOpen t f a = a := fun a ha => if_neg (hother a ha)
  rw [List.map_append, List.map_cons, List.map_congr_left fun a ha => hsame a (.inl ha),
    List.map_congr_left fun a ha => hsame a (.inr ha), List.map_id', List.map_id', atOpen,
    if_pos ⟨hb, hthread⟩]

end Session

/-- The sessions of a history, in the order in which they began. -/
def sessions : List (GuardEvent τ ι ρ) → List (Session τ ι ρ)
  | [] => []
  | .acquired t k :: h => sessions h ++ [⟨t, k, [], true⟩]
  | .refused _ _ :: h => sessions h
  | .did t i r :: h => (sessions h).map (Session.atOpen t (Session.record (i, r)))
  | .released t :: h => (sessions h).map (Session.atOpen t Session.close)

/-- The operations of a thread, oldest first. -/
def callsOf (t : τ) : List (GuardEvent τ ι ρ) → List (ι × ρ)
  | [] => []
  | .did u i r :: h => callsOf t h ++ if u = t then [(i, r)] else []
  | _ :: h => callsOf t h

/-- Who took the lock and how, oldest first. -/
def acquisitions : List (GuardEvent τ ι ρ) → List (τ × Hold)
  | [] => []
  | .acquired t k :: h => acquisitions h ++ [(t, k)]
  | _ :: h => acquisitions h

/-- The sessions are in the order of the acquisitions. -/
theorem map_sessions (h : List (GuardEvent τ ι ρ)) :
    ((sessions h).map fun b => (b.thread, b.hold)) = acquisitions h := by
  have hsame : ∀ (t : τ) (f : Session τ ι ρ → Session τ ι ρ),
      (∀ b, (f b).thread = b.thread ∧ (f b).hold = b.hold) → ∀ l : List (Session τ ι ρ),
      ((l.map (Session.atOpen t f)).map fun b => (b.thread, b.hold)) =
        l.map fun b => (b.thread, b.hold) := by
    intro t f hf l
    rw [List.map_map]
    apply List.map_congr_left
    intro b _
    simp only [Function.comp_apply, Session.atOpen]
    split
    · rw [(hf b).1, (hf b).2]
    · rfl
  induction h with
  | nil => rfl
  | cons e h ih =>
    cases e with
    | acquired t k => rw [sessions, List.map_append, ih, acquisitions, List.map_singleton]
    | refused t k => exact ih
    | did t i r =>
      rw [sessions, hsame t (Session.record (i, r)) fun b => ⟨rfl, rfl⟩]
      exact ih
    | released t =>
      rw [sessions, hsame t Session.close fun b => ⟨rfl, rfl⟩]
      exact ih

/-- All operations, one after the other by session. -/
def serial (h : List (GuardEvent τ ι ρ)) : List (ι × ρ) := (sessions h).flatMap Session.calls

/-! ## The invariant

The sessions that are over, in the order in which they began, can be done one after the other.
Those that are open are at the end of this order: one writer, or any number of readers. -/

/-- What a thread may do: take the lock when it is free for it, perform operations that
are reads under a shared lock, and give the lock back. -/
inductive GuardStep (R : σ → ι → ρ → σ → Prop) (isRead : ι → Prop) (s : σ) (l : RwLock τ) :
    GuardEvent τ ι ρ → σ → RwLock τ → Prop where
  | acquired {t : τ} {k : Hold} (ht : l.held t = none) (hk : l.Admits k) :
    GuardStep R isRead s l (.acquired t k) s (l.set t (some k))
  | refused {t : τ} {k : Hold} : GuardStep R isRead s l (.refused t k) s l
  | did {t : τ} {k : Hold} {i : ι} {r : ρ} {s' : σ} (ht : l.held t = some k)
      (hR : R s i r s') (hread : k = .shared → isRead i) :
    GuardStep R isRead s l (.did t i r) s' l
  | released {t : τ} {k : Hold} (ht : l.held t = some k) :
    GuardStep R isRead s l (.released t) s (l.set t none)

/-- Two sessions, the first of which began earlier. -/
def Session.Before (b b' : Session τ ι ρ) : Prop :=
  b.isOpen = true → b.hold = .shared ∧ b'.hold = .shared ∧ b.thread ≠ b'.thread

/-- What the sessions of a run tell about the object and the lock. -/
structure SessionInv (R : σ → ι → ρ → σ → Prop) (isRead : ι → Prop) (s₀ : σ)
    (h : List (GuardEvent τ ι ρ)) (s : σ) (l : RwLock τ) : Prop where
  /-- one after the other they lead to the object -/
  performs : Performs R s₀ (serial h) s
  /-- under a shared lock there are reads only -/
  reads : ∀ b ∈ sessions h, b.hold = .shared → ∀ c ∈ b.calls, isRead c.1
  /-- the open ones are the holders of the lock -/
  holds : ∀ t k, l.held t = some k ↔
    ∃ b ∈ sessions h, b.isOpen = true ∧ b.thread = t ∧ b.hold = k
  /-- while one is open only shared ones begin -/
  apart : (sessions h).Pairwise Session.Before
  /-- nothing is lost and nothing added -/
  calls : ∀ t, ((sessions h).filter fun b => b.thread = t).flatMap Session.calls = callsOf t h

namespace SessionInv

variable {R : σ → ι → ρ → σ → Prop} {isRead : ι → Prop} {s₀ s s' : σ}
  {h : List (GuardEvent τ ι ρ)} {l l' : RwLock τ} {t u : τ} {k : Hold}

theorem init : SessionInv R isRead s₀ ([] : List (GuardEvent τ ι ρ)) s₀ .init := by
  refine ⟨rfl, fun b hb => ?_, fun t k => ⟨fun hk => ?_, ?_⟩, .nil, fun _ => rfl⟩
  · cases hb
  · cases hk
  · rintro ⟨b, hb, -⟩
    cases hb

/-- The open session of a thread, and the sessions around it. -/
theorem exists_open (hi : SessionInv R isRead s₀ h s l) (ht : l.held t = some k) :
    ∃ pre b post, sessions h = pre ++ b :: post ∧ b.isOpen = true ∧ b.thread = t ∧ b.hold = k ∧
      (∀ a, a ∈ pre ∨ a ∈ post → ¬ (a.isOpen = true ∧ a.thread = t)) ∧
      (∀ a ∈ post, a.hold = .shared) ∧ (k = .exclusive → post = []) := by
  obtain ⟨b, hb, hopen, rfl, rfl⟩ := (hi.holds t k).mp ht
  obtain ⟨pre, post, hsplit⟩ := List.append_of_mem hb
  have hpairwise := hi.apart
  rw [hsplit] at hpairwise
  obtain ⟨-, hpost, hpre⟩ := List.pairwise_append.mp hpairwise
  have hpost := (List.pairwise_cons.mp hpost).1
  refine ⟨pre, b, post, hsplit, hopen, rfl, rfl, ?_, fun a ha => (hpost a ha hopen).2.1, ?_⟩
  · rintro a (ha | ha) ⟨hopena, hthread⟩
    · exact (hpre a ha b List.mem_cons_self hopena).2.2 hthread
    · exact (hpost a ha hopen).2.2 hthread.symm
  · intro hk
    cases post with
    | nil => rfl
    | cons a post =>
      have hshared := (hpost a List.mem_cons_self hopen).1
      rw [hk] at hshared
      cases hshared

/-- **Exclusion.** Nobody else holds a lock that is held exclusively. -/
theorem alone (hi : SessionInv R isRead s₀ h s l) (ht : l.held t = some .exclusive)
    (hu : u ≠ t) : l.held u = none := by
  cases hk : l.held u with
  | none => rfl
  | some k =>
    obtain ⟨pre, b, post, hsplit, hopen, rfl, hb, -, -, hlast⟩ := hi.exists_open ht
    obtain ⟨a, ha, hopena, rfl, -⟩ := (hi.holds u k).mp hk
    rw [hsplit, hlast rfl] at ha
    have hpairwise := hi.apart
    rw [hsplit, hlast rfl] at hpairwise
    rcases List.mem_append.mp ha with ha | ha
    · have hbefore := (List.pairwise_append.mp hpairwise).2.2 a ha b List.mem_cons_self hopena
      rw [hb] at hbefore
      cases hbefore.2.1
    · obtain rfl := List.mem_singleton.mp ha
      exact absurd rfl hu

/-- A thread that takes the lock begins a session. -/
theorem acquire (hi : SessionInv R isRead s₀ h s l) (ht : l.held t = none) (hk : l.Admits k) :
    SessionInv R isRead s₀ (.acquired t k :: h) s (l.set t (some k)) := by
  have hopen : ∀ b ∈ sessions h, b.isOpen = true →
      b.thread ≠ t ∧ b.hold = .shared ∧ k = .shared := by
    intro b hb hb'
    have hheld := (hi.holds b.thread b.hold).mpr ⟨b, hb, hb', rfl, rfl⟩
    constructor
    · intro heq
      rw [heq, ht] at hheld
      cases hheld
    · cases k with
      | shared =>
        refine ⟨?_, rfl⟩
        cases hb : b.hold with
        | shared => rfl
        | exclusive =>
          rw [hb] at hheld
          exact absurd hheld (hk b.thread)
      | exclusive =>
        rw [hk b.thread] at hheld
        cases hheld
  refine ⟨?_, ?_, ?_, ?_, ?_⟩
  · have hserial : serial (.acquired t k :: h) = serial h := by
      simp only [serial, sessions, List.flatMap_append, List.flatMap_singleton, List.append_nil]
    rw [hserial]
    exact hi.performs
  · intro b hb hs c hc
    rcases List.mem_append.mp hb with hb | hb
    · exact hi.reads b hb hs c hc
    · obtain rfl := List.mem_singleton.mp hb
      cases hc
  · intro u k'
    simp only [sessions, List.mem_append, List.mem_singleton]
    obtain rfl | hut := eq_or_ne u t
    · rw [RwLock.set_self]
      constructor
      · intro hk'
        obtain rfl := Option.some.inj hk'
        exact ⟨_, .inr rfl, rfl, rfl, rfl⟩
      · rintro ⟨b, hb | rfl, hb', hthread, rfl⟩
        · exact absurd hthread (hopen b hb hb').1
        · rfl
    · rw [RwLock.set_of_ne hut, hi.holds]
      constructor
      · rintro ⟨b, hb, hrest⟩
        exact ⟨b, .inl hb, hrest⟩
      · rintro ⟨b, hb | rfl, hb', hthread, hhold⟩
        · exact ⟨b, hb, hb', hthread, hhold⟩
        · exact absurd hthread.symm hut
  · refine List.pairwise_append.mpr ⟨hi.apart, List.pairwise_singleton _ _, ?_⟩
    intro a ha b hb ha'
    obtain rfl := List.mem_singleton.mp hb
    obtain ⟨hne, hshared, hk⟩ := hopen a ha ha'
    exact ⟨hshared, hk, hne⟩
  · intro u
    simp only [sessions, callsOf, List.filter_append, List.flatMap_append, hi.calls u]
    obtain rfl | htu := eq_or_ne t u
    · rw [List.filter_cons_of_pos (by simp)]
      simp
    · rw [List.filter_cons_of_neg (by simpa using htu)]
      simp

/-- The open session of a thread is replaced by one of the same thread that is held the
same way. -/
theorem replace {pre post : List (Session τ ι ρ)} {b b' : Session τ ι ρ}
    {e : GuardEvent τ ι ρ} (hi : SessionInv R isRead s₀ h s l)
    (hsplit : sessions h = pre ++ b :: post) (hb : b.isOpen = true)
    (hsplit' : sessions (e :: h) = pre ++ b' :: post) (hthread : b'.thread = b.thread)
    (hhold : b'.hold = b.hold) (hcalls : ∃ new, b'.calls = b.calls ++ new ∧
      (∀ u, callsOf u (e :: h) = callsOf u h ++ if b.thread = u then new else []) ∧
      (b.hold = .shared → ∀ c ∈ new, isRead c.1) ∧ Performs R s new s')
    (hread : ∀ {s i r s'}, isRead i → R s i r s' → s' = s)
    (hholds : ∀ u k, l'.held u = some k ↔ ∃ a ∈ sessions (e :: h), a.isOpen = true ∧
      a.thread = u ∧ a.hold = k) : SessionInv R isRead s₀ (e :: h) s' l' := by
  obtain ⟨new, hnew, hcallsOf, hreads, hperf⟩ := hcalls
  have hpairwise := hi.apart
  rw [hsplit] at hpairwise
  obtain ⟨hpre, hbpost, hprepost⟩ := List.pairwise_append.mp hpairwise
  obtain ⟨hpost, hpostpost⟩ := List.pairwise_cons.mp hbpost
  -- what began after it is shared and has changed nothing
  have hpostReads : ∀ c ∈ post.flatMap Session.calls, isRead c.1 := by
    intro c hc
    obtain ⟨a, ha, hc⟩ := List.mem_flatMap.mp hc
    exact hi.reads a (hsplit ▸ List.mem_append_right _ (List.mem_cons_of_mem _ ha))
      (hpost a ha hb).2.1 c hc
  have hserial := hi.performs
  rw [serial, hsplit, List.flatMap_append, List.flatMap_cons, ← List.append_assoc] at hserial
  obtain ⟨s₁, hfirst, hlast⟩ := Performs.append_iff.mp hserial
  obtain rfl : s = s₁ := hlast.eq_of_reads hread hpostReads
  have hkeep : post ≠ [] → s' = s := by
    intro hne
    obtain ⟨a, post, rfl⟩ := List.exists_cons_of_ne_nil hne
    exact hperf.eq_of_reads hread (hreads (hpost a List.mem_cons_self hb).1)
  refine ⟨?_, ?_, hholds, ?_, ?_⟩
  · rw [serial, hsplit', List.flatMap_append, List.flatMap_cons, ← List.append_assoc, hnew,
      ← List.append_assoc (pre.flatMap Session.calls)]
    refine Performs.append_iff.mpr ⟨s', Performs.append_iff.mpr ⟨s, hfirst, hperf⟩, ?_⟩
    cases post with
    | nil => rfl
    | cons a post =>
      rw [hkeep (List.cons_ne_nil _ _)]
      exact hlast
  · intro a ha hs c hc
    rw [hsplit'] at ha
    have hold : ∀ a, a ∈ pre ++ b :: post → a.hold = .shared → ∀ c ∈ a.calls, isRead c.1 :=
      fun a ha => hi.reads a (hsplit ▸ ha)
    rcases List.mem_append.mp ha with ha | ha
    · exact hold a (List.mem_append_left _ ha) hs c hc
    · obtain rfl | ha := List.mem_cons.mp ha
      · rw [hnew] at hc
        rcases List.mem_append.mp hc with hc | hc
        · exact hold b (List.mem_append_right _ List.mem_cons_self) (hhold ▸ hs) c hc
        · exact hreads (hhold ▸ hs) c hc
      · exact hold a (List.mem_append_right _ (List.mem_cons_of_mem _ ha)) hs c hc
  · rw [hsplit']
    have hsame : ∀ {a : Session τ ι ρ}, a.Before b → a.Before b' := by
      intro a hab ha
      rw [hhold, hthread]
      exact hab ha
    refine List.pairwise_append.mpr ⟨hpre, List.pairwise_cons.mpr ⟨?_, hpostpost⟩, ?_⟩
    · intro a ha _
      rw [hhold, hthread]
      exact hpost a ha hb
    · intro a ha c hc
      obtain rfl | hc := List.mem_cons.mp hc
      · exact hsame (hprepost a ha b List.mem_cons_self)
      · exact hprepost a ha c (List.mem_cons_of_mem _ hc)
  · intro u
    have hold := hi.calls u
    rw [hsplit, List.filter_append, List.flatMap_append] at hold
    rw [hsplit', List.filter_append, List.flatMap_append, hcallsOf, ← hold]
    by_cases hu : b.thread = u
    · -- its session is the last one of the thread
      have hnone : (post.filter fun a => a.thread = u) = [] := by
        apply List.filter_eq_nil_iff.mpr
        intro a ha
        rw [decide_eq_true_iff, ← hu]
        exact Ne.symm (hpost a ha hb).2.2
      rw [List.filter_cons_of_pos (by simpa using hthread.trans hu),
        List.filter_cons_of_pos (by simpa using hu), hnone, if_pos hu,
        List.flatMap_singleton, List.flatMap_singleton, hnew, List.append_assoc]
    · rw [List.filter_cons_of_neg (by simpa [hthread] using hu),
        List.filter_cons_of_neg (by simpa using hu), if_neg hu, List.append_nil]

/-- An operation is part of the open session of its thread. -/
theorem perform {i : ι} {r : ρ} (hi : SessionInv R isRead s₀ h s l)
    (hread : ∀ {s i r s'}, isRead i → R s i r s' → s' = s) (ht : l.held t = some k)
    (hR : R s i r s') (hk : k = .shared → isRead i) :
    SessionInv R isRead s₀ (.did t i r :: h) s' l := by
  obtain ⟨pre, b, post, hsplit, hb, rfl, rfl, hother, -, -⟩ := hi.exists_open ht
  have hsplit' : sessions (.did b.thread i r :: h) =
      pre ++ b.record (i, r) :: post := by
    rw [sessions, hsplit, Session.map_atOpen hb rfl hother]
  refine hi.replace hsplit hb hsplit' rfl rfl ⟨[(i, r)], rfl, fun u => rfl, fun hs c hc => ?_,
    .singleton hR⟩ hread fun u k => ?_
  · obtain rfl := List.mem_singleton.mp hc
    exact hk hs
  · rw [hi.holds, hsplit, hsplit']
    simp only [List.mem_append, List.mem_cons, or_and_right, exists_or, exists_eq_left]
    exact Iff.rfl

/-- Giving the lock back ends the session. -/
theorem release (hi : SessionInv R isRead s₀ h s l)
    (hread : ∀ {s i r s'}, isRead i → R s i r s' → s' = s) (ht : l.held t = some k) :
    SessionInv R isRead s₀ (.released t :: h) s (l.set t none) := by
  obtain ⟨pre, b, post, hsplit, hb, rfl, rfl, hother, -, -⟩ := hi.exists_open ht
  have hsplit' : sessions (.released b.thread :: h) = pre ++ b.close :: post := by
    rw [sessions, hsplit, Session.map_atOpen hb rfl hother]
  refine hi.replace hsplit hb hsplit' rfl rfl
    ⟨[], (List.append_nil _).symm, ?_, fun _ c hc => (by cases hc), rfl⟩ hread ?_
  · intro u
    rw [ite_self, List.append_nil]
    rfl
  · intro u k
    rw [hsplit']
    obtain rfl | hut := eq_or_ne u b.thread
    · rw [RwLock.set_self]
      refine ⟨fun hk => (by cases hk), ?_⟩
      rintro ⟨a, ha, hopen, hthread, -⟩
      rcases List.mem_append.mp ha with ha | ha
      · exact absurd ⟨hopen, hthread⟩ (hother a (.inl ha))
      · obtain rfl | ha := List.mem_cons.mp ha
        · cases hopen
        · exact absurd ⟨hopen, hthread⟩ (hother a (.inr ha))
    · rw [RwLock.set_of_ne hut, hi.holds, hsplit]
      simp [or_and_right, exists_or, Session.close, hut.symm]

/-- **Any step keeps the invariant**, be it of the lock or of the object. -/
theorem step {e : GuardEvent τ ι ρ} (hi : SessionInv R isRead s₀ h s l)
    (hread : ∀ {s i r s'}, isRead i → R s i r s' → s' = s)
    (hs : GuardStep R isRead s l e s' l') : SessionInv R isRead s₀ (e :: h) s' l' := by
  cases hs with
  | acquired ht hk => exact hi.acquire ht hk
  | refused => exact ⟨hi.performs, hi.reads, hi.holds, hi.apart, hi.calls⟩
  | did ht hR hk => exact hi.perform hread ht hR hk
  | released ht => exact hi.release hread ht

end SessionInv

end DualStm
