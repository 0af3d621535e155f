import DualStm.Handover
import DualStm.Library.Mutex

/-!
# Nobody sleeps for nothing

In `procon4.c` a thread looks at the counters, and does its item, under the lock; one that may
not go on sleeps. The other one moves its counter under the lock, too, but it calls
`lock_wake_up` after it has given the lock back. In between a thread can be asleep that might
go on: then the call is still to come.
-/

namespace DualStm

namespace Procon4

variable {V : Type} {runs len n : ℕ} {s s' : State V} {side e : Side} {v : V} {h : List Side}
  {a : ProconAction V}

namespace Pc

/-- What a thread there is doing with its item. -/
def work? : Pc → Option Work
  | .item w => some w
  | _ => none

/-- A thread that is there has the lock. -/
def holds : Pc → Bool
  | .test | .wait | .item _ | .release => true
  | _ => false

/-- A thread there has counted its item, and not yet woken up the other one. -/
def owes : Pc → Bool
  | .release | .wakeUp => true
  | _ => false

/-- How much of the round a thread there has before it. -/
def left (len : ℕ) : Pc → ℕ
  | .acquire | .woken => 2 * len + 5
  | .test => 2 * len + 4
  | .item w => w.left len + 2
  | .release | .wait => 2
  | .wakeUp | .asleep => 1
  | .exited => 0

theorem wake_holds (p : Pc) : p.wake.holds = p.holds := by
  cases p <;> rfl

theorem wake_work (p : Pc) : p.wake.work? = p.work? := by
  cases p <;> rfl

theorem wake_owes (p : Pc) : p.wake.owes = p.owes := by
  cases p <;> rfl

theorem wake_left (len : ℕ) (p : Pc) : p.wake.left len ≤ p.left len + (2 * len + 4) := by
  cases p with
  | asleep =>
    simp only [wake, left]
    omega
  | _ => exact Nat.le_add_right _ _

theorem wake_exited {p : Pc} : p.wake = .exited ↔ p = .exited := by
  cases p <;> simp [wake]

theorem wake_ne_asleep (p : Pc) : p.wake ≠ .asleep := by
  cases p <;> simp [wake]

theorem wake_wait {p : Pc} : p.wake = .wait ↔ p = .wait := by
  cases p <;> simp [wake]

end Pc

/-- What is needed of the head of the loop, in short. -/
theorem next_cases (len : ℕ) {r : ℕ} (hr : r ≤ runs) :
    (next runs r = .exited ↔ r = runs) ∧ (next runs r).work? = none ∧
      (next runs r).holds = false ∧ (next runs r).owes = false ∧
      (next runs r).left len ≤ 2 * len + 5 ∧ next runs r ≠ .wait ∧ next runs r ≠ .asleep := by
  rw [next]
  split
  · refine ⟨?_, rfl, rfl, rfl, le_rfl, by simp, by simp⟩
    simp
    omega
  · refine ⟨?_, rfl, rfl, rfl, Nat.zero_le _, by simp, by simp⟩
    simp
    omega

/-- The invariant of `procon4.c`: the lock, the ring, and who is owed a call. -/
structure Inv (runs len n : ℕ) (s : State V) : Prop where
  /-- the items -/
  sharing : Sharing len n s.ring (Pc.work? ∘ s.pc)
  /-- a thread counts its items -/
  counter : ∀ u, u.counter s.ring = s.r u + (if (s.pc u).owes = true then 1 else 0)
  /-- the lock is with the thread that has it -/
  lock : ∀ u, s.lock = some u ↔ (s.pc u).holds = true
  /-- no item too many -/
  le : ∀ u, s.r u ≤ runs
  /-- a thread ends when there are no more -/
  exited : ∀ u, s.pc u = .exited ↔ s.r u = runs
  /-- a thread that is about to sleep may not go on -/
  wait : ∀ u, s.pc u = .wait → ¬ u.MayGoOn n s.ring
  /-- a thread that sleeps may not go on, or it will be woken up -/
  asleep : ∀ u, s.pc u = .asleep → u.MayGoOn n s.ring → (s.pc u.other).owes = true

/-- How many steps a thread is from its end, with those that it makes the other one do. -/
def State.threadLeft (runs len : ℕ) (s : State V) (u : Side) : ℕ :=
  (runs - s.r u) * (4 * len + 9) + (s.pc u).left len

/-- The steps that are left to both threads. -/
def State.left (runs len : ℕ) (s : State V) : ℕ := ∑ u, s.threadLeft runs len u

theorem stride_eq : stride runs len n s a = thread runs len n s a.side a.rand := by
  rw [stride]
  cases a.side <;> rfl

theorem Inv.create : Inv runs len n (create runs v) := by
  obtain ⟨hexited, hwork, hholds, howes, -, hwait, hasleep⟩ :=
    next_cases len (Nat.zero_le runs)
  have hitem : Pc.work? ∘ (Procon4.create runs v).pc = fun _ => none := funext fun _ => hwork
  refine ⟨?_, ?_, ?_, fun _ => Nat.zero_le _, fun _ => hexited, fun _ hp => absurd hp hwait,
    fun _ hp => absurd hp hasleep⟩
  · rw [hitem]
    refine ⟨RingInv.create, ?_, ?_⟩
    · intro u w hw
      cases hw
    · intro u w hw
      cases hw
  · intro u
    simp only [Procon4.create, howes]
    cases u <;> rfl
  · intro u
    simp [Procon4.create, hholds]

/-- A thread that has not ended has an item before it. -/
theorem Inv.lt (hi : Inv runs len n s) (side : Side) (hpc : s.pc side ≠ .exited) :
    s.r side < runs :=
  lt_of_le_of_ne (hi.le side) fun heq => hpc ((hi.exited side).mpr heq)

/-- **A thread goes to another access** and leaves its loop variable alone. It may take the
lock or give it back; it may change the ring while it has the lock, and where the other one
may go on by that, it has still to wake it up. -/
theorem Inv.goTo (hi : Inv runs len n s) {b : Ring V} {l : Option Side} {p q : Pc}
    {o : Option (LockEvent Side)} (hpc : s.pc side = q) (hne : q ≠ .exited) (hp : p ≠ .exited)
    (hsharing : Sharing len n b (Function.update (Pc.work? ∘ s.pc) side p.work?))
    (hcounter : side.counter b = s.r side + (if p.owes = true then 1 else 0))
    (hother : side.other.counter b = side.other.counter s.ring)
    (hlock : LockMove side s.lock q.holds l p.holds o)
    (hrel : o = some (.released side) → q.holds = true)
    (hret : o = some (.returned side) → q.holds = false)
    (hring : b = s.ring ∨ q.holds = true)
    (howes : q.owes = true → p.owes = true)
    (hmay : side.other.MayGoOn n b → side.other.MayGoOn n s.ring ∨ p.owes = true)
    (hwait : p = .wait → ¬ side.MayGoOn n b)
    (hasleep : p = .asleep → ¬ side.MayGoOn n b) :
    Inv runs len n ({ s with ring := b, lock := l }.goTo side p) := by
  subst hpc
  have hlt := hi.lt side hne
  refine ⟨?_, ?_, ?_, hi.le, ?_, ?_, ?_⟩
  · show Sharing len n b (Pc.work? ∘ Function.update s.pc side p)
    rw [Function.comp_update]
    exact hsharing
  · intro u
    obtain rfl | hne' := eq_or_ne u side
    · simp only [State.goTo, Function.update_self]
      exact hcounter
    · simp only [State.goTo, Function.update_of_ne hne']
      obtain rfl := Side.eq_other hne'
      exact hother.trans (hi.counter _)
  · intro u
    have hself : (Function.update s.pc side p side).holds = p.holds := by
      rw [Function.update_self]
    rw [← hself] at hlock
    exact hlock.owner_iff hi.lock hrel hret
      (fun u hu => congrArg Pc.holds (Function.update_of_ne hu p s.pc)) u
  · intro u
    obtain rfl | hne' := eq_or_ne u side
    · simp [State.goTo, hp, hlt.ne]
    · simp only [State.goTo, Function.update_of_ne hne']
      exact hi.exited u
  · intro u hu
    obtain rfl | hne' := eq_or_ne u side
    · simp only [State.goTo, Function.update_self] at hu
      exact hwait hu
    · simp only [State.goTo, Function.update_of_ne hne'] at hu
      -- the other one has the lock
      obtain rfl | hholds := hring
      · exact hi.wait u hu
      · have hl := (hi.lock u).mpr (by rw [hu]; rfl)
        rw [(hi.lock side).mpr hholds] at hl
        exact absurd (Option.some.inj hl).symm hne'
  · intro u hu hmayu
    obtain rfl | hne' := eq_or_ne u side
    · simp only [State.goTo, Function.update_self] at hu
      exact absurd hmayu (hasleep hu)
    · simp only [State.goTo, Function.update_of_ne hne'] at hu
      obtain rfl := Side.eq_other hne'
      have hback : side.other.other = side := by cases side <;> rfl
      simp only [State.goTo, hback, Function.update_self]
      refine (hmay hmayu).elim (fun hold => howes ?_) id
      have hwas := hi.asleep _ hu hold
      rw [hback] at hwas
      exact hwas

/-- **A thread goes on without its item.** -/
theorem Inv.pass (hi : Inv runs len n s) {l : Option Side} {p q : Pc}
    {o : Option (LockEvent Side)} (hpc : s.pc side = q) (hne : q ≠ .exited) (hp : p ≠ .exited)
    (hq : q.work? = none) (hp' : p.work? = none) (howes : p.owes = q.owes)
    (hlock : LockMove side s.lock q.holds l p.holds o)
    (hrel : o = some (.released side) → q.holds = true)
    (hret : o = some (.returned side) → q.holds = false)
    (hmay : p = .wait ∨ p = .asleep → ¬ side.MayGoOn n s.ring) :
    Inv runs len n ({ s with lock := l }.goTo side p) := by
  have hsharing : Sharing len n s.ring (Function.update (Pc.work? ∘ s.pc) side p.work?) := by
    have hnone : (Pc.work? ∘ s.pc) side = none := (congrArg Pc.work? hpc).trans hq
    rw [hp', ← hnone, Function.update_eq_self]
    exact hi.sharing
  have hcounter : side.counter s.ring = s.r side + (if p.owes = true then 1 else 0) := by
    rw [howes, ← hpc]
    exact hi.counter side
  exact hi.goTo hpc hne hp hsharing hcounter rfl hlock hrel hret (.inl rfl)
    (fun h => howes.trans h) .inl (fun h => hmay (.inl h)) fun h => hmay (.inr h)

/-- A thread gives the lock back, or takes it, and so on: there is less to do when there is
less to do for it. -/
theorem left_goTo {b : Ring V} {l : Option Side} {p q : Pc} (hpc : s.pc side = q)
    (hlt : p.left len < q.left len) :
    ({ s with ring := b, lock := l }.goTo side p).left runs len < s.left runs len := by
  subst hpc
  refine sum_lt_of_member (t := side) ?_ ?_
  · simp only [State.threadLeft, State.goTo, Function.update_self]
    exact Nat.add_lt_add_left hlt _
  · intro u hu
    simp only [State.threadLeft, State.goTo, Function.update_of_ne hu]
    exact le_rfl

/-- **A thread calls `lock_wake_up`**, and is done with its round. -/
theorem Inv.wakeUp (hi : Inv runs len n s) (hpc : s.pc side = .wakeUp) :
    Inv runs len n { s with
      r := Function.update s.r side (s.r side + 1)
      pc := Function.update (fun u => (s.pc u).wake) side (next runs (s.r side + 1)) } := by
  have hlt : s.r side + 1 ≤ runs := hi.lt side (by simp [hpc])
  obtain ⟨hexited, hwork, hholds, howes, -, hwait, hasleep⟩ := next_cases len hlt
  refine ⟨?_, ?_, ?_, ?_, ?_, ?_, ?_⟩
  · have hsame : Pc.work? ∘
        Function.update (fun u => (s.pc u).wake) side (next runs (s.r side + 1)) =
        Pc.work? ∘ s.pc := by
      funext u
      obtain rfl | hne := eq_or_ne u side
      · rw [Function.comp_apply, Function.update_self, hwork, Function.comp_apply, hpc]
        rfl
      · simp only [Function.comp_apply, Function.update_of_ne hne, Pc.wake_work]
    rw [hsame]
    exact hi.sharing
  · intro u
    have hcounter := hi.counter u
    obtain rfl | hne := eq_or_ne u side
    · simp only [Function.update_self, howes]
      rw [hpc] at hcounter
      exact hcounter
    · simp only [Function.update_of_ne hne, Pc.wake_owes]
      exact hcounter
  · intro u
    have hlock := hi.lock u
    obtain rfl | hne := eq_or_ne u side
    · simp only [Function.update_self, hholds]
      rw [hpc] at hlock
      exact hlock
    · simp only [Function.update_of_ne hne, Pc.wake_holds]
      exact hlock
  · intro u
    obtain rfl | hne := eq_or_ne u side
    · simp only [Function.update_self]
      exact hlt
    · simp only [Function.update_of_ne hne]
      exact hi.le u
  · intro u
    obtain rfl | hne := eq_or_ne u side
    · simp only [Function.update_self]
      exact hexited
    · simp only [Function.update_of_ne hne, Pc.wake_exited]
      exact hi.exited u
  · intro u hu
    obtain rfl | hne := eq_or_ne u side
    · simp only [Function.update_self] at hu
      exact absurd hu hwait
    · simp only [Function.update_of_ne hne, Pc.wake_wait] at hu
      exact hi.wait u hu
  · intro u hu
    -- nobody is asleep any more
    obtain rfl | hne := eq_or_ne u side
    · simp only [Function.update_self] at hu
      exact absurd hu hasleep
    · simp only [Function.update_of_ne hne] at hu
      exact absurd hu (Pc.wake_ne_asleep _)

theorem sum_sides (f : Side → ℕ) (side : Side) : ∑ u, f u = f side + f side.other := by
  have hsum : ∑ u, f u = f .producer + f .consumer := Finset.sum_pair (by simp)
  cases side with
  | producer => exact hsum
  | consumer => exact hsum.trans (Nat.add_comm _ _)

theorem left_wakeUp (hlt : s.r side + 1 ≤ runs) (hpc : s.pc side = .wakeUp) :
    State.left runs len { s with
      r := Function.update s.r side (s.r side + 1)
      pc := Function.update (fun u => (s.pc u).wake) side (next runs (s.r side + 1)) } <
      s.left runs len := by
  have hother : side.other ≠ side := by cases side <;> simp [Side.other]
  obtain ⟨-, -, -, -, hnext, -, -⟩ := next_cases len hlt
  have hwoken := Pc.wake_left len (s.pc side.other)
  have hrounds : (runs - (s.r side + 1)) * (4 * len + 9) + (4 * len + 9) =
      (runs - s.r side) * (4 * len + 9) := by
    rw [← Nat.succ_mul]
    congr 1
    omega
  have hlast : Pc.wakeUp.left len = 1 := rfl
  simp only [State.left, sum_sides _ side, State.threadLeft, Function.update_self,
    Function.update_of_ne hother, hpc]
  omega

/-- A thread at the lock gets it, if it is free. -/
theorem Inv.thread_lock {pc : Pc} (hi : Inv runs len n s) (hpc : s.pc side = pc)
    (hat : pc = .acquire ∨ pc = .woken)
    (hs : Procon4.thread runs len n s side v = some (s', e)) :
    Inv runs len n s' ∧ s'.left runs len < s.left runs len := by
  unfold Procon4.thread at hs
  rw [hpc] at hs
  rcases hat with rfl | rfl
  all_goals
    by_cases hfree : s.lock = none
    · simp only [if_pos hfree] at hs
      obtain ⟨rfl, -⟩ := Prod.mk.inj (Option.some.inj hs)
      exact ⟨hi.pass hpc (by simp) (by simp) rfl rfl rfl (.acquire hfree) (by simp) (by simp)
        (by simp), left_goTo hpc (Nat.lt_succ_self _)⟩
    · simp only [if_neg hfree] at hs
      cases hs

/-- A thread tests whether it may go on: then it begins with its item, or else it waits. -/
theorem Inv.thread_test (hi : Inv runs len n s) (hpc : s.pc side = .test)
    (hs : Procon4.thread runs len n s side v = some (s', e)) :
    Inv runs len n s' ∧ s'.left runs len < s.left runs len := by
  unfold Procon4.thread at hs
  have hcounter := hi.counter side
  rw [hpc] at hs hcounter
  have hiff := Side.mayGoOn_iff (n := n) hcounter
  by_cases hmay : side.mayGoOn n s.ring (s.r side) = true
  · simp only [if_pos hmay] at hs
    obtain ⟨rfl, -⟩ := Prod.mk.inj (Option.some.inj hs)
    have hnone : (Pc.work? ∘ s.pc) side = none := congrArg Pc.work? hpc
    have hfirst := Side.first_left len side
    refine ⟨hi.goTo hpc (by simp) (by simp) (hi.sharing.start hnone (hiff.mp hmay)) hcounter rfl
      .idle (by simp) (by simp) (.inl rfl) (by simp [Pc.owes]) .inl (by simp) (by simp),
      left_goTo hpc ?_⟩
    show (side.first len).left len + 2 < 2 * len + 4
    omega
  · simp only [if_neg hmay] at hs
    obtain ⟨rfl, -⟩ := Prod.mk.inj (Option.some.inj hs)
    refine ⟨hi.pass hpc (by simp) (by simp) rfl rfl rfl .idle (by simp) (by simp)
      fun _ h => hmay (hiff.mpr h), left_goTo hpc ?_⟩
    show 2 < 2 * len + 4
    omega

/-- A thread goes on with its item, and when it is done with it, it has to release the lock. -/
theorem Inv.thread_item {w : Work} (hi : Inv runs len n s) (hpc : s.pc side = .item w)
    (hs : Procon4.thread runs len n s side v = some (s', e)) :
    Inv runs len n s' ∧ s'.left runs len < s.left runs len := by
  unfold Procon4.thread at hs
  have hcounter := hi.counter side
  rw [hpc] at hs hcounter
  obtain ⟨⟨b, w'⟩, hwork, heq⟩ := Option.map_eq_some_iff.mp hs
  have hw : (Pc.work? ∘ s.pc) side = some w := congrArg Pc.work? hpc
  obtain ⟨hsharing, hother, hmine, hleft⟩ := hi.sharing.work hw hcounter hwork
  cases w' with
  | some w' =>
    obtain ⟨rfl, -⟩ := Prod.mk.inj heq
    have hsame : ∀ u : Side, u.counter b = u.counter s.ring := by
      intro u
      obtain rfl | hu := eq_or_ne u side
      · exact hmine
      · obtain rfl := Side.eq_other hu
        exact hother
    exact ⟨hi.goTo hpc (by simp) (by simp) hsharing (hmine.trans hcounter) hother .idle
      (by simp) (by simp) (.inr rfl) (by simp [Pc.owes])
      (fun h => .inl ((Side.mayGoOn_congr hsame).mp h)) (by simp) (by simp),
      left_goTo hpc (Nat.add_lt_add_right (hleft w' rfl) 2)⟩
  | none =>
    obtain ⟨rfl, -⟩ := Prod.mk.inj heq
    refine ⟨hi.goTo hpc (by simp) (by simp) hsharing
      (hmine.trans (congrArg (· + 1) hcounter)) hother .idle
      (by simp) (by simp) (.inr rfl) (fun _ => rfl) (fun _ => .inr rfl) (by simp) (by simp),
      left_goTo hpc ?_⟩
    show 2 < w.left len + 2
    cases w with
    | count => exact Nat.lt_succ_self 2
    | _ => exact Nat.lt_add_of_pos_left (Nat.succ_pos _)

/-- **A step of a thread** keeps the invariant, and less is left to do. -/
theorem Inv.thread (hi : Inv runs len n s)
    (hs : Procon4.thread runs len n s side v = some (s', e)) :
    Inv runs len n s' ∧ s'.left runs len < s.left runs len := by
  cases hpc : s.pc side with
  | acquire => exact hi.thread_lock hpc (.inl rfl) hs
  | woken => exact hi.thread_lock hpc (.inr rfl) hs
  | test => exact hi.thread_test hpc hs
  | wait =>
    rw [Procon4.thread, hpc] at hs
    obtain ⟨rfl, -⟩ := Prod.mk.inj (Option.some.inj hs)
    exact ⟨hi.pass hpc (by simp) (by simp) rfl rfl rfl .release (fun _ => rfl) (by simp)
      fun _ => hi.wait side hpc, left_goTo hpc (Nat.lt_succ_self 1)⟩
  | asleep =>
    rw [Procon4.thread, hpc] at hs
    cases hs
  | item w => exact hi.thread_item hpc hs
  | release =>
    rw [Procon4.thread, hpc] at hs
    obtain ⟨rfl, -⟩ := Prod.mk.inj (Option.some.inj hs)
    exact ⟨hi.pass hpc (by simp) (by simp) rfl rfl rfl .release (fun _ => rfl) (by simp)
      (by simp), left_goTo hpc (Nat.lt_succ_self 1)⟩
  | wakeUp =>
    rw [Procon4.thread, hpc] at hs
    obtain ⟨rfl, -⟩ := Prod.mk.inj (Option.some.inj hs)
    exact ⟨hi.wakeUp hpc, left_wakeUp (hi.lt side (by simp [hpc])) hpc⟩
  | exited =>
    rw [Procon4.thread, hpc] at hs
    cases hs

/-- What is to be done gets less with every step that a thread does of itself. -/
theorem lowers_stride : Lowers (stride (V := V) runs len n) (Inv runs len n)
    (State.left runs len) := by
  intro s a s' e hi hs
  rw [stride_eq] at hs
  exact hi.thread hs

theorem Inv.step {a : Action V} (hi : Inv runs len n s)
    (hs : Procon4.step runs len n s a = some (s', e)) : Inv runs len n s' := by
  cases a with
  | thread a => exact (lowers_stride _ _ _ _ hi hs).1
  | spurious side =>
    simp only [Procon4.step] at hs
    by_cases hpc : s.pc side = .asleep
    · rw [if_pos hpc] at hs
      obtain ⟨rfl, -⟩ := Prod.mk.inj (Option.some.inj hs)
      exact hi.pass hpc (by simp) (by simp) rfl rfl rfl .idle (by simp) (by simp) (by simp)
    · rw [if_neg hpc] at hs
      cases hs

theorem Inv.run (hr : Run (Procon4.step runs len n) anyStep (Procon4.create runs v) h s) :
    Inv runs len n s := by
  induction hr with
  | start => exact .create
  | next _ hs _ ih => exact ih.step hs

/-- A thread that has the lock has a step, and so has one that owes a call. -/
theorem Inv.not_busy (hi : Inv runs len n s) (hstep : Procon4.thread runs len n s side v = none) :
    (s.pc side).holds = false ∧ s.pc side ≠ .wakeUp := by
  unfold Procon4.thread at hstep
  cases hpc : s.pc side with
  | test =>
    rw [hpc] at hstep
    by_cases hmay : side.mayGoOn n s.ring (s.r side) = true
    · simp only [if_pos hmay] at hstep
      cases hstep
    · simp only [if_neg hmay] at hstep
      cases hstep
  | wait =>
    rw [hpc] at hstep
    cases hstep
  | item w =>
    have hw : (Pc.work? ∘ s.pc) side = some w := congrArg Pc.work? hpc
    obtain ⟨p, hp⟩ := hi.sharing.exists_work hw (s.r side) v
    rw [hpc] at hstep
    simp only [hp, Option.map_some] at hstep
    cases hstep
  | release =>
    rw [hpc] at hstep
    cases hstep
  | wakeUp =>
    rw [hpc] at hstep
    cases hstep
  | _ => simp [Pc.holds]

/-- While the lock is free, a thread without a step is asleep, or at its end. -/
theorem asleep_of_stuck (hfree : s.lock = none)
    (hstep : Procon4.thread runs len n s side v = none) (hholds : (s.pc side).holds = false)
    (hwakeUp : s.pc side ≠ .wakeUp) (hne : s.pc side ≠ .exited) : s.pc side = .asleep := by
  unfold Procon4.thread at hstep
  cases hpc : s.pc side with
  | acquire =>
    rw [hpc] at hstep
    simp only [if_pos hfree] at hstep
    cases hstep
  | woken =>
    rw [hpc] at hstep
    simp only [if_pos hfree] at hstep
    cases hstep
  | asleep => rfl
  | wakeUp => exact absurd hpc hwakeUp
  | exited => exact absurd hpc hne
  | _ =>
    rw [hpc] at hholds
    cases hholds

/-- Somebody can go on as long as nobody sleeps who has to wait. -/
theorem Inv.of_stuck (hi : Inv runs len n s) (hn : 0 < n) (hs : Stuck (stride runs len n) s)
    (v : V) : ∀ side, s.pc side = .exited := by
  have hnone : ∀ side, Procon4.thread runs len n s side v = none := by
    intro side
    have hstuck := hs ⟨side, v⟩
    rw [stride_eq] at hstuck
    exact hstuck
  have hbusy : ∀ side, (s.pc side).holds = false ∧ s.pc side ≠ .wakeUp :=
    fun side => hi.not_busy (hnone side)
  have hfree : s.lock = none := by
    cases hl : s.lock with
    | none => rfl
    | some u =>
      have hholds := (hi.lock u).mp hl
      rw [(hbusy u).1] at hholds
      cases hholds
  have howes : ∀ side, (s.pc side).owes = false := by
    intro side
    obtain ⟨hholds, hne⟩ := hbusy side
    cases hpc : s.pc side with
    | release =>
      rw [hpc] at hholds
      cases hholds
    | wakeUp => exact absurd hpc hne
    | _ => rfl
  -- so whoever is left is asleep
  have hasleep : ∀ side, s.pc side ≠ .exited → s.pc side = .asleep := fun side hne =>
    asleep_of_stuck hfree (hnone side) (hbusy side).1 (hbusy side).2 hne
  have hcounter : ∀ side : Side, side.counter s.ring = s.r side := by
    intro side
    have hc := hi.counter side
    rw [howes side] at hc
    exact hc
  refine Side.all_ended (b := s.ring) hn ?_ ?_
  · intro side hne hmay
    have hwoken := hi.asleep side (hasleep side hne) hmay
    rw [howes] at hwoken
    cases hwoken
  · intro side hne hother
    rw [hcounter, hcounter, (hi.exited side.other).mp hother]
    exact hi.lt side hne

end Procon4

/-- **`procon4.c` is correct.** In every run, whatever has been consumed is what was produced;
at most one thread has the lock; a thread that is asleep although it may go on is about to be
woken up; the threads can go on of themselves until both have ended, and then `main` finds
that all is correct. -/
theorem procon4_correct {V : Type} [DecidableEq V] {runs len n : ℕ} (hn : 0 < n) {v : V}
    {h : List Side} {s : Procon4.State V}
    (hr : Run (Procon4.step runs len n) anyStep (Procon4.create runs v) h s) :
    (∀ k i, k < s.r .consumer → i < len → s.ring.consumed k i = s.ring.produced k i) ∧
      ((s.pc .producer).holds = true → (s.pc .consumer).holds = false) ∧
      (∀ side, s.pc side = .asleep → side.mayGoOn n s.ring (s.r side) = true →
        s.pc side.other = .release ∨ s.pc side.other = .wakeUp) ∧
      (∃ g s', Run (Procon4.stride runs len n) anyStep s g s' ∧
        Stuck (Procon4.stride runs len n) s') ∧
      (Stuck (Procon4.stride runs len n) s →
        (∀ side, s.pc side = .exited) ∧ looksCorrect runs len s.ring = true) := by
  have hi := Procon4.Inv.run hr
  have htaken : ∀ k i, k < s.r .consumer → i < len →
      s.ring.consumed k i = s.ring.produced k i := by
    intro k i hk hlen
    have hcounter := hi.counter .consumer
    exact hi.sharing.ring.taken k i (hk.trans_le (Nat.le.intro hcounter.symm)) hlen
  refine ⟨htaken, ?_, ?_, Procon4.lowers_stride.exists_stuck hi, ?_⟩
  · intro hp
    rw [← Bool.not_eq_true]
    intro hc
    have hl := (hi.lock .producer).mpr hp
    rw [(hi.lock .consumer).mpr hc] at hl
    cases hl
  · intro side hasleep hmay
    have hcounter := hi.counter side
    rw [hasleep] at hcounter
    have howes := hi.asleep side hasleep ((Side.mayGoOn_iff hcounter).mp hmay)
    cases hpc : s.pc side.other with
    | release => exact .inl rfl
    | wakeUp => exact .inr rfl
    | _ =>
      rw [hpc] at howes
      cases howes
  · intro hstuck
    have hexited := hi.of_stuck hn hstuck v
    refine ⟨hexited, looksCorrect_of_taken fun k i hk hlen => htaken k i ?_ hlen⟩
    rw [(hi.exited .consumer).mp (hexited .consumer)]
    exact hk

/-- The consumer is early and falls asleep, wakes up for no reason and falls asleep again, and
the producer fills the slot and gives the lock back. -/
def earlyConsumer : List (Procon4.Action ℕ) :=
  let consumer : Procon4.Action ℕ := .thread ⟨.consumer, 0⟩
  let producer : Procon4.Action ℕ := .thread ⟨.producer, 7⟩
  [consumer, consumer, consumer, .spurious .consumer, consumer, consumer, consumer,
    producer, producer, producer, producer, producer, producer]

/-- The consumer is asleep and may go on; the call that wakes it up is the producer's next
step, and the threads can end. -/
theorem procon4_correct_earlyConsumer :
    ∃ h s, Run (Procon4.step 2 1 1) anyStep (Procon4.create 2 0) h s ∧
      (s.pc .consumer, Side.consumer.mayGoOn 1 s.ring (s.r .consumer)) = (.asleep, true) ∧
      (s.pc .producer = .release ∨ s.pc .producer = .wakeUp) ∧
      ∃ g s', Run (Procon4.stride 2 1 1) anyStep s g s' ∧ Stuck (Procon4.stride 2 1 1) s' := by
  obtain ⟨s, hr, hx⟩ : ∃ s, Run (Procon4.step 2 1 1) anyStep (Procon4.create 2 0)
      (List.replicate 6 .producer ++ List.replicate 7 .consumer) s ∧
      (s.pc .consumer, Side.consumer.mayGoOn 1 s.ring (s.r .consumer)) = (.asleep, true) :=
    Run.of_execUnder earlyConsumer .start (by decide +kernel)
  obtain ⟨hasleep, hmay⟩ := Prod.mk.inj hx
  obtain ⟨-, -, hwoken, hends, -⟩ := procon4_correct Nat.one_pos hr
  exact ⟨_, s, hr, hx, hwoken .consumer hasleep hmay, hends⟩

end DualStm
