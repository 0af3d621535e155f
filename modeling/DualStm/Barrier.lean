import DualStm.Library.Count
import DualStm.Library.Run

/-!
# The spin barrier

`Barrier` of `common.hpp`, which the workers of `WorkloadBank::check` meet at. `sync` is
taken apart into its atomic accesses, each of them one step of the thread that makes it,
in any order that the accesses of all threads may take.

One counter goes up while the threads enter and down while they leave, and one flag opens
both halves. `BarrierInv` says for either value of the flag where a thread may be and how
often it has returned: a thread that the last round has let go but that has not looked yet
is one return behind the others.
-/

namespace DualStm

/-- `Barrier::Counter`, a `size_t`. -/
abbrev Counter := UInt64

/-- `Barrier::Mode`, what the threads in the barrier wait for. -/
inductive Mode where
  /-- `Mode::enter` -/
  | enter
  /-- `Mode::leave` -/
  | leave
  deriving DecidableEq

/-- The atomic access of `sync` that a thread makes next. -/
inductive SyncPc where
  /-- none: it is between two calls -/
  | outside
  /-- the `fetch_add` -/
  | fetchAdd
  /-- the store of `Mode::leave` -/
  | storeLeave
  /-- a load of the loop that waits for `Mode::leave` -/
  | waitLeave
  /-- the `fetch_sub` -/
  | fetchSub
  /-- the store of `Mode::enter` -/
  | storeEnter
  /-- a load of the loop that waits for `Mode::enter` -/
  | waitEnter
  deriving DecidableEq

/-- What a thread did in a step, as far as its caller sees it. -/
inductive BarrierEvent (τ : Type) where
  /-- a thread called `sync` -/
  | started (t : τ)
  /-- a thread returned from `sync` -/
  | returned (t : τ)
  /-- nothing to be seen -/
  | silent
  deriving DecidableEq

/-- `Barrier`, and the threads that use it. -/
structure Barrier (τ : Type) where
  /-- `cardinal` -/
  cardinal : Counter
  /-- `step` -/
  step : Counter
  /-- `mode` -/
  mode : Mode
  /-- where each thread is -/
  pc : τ → SyncPc

namespace Barrier

variable {τ : Type} [DecidableEq τ]

/-- A new barrier, with the counter at zero, in mode `enter` and with nobody in it. -/
def create (cardinal : Counter) : Barrier τ :=
  { cardinal := cardinal, step := 0, mode := .enter, pc := fun _ => .outside }

/-- Thread `t` stands before another access, and nothing else is changed. -/
def moveTo (b : Barrier τ) (t : τ) (p : SyncPc) : Barrier τ :=
  { b with pc := Function.update b.pc t p }

/-- The next access of a thread in `sync`, or its next call of it. -/
def sync (b : Barrier τ) (t : τ) : Barrier τ × BarrierEvent τ :=
  match b.pc t with
  | .outside => (b.moveTo t .fetchAdd, .started t)
  | .fetchAdd =>
    ({ b with step := b.step + 1 }.moveTo t
      (if b.step + 1 = b.cardinal then .storeLeave else .waitLeave), .silent)
  | .storeLeave => ({ b with mode := .leave }.moveTo t .fetchSub, .silent)
  | .waitLeave => if b.mode ≠ .leave then (b, .silent) else (b.moveTo t .fetchSub, .silent)
  | .fetchSub =>
    ({ b with step := b.step - 1 }.moveTo t
      (if b.step - 1 = 0 then .storeEnter else .waitEnter), .silent)
  | .storeEnter => ({ b with mode := .enter }.moveTo t .outside, .returned t)
  | .waitEnter => if b.mode ≠ .enter then (b, .silent) else (b.moveTo t .outside, .returned t)

/-- Any thread may be the next to move. -/
def next (b : Barrier τ) (t : τ) : Option (Barrier τ × BarrierEvent τ) := some (b.sync t)

/-- A thread is in one of the two loops and the mode does not let it out. -/
def Stuck (b : Barrier τ) (t : τ) : Prop :=
  b.pc t = .waitLeave ∧ b.mode ≠ .leave ∨ b.pc t = .waitEnter ∧ b.mode ≠ .enter

end Barrier

/-! ## The invariant

The counter is the number of threads that stand between their two accesses to it, and the
thread that brings it to its end stores the mode. Where a thread stands says how often it and
all others have come and gone. -/

/-- Between the `fetch_add` and the `fetch_sub`. -/
def SyncPc.isCounted : SyncPc → Bool
  | .storeLeave | .waitLeave | .fetchSub => true
  | _ => false

/-- The thread is about to store `Mode::leave`, having made the counter full. -/
def SyncPc.opensLeave : SyncPc → Bool
  | .storeLeave => true
  | _ => false

/-- The thread is about to store `Mode::enter`, having made the counter empty. -/
def SyncPc.opensEnter : SyncPc → Bool
  | .storeEnter => true
  | _ => false

/-- Where a thread that has returned `r` times may be while `k` rounds are over. -/
def InRound (k r : ℕ) : Mode → SyncPc → Prop
  | .enter, .outside | .enter, .fetchAdd | .enter, .storeLeave | .enter, .waitLeave => r = k
  -- the round is over, and it has not seen that yet
  | .enter, .waitEnter => r + 1 = k
  | .leave, .waitLeave | .leave, .fetchSub | .leave, .storeEnter | .leave, .waitEnter => r = k
  | _, _ => False

section

variable {τ : Type} [DecidableEq τ]

/-- How often a thread has called `sync`. -/
def starts (t : τ) (h : List (BarrierEvent τ)) : ℕ := h.count (.started t)

/-- How often thread `t` has returned from `sync`. -/
def returns (t : τ) (h : List (BarrierEvent τ)) : ℕ := h.count (.returned t)

/-- What holds of a barrier with this history. -/
structure BarrierInv [Fintype τ] (h : List (BarrierEvent τ)) (b : Barrier τ) : Prop where
  /-- one call for each thread in `sync` has not returned -/
  calls : ∀ t, starts t h = returns t h + if b.pc t = .outside then 0 else 1
  /-- the counter counts -/
  step : b.step.toNat = countOf SyncPc.isCounted b.pc
  /-- the last to come opens the second half, and nobody else -/
  leave : countOf SyncPc.opensLeave b.pc =
    if b.mode = .enter ∧ b.step = b.cardinal then 1 else 0
  /-- the last to go opens the first half, and nobody else -/
  enter : countOf SyncPc.opensEnter b.pc = if b.mode = .leave ∧ b.step = 0 then 1 else 0
  /-- where the threads are -/
  round : ∃ k, ∀ t, InRound k (returns t h) b.mode (b.pc t)

section

variable (t u : τ) (h : List (BarrierEvent τ))

@[simp] theorem starts_started :
    starts u (.started t :: h) = starts u h + if t = u then 1 else 0 := by
  simp [starts, List.count_cons]

@[simp] theorem starts_returned : starts u (.returned t :: h) = starts u h := by
  simp [starts]

@[simp] theorem starts_silent : starts u (.silent :: h) = starts u h := by
  simp [starts]

@[simp] theorem returns_started : returns u (.started t :: h) = returns u h := by
  simp [returns]

@[simp] theorem returns_returned :
    returns u (.returned t :: h) = returns u h + if t = u then 1 else 0 := by
  simp [returns, List.count_cons]

@[simp] theorem returns_silent : returns u (.silent :: h) = returns u h := by
  simp [returns]

end

namespace Barrier

section

variable (b : Barrier τ) (t : τ) (x : SyncPc)

@[simp] theorem moveTo_step : (b.moveTo t x).step = b.step := rfl
@[simp] theorem moveTo_mode : (b.moveTo t x).mode = b.mode := rfl
@[simp] theorem moveTo_cardinal : (b.moveTo t x).cardinal = b.cardinal := rfl
@[simp] theorem moveTo_pc_self : (b.moveTo t x).pc t = x := Function.update_self ..

theorem moveTo_pc_ne {u : τ} (hu : u ≠ t) : (b.moveTo t x).pc u = b.pc u :=
  Function.update_of_ne hu ..

/-- A count moves with the thread that moves. -/
theorem countOf_moveTo [Fintype τ] (p : SyncPc → Bool) :
    countOf p (b.moveTo t x).pc + (p (b.pc t)).toNat = countOf p b.pc + (p x).toNat :=
  countOf_update ..

/-- `sync` never changes the cardinal. -/
@[simp] theorem sync_cardinal : (b.sync t).1.cardinal = b.cardinal := by
  rw [sync]
  cases b.pc t with
  | waitLeave => dsimp only; split <;> rfl
  | waitEnter => dsimp only; split <;> rfl
  | _ => rfl

end

end Barrier

namespace BarrierInv

variable [Fintype τ] {h : List (BarrierEvent τ)} {b : Barrier τ} {t : τ}

/-- A new barrier meets the invariant, with an empty history. -/
theorem create (cardinal : Counter) (hpos : cardinal ≠ 0) :
    BarrierInv [] (Barrier.create cardinal : Barrier τ) := by
  refine ⟨fun t => rfl, ?_, ?_, ?_, 0, fun t => rfl⟩
  · exact (countOf_eq_zero.mpr fun _ => rfl).symm
  · rw [if_neg fun hc => hpos hc.2.symm]
    exact countOf_eq_zero.mpr fun _ => rfl
  · rw [if_neg fun hc => Mode.noConfusion hc.1]
    exact countOf_eq_zero.mpr fun _ => rfl

/-- The counter never goes above the number of threads, so it does not wrap around. -/
theorem step_le (hb : BarrierInv h b) : b.step.toNat ≤ Fintype.card τ := by
  rw [hb.step]
  exact countOf_le_card ..

/-- Once the counter is at the cardinal, every thread has been counted. -/
theorem isCounted_of_full (hb : BarrierInv h b) (hfull : b.step.toNat = Fintype.card τ) (u : τ) :
    (b.pc u).isCounted = true := by
  rw [hb.step] at hfull
  exact countOf_eq_card.mp hfull u

/-! ### One access

One lemma for each access of `sync` and each thing it can find. `sync` below only sorts them. -/

omit [Fintype τ] in
/-- A thread in `sync` moves on in it. -/
theorem starts_moveTo {x : SyncPc} (hs : ∀ u, starts u h = returns u h +
      if b.pc u = .outside then 0 else 1) (hpc : b.pc t ≠ .outside) (hx : x ≠ .outside) (u : τ) :
    starts u (.silent :: h) =
      returns u (.silent :: h) + if (b.moveTo t x).pc u = .outside then 0 else 1 := by
  rw [starts_silent, returns_silent, hs u]
  obtain rfl | hu := eq_or_ne u t
  · rw [Barrier.moveTo_pc_self, if_neg hpc, if_neg hx]
  · rw [Barrier.moveTo_pc_ne _ _ _ hu]

omit [Fintype τ] in
/-- A thread in `sync` returns, and everybody's calls and returns match again. -/
theorem starts_outside (hs : ∀ u, starts u h = returns u h +
      if b.pc u = .outside then 0 else 1) (hpc : b.pc t ≠ .outside) (u : τ) :
    starts u (.returned t :: h) =
      returns u (.returned t :: h) + if (b.moveTo t .outside).pc u = .outside then 0 else 1 := by
  rw [starts_returned, returns_returned, hs u]
  obtain rfl | hu := eq_or_ne u t
  · rw [Barrier.moveTo_pc_self, if_neg hpc, if_pos rfl, if_pos rfl]
  · rw [Barrier.moveTo_pc_ne _ _ _ hu, if_neg (Ne.symm hu), Nat.add_zero]

omit [Fintype τ] in
/-- The threads that do not move stay where they may be. -/
theorem round_moveTo {k : ℕ} {m : Mode} {x : SyncPc} {e : BarrierEvent τ}
    (hk : ∀ u, u ≠ t → InRound k (returns u h) m (b.pc u))
    (he : ∀ u, u ≠ t → returns u (e :: h) = returns u h)
    (ht : InRound k (returns t (e :: h)) m x) (u : τ) :
    InRound k (returns u (e :: h)) m ((b.moveTo t x).pc u) := by
  obtain rfl | hu := eq_or_ne u t
  · rw [Barrier.moveTo_pc_self]
    exact ht
  · rw [Barrier.moveTo_pc_ne _ _ _ hu, he u hu]
    exact hk u hu

/-- A move of one thread, from what it does to the counter and the mode. -/
theorem move {x : SyncPc} {e : BarrierEvent τ} {step : Counter} {mode : Mode}
    (hb : BarrierInv h b)
    (hs : ∀ u, starts u (e :: h) =
      returns u (e :: h) + if (b.moveTo t x).pc u = .outside then 0 else 1)
    (hc : step.toNat + (b.pc t).isCounted.toNat = b.step.toNat + x.isCounted.toNat)
    (hl : (if mode = .enter ∧ step = b.cardinal then 1 else 0) + (b.pc t).opensLeave.toNat =
      (if b.mode = .enter ∧ b.step = b.cardinal then 1 else 0) + x.opensLeave.toNat)
    (he : (if mode = .leave ∧ step = 0 then 1 else 0) + (b.pc t).opensEnter.toNat =
      (if b.mode = .leave ∧ b.step = 0 then 1 else 0) + x.opensEnter.toNat)
    (hr : ∃ k, ∀ u, InRound k (returns u (e :: h)) mode ((b.moveTo t x).pc u)) :
    BarrierInv (e :: h) ({ b with step := step, mode := mode }.moveTo t x) := by
  have cc := b.countOf_moveTo t x SyncPc.isCounted
  have cl := b.countOf_moveTo t x SyncPc.opensLeave
  have ce := b.countOf_moveTo t x SyncPc.opensEnter
  rw [← hb.step] at cc
  rw [hb.leave] at cl
  rw [hb.enter] at ce
  refine ⟨hs, ?_, ?_, ?_, hr⟩
  · refine Nat.add_right_cancel (hc.trans cc.symm)
  · refine Nat.add_right_cancel (cl.trans hl.symm)
  · refine Nat.add_right_cancel (ce.trans he.symm)

/-- Where a thread stands tells the mode, except while it waits for it. -/
theorem mode_eq (hb : BarrierInv h b) : b.mode = match b.pc t with
    | .outside | .fetchAdd | .storeLeave => .enter
    | .fetchSub | .storeEnter => .leave
    | .waitLeave | .waitEnter => b.mode := by
  obtain ⟨k, hk⟩ := hb.round
  have ht := hk t
  cases hm : b.mode <;> cases hp : b.pc t <;> rw [hm, hp] at ht <;> first | rfl | exact ht.elim

/-- A call of `sync` keeps the invariant, since nothing is stored. -/
theorem called (hb : BarrierInv h b) (hpc : b.pc t = .outside) :
    BarrierInv (.started t :: h) (b.moveTo t .fetchAdd) := by
  obtain ⟨k, hk⟩ := hb.round
  have hm := hb.mode_eq (t := t)
  have ht := hk t
  rw [hpc] at hm
  rw [hpc, hm] at ht
  refine hb.move ?_ (by rw [hpc]; rfl) (by rw [hpc]; rfl) (by rw [hpc]; rfl)
    ⟨k, round_moveTo (fun u _ => hk u) (fun u _ => returns_started ..) ?_⟩
  · intro u
    rw [starts_started, returns_started, hb.calls u]
    obtain rfl | hu := eq_or_ne u t
    · rw [Barrier.moveTo_pc_self, hpc, if_pos rfl, if_pos rfl, if_neg nofun]
    · rw [Barrier.moveTo_pc_ne _ _ _ hu, if_neg (Ne.symm hu), Nat.add_zero]
  · rw [returns_started, hm]
    exact ht

/-- The `fetch_add`. The last thread to come goes on to open the second half. -/
theorem added (hb : BarrierInv h b) (hn : Fintype.card τ = b.cardinal.toNat)
    (hpc : b.pc t = .fetchAdd) :
    BarrierInv (.silent :: h) ({ b with step := b.step + 1 }.moveTo t
      (if b.step + 1 = b.cardinal then .storeLeave else .waitLeave)) := by
  obtain ⟨k, hk⟩ := hb.round
  have hm := hb.mode_eq (t := t)
  have ht := hk t
  rw [hpc] at hm
  rw [hpc, hm] at ht
  -- this thread has not been counted yet
  have hlt : b.step.toNat < Fintype.card τ := by
    apply lt_of_le_of_ne hb.step_le
    intro hfull
    have hc := hb.isCounted_of_full hfull t
    rw [hpc] at hc
    cases hc
  have hstep : (b.step + 1).toNat = b.step.toNat + 1 := by
    have := b.cardinal.toNat_lt
    rw [UInt64.toNat_add, UInt64.toNat_one]
    omega
  have hne : ¬(b.mode = .enter ∧ b.step = b.cardinal) := by
    rintro ⟨-, heq⟩
    rw [hn, heq] at hlt
    exact Nat.lt_irrefl _ hlt
  have hleave (m : Counter) : ¬(b.mode = .leave ∧ m = 0) := by
    rw [hm]
    exact fun hc => Mode.noConfusion hc.1
  have hpc' : b.pc t ≠ .outside := by
    rw [hpc]
    nofun
  by_cases hlast : b.step + 1 = b.cardinal
  · rw [if_pos hlast]
    refine hb.move (starts_moveTo hb.calls hpc' nofun) ?_ ?_ ?_
      ⟨k, round_moveTo (fun u _ => hk u) (fun u _ => returns_silent ..) ?_⟩
    · rw [hpc, hstep]
      rfl
    · rw [if_pos ⟨hm, hlast⟩, if_neg hne, hpc]
      rfl
    · rw [if_neg (hleave _), if_neg (hleave _), hpc]
      rfl
    · rw [returns_silent, hm]
      exact ht
  · rw [if_neg hlast]
    refine hb.move (starts_moveTo hb.calls hpc' nofun) ?_ ?_ ?_
      ⟨k, round_moveTo (fun u _ => hk u) (fun u _ => returns_silent ..) ?_⟩
    · rw [hpc, hstep]
      rfl
    · rw [if_neg fun hc => hlast hc.2, if_neg hne, hpc]
      rfl
    · rw [if_neg (hleave _), if_neg (hleave _), hpc]
      rfl
    · rw [returns_silent, hm]
      exact ht

/-- The store of `Mode::leave`: all the others are waiting for it. -/
theorem opened (hb : BarrierInv h b) (hn : Fintype.card τ = b.cardinal.toNat)
    (hpos : b.cardinal ≠ 0) (hpc : b.pc t = .storeLeave) :
    BarrierInv (.silent :: h) ({ b with mode := .leave }.moveTo t .fetchSub) := by
  obtain ⟨k, hk⟩ := hb.round
  have hm := hb.mode_eq (t := t)
  have ht := hk t
  rw [hpc] at hm
  rw [hpc, hm] at ht
  have hone : 0 < countOf SyncPc.opensLeave b.pc :=
    countOf_pos (t := t) (by rw [hpc]; rfl)
  have hfull : b.mode = .enter ∧ b.step = b.cardinal := by
    by_contra hc
    rw [hb.leave, if_neg hc] at hone
    exact Nat.lt_irrefl _ hone
  have hle : countOf SyncPc.opensLeave b.pc ≤ 1 := by
    rw [hb.leave]
    split <;> omega
  refine hb.move (starts_moveTo hb.calls (by rw [hpc]; nofun) nofun) ?_ ?_ ?_
    ⟨k, round_moveTo ?_ (fun u _ => returns_silent ..) ?_⟩
  · rw [hpc]
    rfl
  · rw [if_neg fun hc => Mode.noConfusion hc.1, if_pos hfull, hpc]
    rfl
  · rw [if_neg fun hc => hpos (hfull.2.symm.trans hc.2), hm,
      if_neg fun hc => Mode.noConfusion hc.1, hpc]
    rfl
  · intro u hu
    -- all have been counted, and only one of them is to store the mode
    have hc := hb.isCounted_of_full (by rw [hfull.2, hn]) u
    have hu' := hk u
    rw [hm] at hu'
    cases hp : b.pc u with
    | storeLeave => exact absurd (countOf_le_one hle (by rw [hp]; rfl) (by rw [hpc]; rfl)) hu
    | waitLeave =>
      rw [hp] at hu'
      exact hu'
    | fetchSub =>
      rw [hp] at hu'
      exact hu'.elim
    | outside | fetchAdd | storeEnter | waitEnter =>
      rw [hp] at hc
      cases hc
  · rw [returns_silent]
    exact ht

/-- A load that finds `Mode::leave` keeps the invariant: its thread goes on to leave. -/
theorem left (hb : BarrierInv h b) (hpc : b.pc t = .waitLeave) (hm : b.mode = .leave) :
    BarrierInv (.silent :: h) (b.moveTo t .fetchSub) := by
  obtain ⟨k, hk⟩ := hb.round
  have ht := hk t
  rw [hpc, hm] at ht
  refine hb.move (starts_moveTo hb.calls (by rw [hpc]; nofun) nofun) (by rw [hpc]; rfl)
    (by rw [hpc]; rfl) (by rw [hpc]; rfl)
    ⟨k, round_moveTo (fun u _ => hk u) (fun u _ => returns_silent ..) ?_⟩
  rw [returns_silent, hm]
  exact ht

/-- The `fetch_sub`. The last thread to go goes on to open the first half. -/
theorem subtracted (hb : BarrierInv h b) (hpc : b.pc t = .fetchSub) :
    BarrierInv (.silent :: h) ({ b with step := b.step - 1 }.moveTo t
      (if b.step - 1 = 0 then .storeEnter else .waitEnter)) := by
  obtain ⟨k, hk⟩ := hb.round
  have hm := hb.mode_eq (t := t)
  have ht := hk t
  rw [hpc] at hm
  rw [hpc, hm] at ht
  -- this thread is counted
  have hpos : 1 ≤ b.step.toNat := by
    rw [hb.step]
    exact countOf_pos (t := t) (by rw [hpc]; rfl)
  have hstep : (b.step - 1).toNat + 1 = b.step.toNat := by
    have hle : (1 : Counter) ≤ b.step := UInt64.le_iff_toNat_le.mpr hpos
    rw [UInt64.toNat_sub_of_le _ _ hle, UInt64.toNat_one]
    omega
  have hne : ¬(b.mode = .leave ∧ b.step = 0) := by
    rintro ⟨-, heq⟩
    rw [heq] at hpos
    exact absurd hpos (by decide)
  have henter (m : Counter) : ¬(b.mode = .enter ∧ m = b.cardinal) := by
    rw [hm]
    exact fun hc => Mode.noConfusion hc.1
  have hpc' : b.pc t ≠ .outside := by
    rw [hpc]
    nofun
  by_cases hlast : b.step - 1 = 0
  · rw [if_pos hlast]
    refine hb.move (starts_moveTo hb.calls hpc' nofun) ?_ ?_ ?_
      ⟨k, round_moveTo (fun u _ => hk u) (fun u _ => returns_silent ..) ?_⟩
    · rw [hpc]
      exact hstep
    · rw [if_neg (henter _), if_neg (henter _), hpc]
      rfl
    · rw [if_pos ⟨hm, hlast⟩, if_neg hne, hpc]
      rfl
    · rw [returns_silent, hm]
      exact ht
  · rw [if_neg hlast]
    refine hb.move (starts_moveTo hb.calls hpc' nofun) ?_ ?_ ?_
      ⟨k, round_moveTo (fun u _ => hk u) (fun u _ => returns_silent ..) ?_⟩
    · rw [hpc]
      exact hstep
    · rw [if_neg (henter _), if_neg (henter _), hpc]
      rfl
    · rw [if_neg fun hc => hlast hc.2, if_neg hne, hpc]
      rfl
    · rw [returns_silent, hm]
      exact ht

/-- The store of `Mode::enter` ends the round: all the others are waiting for it. -/
theorem closed (hb : BarrierInv h b) (hpos : b.cardinal ≠ 0) (hpc : b.pc t = .storeEnter) :
    BarrierInv (.returned t :: h) ({ b with mode := .enter }.moveTo t .outside) := by
  obtain ⟨k, hk⟩ := hb.round
  have hm := hb.mode_eq (t := t)
  have ht := hk t
  rw [hpc] at hm
  rw [hpc, hm] at ht
  have hone : 0 < countOf SyncPc.opensEnter b.pc :=
    countOf_pos (t := t) (by rw [hpc]; rfl)
  have hzero : b.mode = .leave ∧ b.step = 0 := by
    by_contra hc
    rw [hb.enter, if_neg hc] at hone
    exact Nat.lt_irrefl _ hone
  have hle : countOf SyncPc.opensEnter b.pc ≤ 1 := by
    rw [hb.enter]
    split <;> omega
  refine hb.move (starts_outside hb.calls (by rw [hpc]; nofun)) ?_ ?_ ?_
    ⟨k + 1, round_moveTo ?_ ?_ ?_⟩
  · rw [hpc]
    rfl
  · rw [if_neg fun hc => hpos (hc.2.symm.trans hzero.2), hm,
      if_neg fun hc => Mode.noConfusion hc.1, hpc]
    rfl
  · rw [if_neg fun hc => Mode.noConfusion hc.1, if_pos hzero, hpc]
    rfl
  · intro u hu
    -- nobody is counted any more, and only one of them is to store the mode
    have hc : (b.pc u).isCounted = false := by
      refine countOf_eq_zero.mp ?_ u
      rw [← hb.step, hzero.2]
      rfl
    have hu' := hk u
    rw [hm] at hu'
    cases hp : b.pc u with
    | storeEnter => exact absurd (countOf_le_one hle (by rw [hp]; rfl) (by rw [hpc]; rfl)) hu
    | waitEnter =>
      rw [hp] at hu'
      exact congrArg (· + 1) hu'
    | outside | fetchAdd =>
      rw [hp] at hu'
      exact hu'.elim
    | storeLeave | waitLeave | fetchSub =>
      rw [hp] at hc
      cases hc
  · intro u hu
    rw [returns_returned, if_neg (Ne.symm hu), Nat.add_zero]
  · rw [returns_returned, if_pos rfl]
    exact congrArg (· + 1) ht

/-- A load that finds `Mode::enter` keeps the invariant: its thread returns. -/
theorem returned (hb : BarrierInv h b) (hpc : b.pc t = .waitEnter) (hm : b.mode = .enter) :
    BarrierInv (.returned t :: h) (b.moveTo t .outside) := by
  obtain ⟨k, hk⟩ := hb.round
  have ht := hk t
  rw [hpc, hm] at ht
  refine hb.move (starts_outside hb.calls (by rw [hpc]; nofun)) (by rw [hpc]; rfl)
    (by rw [hpc]; rfl) (by rw [hpc]; rfl) ⟨k, round_moveTo (fun u _ => hk u) ?_ ?_⟩
  · intro u hu
    rw [returns_returned, if_neg (Ne.symm hu), Nat.add_zero]
  · rw [returns_returned, if_pos rfl, hm]
    exact ht

/-- A load that does not find what it waits for. -/
theorem spun (hb : BarrierInv h b) : BarrierInv (.silent :: h) b := by
  obtain ⟨k, hk⟩ := hb.round
  refine ⟨?_, hb.step, hb.leave, hb.enter, k, ?_⟩
  · intro u
    rw [starts_silent, returns_silent]
    exact hb.calls u
  · intro u
    rw [returns_silent]
    exact hk u

/-- Any access of `sync` keeps the invariant. -/
theorem sync (hb : BarrierInv h b) (hn : Fintype.card τ = b.cardinal.toNat)
    (hpos : b.cardinal ≠ 0) (t : τ) : BarrierInv ((b.sync t).2 :: h) (b.sync t).1 := by
  rw [Barrier.sync]
  cases hpc : b.pc t with
  | outside => exact hb.called hpc
  | fetchAdd => exact hb.added hn hpc
  | storeLeave => exact hb.opened hn hpos hpc
  | waitLeave =>
    dsimp only
    split
    · exact hb.spun
    · rename_i hm
      exact hb.left hpc (not_not.mp hm)
  | fetchSub => exact hb.subtracted hpc
  | storeEnter => exact hb.closed hpos hpc
  | waitEnter =>
    dsimp only
    split
    · exact hb.spun
    · rename_i hm
      exact hb.returned hpc (not_not.mp hm)

omit [Fintype τ] in
/-- A thread that has returned `r` times while `k` rounds are over. -/
theorem le_starts {k : ℕ} {u : τ} (hs : ∀ u, starts u h = returns u h +
      if b.pc u = .outside then 0 else 1)
    (hk : InRound k (returns u h) b.mode (b.pc u)) : k ≤ starts u h := by
  rw [hs u]
  cases hm : b.mode <;> cases hp : b.pc u <;> rw [hm, hp] at hk
  case enter.waitEnter =>
    have hk : returns u h + 1 = k := hk
    rw [if_neg nofun]
    omega
  all_goals
    first
    | exact hk.elim
    | exact (hk : returns u h = k) ▸ Nat.le_add_right ..

/-- When a thread returns, every thread has called `sync` as often as it has. -/
theorem returns_lt_starts (hb : BarrierInv h b) {t' : τ} (he : (b.sync t).2 = .returned t')
    (u : τ) : returns t' h < starts u h := by
  obtain ⟨k, hk⟩ := hb.round
  have hu := hk u
  have ht := hk t
  rw [Barrier.sync] at he
  cases hpc : b.pc t with
  | storeEnter =>
    -- everybody is in the second half of the round
    rw [hpc] at he
    obtain rfl := BarrierEvent.returned.inj he
    have hm := hb.mode_eq (t := t)
    rw [hpc] at hm
    rw [hpc, hm] at ht
    have hs := hb.calls u
    rw [hm] at hu
    cases hp : b.pc u with
    | outside | fetchAdd | storeLeave =>
      rw [hp] at hu
      exact hu.elim
    | waitLeave | fetchSub | storeEnter | waitEnter =>
      rw [hp] at hu hs
      have hu : returns u h = k := hu
      have ht : returns t h = k := ht
      rw [if_neg nofun] at hs
      omega
  | waitEnter =>
    rw [hpc] at he ht
    dsimp only at he
    split at he
    · cases he
    · rename_i hm
      obtain rfl := BarrierEvent.returned.inj he
      rw [not_not.mp hm] at ht
      have ht : returns t h + 1 = k := ht
      have := le_starts hb.calls hu
      omega
  | outside | fetchAdd | storeLeave | fetchSub =>
    rw [hpc] at he
    cases he
  | waitLeave =>
    rw [hpc] at he
    dsimp only at he
    split at he <;> cases he

/-- Some thread is not stuck: never do all of them wait for a mode that is not stored. -/
theorem not_stuck (hb : BarrierInv h b) (hn : Fintype.card τ = b.cardinal.toNat) :
    ¬∀ t, b.Stuck t := by
  intro hall
  cases hm : b.mode with
  | enter =>
    -- all have been counted, so one of them is to store `Mode::leave`
    have hpc (t : τ) : b.pc t = .waitLeave := by
      rcases hall t with ht | ht
      · exact ht.1
      · exact absurd hm ht.2
    have hfull : b.step.toNat = b.cardinal.toNat := by
      rw [hb.step, ← hn]
      exact countOf_eq_card.mpr fun t => by rw [hpc t]; rfl
    have hl := hb.leave
    rw [if_pos ⟨hm, UInt64.toNat_inj.mp hfull⟩] at hl
    rw [countOf_eq_zero.mpr fun t => by rw [hpc t]; rfl] at hl
    cases hl
  | leave =>
    -- none is counted any more, so one of them is to store `Mode::enter`
    have hpc (t : τ) : b.pc t = .waitEnter := by
      rcases hall t with ht | ht
      · exact absurd hm ht.2
      · exact ht.1
    have hzero : b.step.toNat = 0 := by
      rw [hb.step]
      exact countOf_eq_zero.mpr fun t => by rw [hpc t]; rfl
    have he := hb.enter
    rw [if_pos ⟨hm, UInt64.toNat_inj.mp hzero⟩] at he
    rw [countOf_eq_zero.mpr fun t => by rw [hpc t]; rfl] at he
    cases he

/-- Every run of a barrier keeps its cardinal and the invariant. -/
theorem run {cardinal : Counter} (hn : Fintype.card τ = cardinal.toNat) (hpos : cardinal ≠ 0)
    (hr : Run Barrier.next anyStep (Barrier.create cardinal) h b) :
    b.cardinal = cardinal ∧ BarrierInv h b := by
  induction hr with
  | start => exact ⟨rfl, create cardinal hpos⟩
  | next _ hs _ ih =>
    obtain ⟨hc, hb⟩ := ih
    obtain ⟨rfl, rfl⟩ := Prod.mk.inj (Option.some.inj hs)
    refine ⟨(Barrier.sync_cardinal ..).trans hc, hb.sync ?_ ?_ _⟩
    · rw [hc]
      exact hn
    · rw [hc]
      exact hpos

end BarrierInv

/-- **The barrier separates rounds.** A thread returns from a call of `sync` when every
thread has called it as often; the counter stays between zero and the cardinal; and no
state is reachable whose mode holds every thread in its loop. -/
theorem sync_separates_rounds [Fintype τ] {cardinal : Counter}
    (hn : Fintype.card τ = cardinal.toNat) (hpos : 1 ≤ cardinal.toNat)
    {h : List (BarrierEvent τ)} {b : Barrier τ}
    (hr : Run Barrier.next anyStep (Barrier.create cardinal) h b) :
    (∀ t later earlier, h = later ++ .returned t :: earlier →
      ∀ u, returns t earlier < starts u earlier) ∧
    b.step.toNat ≤ cardinal.toNat ∧ ¬∀ t, b.Stuck t := by
  have hne : cardinal ≠ 0 := by
    intro h0
    rw [h0] at hpos
    exact absurd hpos (by decide)
  obtain ⟨hc, hb⟩ := BarrierInv.run hn hne hr
  refine ⟨?_, ?_, hb.not_stuck (hc ▸ hn)⟩
  · rintro t later earlier rfl u
    obtain ⟨b', hr', -⟩ := hr.split
    obtain ⟨b₀, t', hr₀, hs, -⟩ := hr'.last
    obtain ⟨-, he⟩ := Prod.mk.inj (Option.some.inj hs)
    exact (BarrierInv.run hn hne hr₀).2.returns_lt_starts he u
  · rw [← hn]
    exact hb.step_le

/-- Two threads; thread 0 has called `sync` again before thread 1 sees that the round is
over. -/
def overtaking : List (Fin 2) := [0, 0, 1, 1, 1, 0, 1, 0, 0, 0, 0, 1]

/-- What happened: thread 0 returned and called again, then thread 1 returned. -/
def overtakingHistory : List (BarrierEvent (Fin 2)) :=
  [.returned 1, .silent, .started 0, .returned 0, .silent, .silent, .silent, .silent, .silent,
    .started 1, .silent, .started 0]

/-- The barrier separates the rounds of two threads, one of which is ahead. -/
theorem sync_separates_rounds_overtaking :
    ∃ b : Barrier (Fin 2), Run Barrier.next anyStep (Barrier.create 2) overtakingHistory b ∧
      b.step.toNat ≤ 2 ∧ (¬∀ t, b.Stuck t) ∧
      ∀ u, returns 1 overtakingHistory.tail < starts u overtakingHistory.tail := by
  obtain ⟨b, hr⟩ : ∃ b : Barrier (Fin 2),
      Run Barrier.next anyStep (Barrier.create 2) overtakingHistory b :=
    Run.of_history overtaking (by decide +kernel)
  obtain ⟨hsep, hle, hnot⟩ := sync_separates_rounds (by decide) (by decide) hr
  exact ⟨b, hr, hle, hnot, hsep 1 [] _ rfl⟩

end

end DualStm
