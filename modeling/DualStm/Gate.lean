import DualStm.Batcher

/-!
# What the batcher counts

`GateInv` ties the counters of the batcher to the threads around it:
`n_remaining` counts the threads of the epoch that have not left, woken ones
that have no id yet included, and `n_blocked` counts the waiting ones. Every
lock-held section keeps it, except an id taken after a spurious wake-up, which
is counted nowhere.

The last section is about that exception. `pthread_cond_wait` stands in no
loop, so a thread it returns to without a broadcast walks into the running
epoch: `admitted_between_epochs_iff` says that admissions stay between epochs
exactly in the runs without such a return.
-/

namespace DualStm

variable {τ : Type} [Fintype τ]

/-- The counting invariant of the batcher. -/
structure GateInv (g : Gate τ) : Prop where
  /-- `n_remaining`: transactions that have not left, and woken threads -/
  remaining : g.batcher.nRemaining =
    countOf Client.isInside g.client + countOf Client.isWoken g.client
  /-- `n_blocked`: threads waiting for the next epoch -/
  blocked : g.batcher.nBlocked = countOf Client.isBlocked g.client
  /-- ids handed out, and ids still owed to woken threads -/
  inEpoch : (g.batcher.txIdGenerator : ℤ) + countOf Client.isWoken g.client =
    g.batcher.nInEpoch
  /-- an empty batcher holds nobody back -/
  idle : g.batcher.nRemaining = 0 → g.batcher.nBlocked = 0 ∧ g.batcher.nInEpoch = 0
  /-- ids come from the generator -/
  id_lt : ∀ {t id}, g.client t = .inside id → id < g.batcher.txIdGenerator
  /-- no id is held twice -/
  id_inj : ∀ {t u id}, g.client t = .inside id → g.client u = .inside id → t = u
  /-- a broadcast comes with a new epoch -/
  woken_lt : ∀ {t n}, g.client t = .woken n → n < g.batcher.curEpoch

/-- A waiting thread waits in the epoch it arrived in. This one survives
spurious wake-ups. -/
def BlockedNow (g : Gate τ) : Prop := ∀ t n, g.client t = .blocked n → n = g.batcher.curEpoch

omit [Fintype τ] in
theorem blockedNow_of_atRest {g : Gate τ} (hg : g.AtRest) : BlockedNow g := by
  intro t n hc
  rw [hg.2 t] at hc
  cases hc

theorem gateInv_of_atRest {g : Gate τ} (hg : g.AtRest) : GateInv g := by
  obtain ⟨hb, hc⟩ := hg
  have hzero : ∀ p : Client → Bool, p .outside = false → countOf p g.client = 0 := by
    intro p hp
    rw [countOf_eq_zero]
    intro t
    rw [hc t, hp]
  refine ⟨?_, ?_, ?_, ?_, ?_, ?_, ?_⟩
  · rw [hb, hzero _ rfl, hzero _ rfl]; rfl
  · rw [hb, hzero _ rfl]; rfl
  · rw [hb, hzero _ rfl]; rfl
  · intro _
    rw [hb]
    exact ⟨rfl, rfl⟩
  · intro t id ht
    rw [hc t] at ht
    cases ht
  · intro t u id ht
    rw [hc t] at ht
    cases ht
  · intro t n ht
    rw [hc t] at ht
    cases ht

namespace GateInv

variable {g : Gate τ}

/-- A thread inside makes the batcher occupied. -/
theorem remaining_pos (hg : GateInv g) {t : τ} {id : ℕ} (ht : g.client t = .inside id) :
    1 ≤ g.batcher.nRemaining := by
  have hpos : 0 < countOf Client.isInside g.client :=
    countOf_pos (t := t) (by rw [ht]; rfl)
  have := hg.remaining
  omega

/-- `n_remaining = 1` with a thread inside: nobody else is inside or woken. -/
theorem alone (hg : GateInv g) {t : τ} {id : ℕ} (ht : g.client t = .inside id)
    (h1 : g.batcher.nRemaining = 1) :
    countOf Client.isInside g.client = 1 ∧ countOf Client.isWoken g.client = 0 := by
  have hpos : 0 < countOf Client.isInside g.client :=
    countOf_pos (t := t) (by rw [ht]; rfl)
  have := hg.remaining
  omega

variable [DecidableEq τ]

omit [Fintype τ] in
/-- The id a thread takes is the generator, which nobody held. -/
theorem letIn_ids {b : Batcher} {client : τ → Client} (t : τ)
    (hlt : ∀ {u id}, client u = .inside id → id < b.txIdGenerator)
    (hinj : ∀ {u v id}, client u = .inside id → client v = .inside id → u = v) :
    (∀ {u id}, (Gate.letIn b client t).client u = .inside id → id < b.txIdGenerator + 1) ∧
      ∀ {u v id}, (Gate.letIn b client t).client u = .inside id →
        (Gate.letIn b client t).client v = .inside id → u = v := by
  have hold : ∀ {u id}, u ≠ t → (Gate.letIn b client t).client u = .inside id →
      client u = .inside id := by
    intro u id hut hu
    simpa only [Gate.letIn, Function.update_of_ne hut] using hu
  have hnew : ∀ {id}, (Gate.letIn b client t).client t = .inside id →
      id = b.txIdGenerator := by
    intro id hu
    simpa [Gate.letIn, takeId, eq_comm] using hu
  constructor
  · intro u id hu
    obtain rfl | hut := eq_or_ne u t
    · rw [hnew hu]
      omega
    · exact Nat.lt_succ_of_lt (hlt (hold hut hu))
  · intro u v id hu hv
    by_cases hut : u = t <;> by_cases hvt : v = t
    · rw [hut, hvt]
    · subst hut
      have := hlt (hold hvt hv)
      rw [hnew hu] at this
      omega
    · subst hvt
      have := hlt (hold hut hu)
      rw [hnew hv] at this
      omega
    · exact hinj (hold hut hu) (hold hvt hv)

omit [Fintype τ] in
/-- A thread that takes an id wakes nobody. -/
theorem letIn_woken {b : Batcher} {client : τ → Client} {t u : τ} {n : ℕ}
    (hu : (Gate.letIn b client t).client u = .woken n) : client u = .woken n := by
  obtain rfl | hut := eq_or_ne u t
  · simp [Gate.letIn] at hu
  · simpa only [Gate.letIn, Function.update_of_ne hut] using hu

/-- A thread that opens an epoch of its own keeps the invariant. -/
theorem opened (hg : GateInv g) {t : τ} (ht : g.client t = .outside)
    (hn : g.batcher.nRemaining = 0) :
    GateInv (Gate.letIn { g.batcher with nInEpoch := 1, nRemaining := 1 } g.client t) := by
  have ci := countOf_update Client.isInside g.client t (.inside g.batcher.txIdGenerator)
  have cw := countOf_update Client.isWoken g.client t (.inside g.batcher.txIdGenerator)
  have cb := countOf_update Client.isBlocked g.client t (.inside g.batcher.txIdGenerator)
  rw [ht] at ci cw cb
  simp only [Client.isInside_outside, Client.isInside_inside, Client.isWoken_outside,
    Client.isWoken_inside, Client.isBlocked_outside, Client.isBlocked_inside,
    Bool.toNat_true, Bool.toNat_false] at ci cw cb
  have hrem := hg.remaining
  have hblk := hg.blocked
  have hin := hg.inEpoch
  have hidle := hg.idle hn
  obtain ⟨hlt, hinj⟩ := letIn_ids (b := { g.batcher with nInEpoch := 1, nRemaining := 1 })
    t hg.id_lt hg.id_inj
  refine ⟨?_, ?_, ?_, ?_, hlt, hinj, fun hu => hg.woken_lt (letIn_woken hu)⟩
  · simp only [Gate.letIn, takeId]
    omega
  · simp only [Gate.letIn, takeId]
    omega
  · simp only [Gate.letIn, takeId]
    omega
  · intro h0
    simp [Gate.letIn, takeId] at h0

/-- A woken thread takes the id it is owed. -/
theorem woke (hg : GateInv g) {t : τ} {n : ℕ} (ht : g.client t = .woken n) :
    GateInv (Gate.letIn g.batcher g.client t) := by
  have ci := countOf_update Client.isInside g.client t (.inside g.batcher.txIdGenerator)
  have cw := countOf_update Client.isWoken g.client t (.inside g.batcher.txIdGenerator)
  have cb := countOf_update Client.isBlocked g.client t (.inside g.batcher.txIdGenerator)
  have hpos : 0 < countOf Client.isWoken g.client := countOf_pos (t := t) (by rw [ht]; rfl)
  rw [ht] at ci cw cb
  simp only [Client.isInside_woken, Client.isInside_inside, Client.isWoken_woken,
    Client.isWoken_inside, Client.isBlocked_woken, Client.isBlocked_inside,
    Bool.toNat_true, Bool.toNat_false] at ci cw cb
  have hrem := hg.remaining
  have hblk := hg.blocked
  have hin := hg.inEpoch
  obtain ⟨hlt, hinj⟩ := letIn_ids t hg.id_lt hg.id_inj
  refine ⟨?_, ?_, ?_, ?_, hlt, hinj, fun hu => hg.woken_lt (letIn_woken hu)⟩
  · simp only [Gate.letIn, takeId]
    omega
  · simp only [Gate.letIn, takeId]
    omega
  · simp only [Gate.letIn, takeId]
    omega
  · intro h0
    simp only [Gate.letIn, takeId] at h0
    omega

/-- A thread that comes to wait keeps the invariant, since it is counted. -/
theorem wait (hg : GateInv g) {t : τ} (ht : g.client t = .outside)
    (hn : g.batcher.nRemaining ≠ 0) :
    GateInv (Gate.wait { g.batcher with nBlocked := g.batcher.nBlocked + 1 } g.client t) := by
  have ci := countOf_update Client.isInside g.client t (.blocked g.batcher.curEpoch)
  have cw := countOf_update Client.isWoken g.client t (.blocked g.batcher.curEpoch)
  have cb := countOf_update Client.isBlocked g.client t (.blocked g.batcher.curEpoch)
  rw [ht] at ci cw cb
  simp only [Client.isInside_outside, Client.isInside_blocked, Client.isWoken_outside,
    Client.isWoken_blocked, Client.isBlocked_outside, Client.isBlocked_blocked,
    Bool.toNat_true, Bool.toNat_false] at ci cw cb
  have hrem := hg.remaining
  have hblk := hg.blocked
  have hin := hg.inEpoch
  have hold : ∀ {u c}, (∀ n, c ≠ .blocked n) →
      Function.update g.client t (.blocked g.batcher.curEpoch) u = c → g.client u = c := by
    intro u c hc hu
    obtain rfl | hut := eq_or_ne u t
    · rw [Function.update_self] at hu
      exact absurd hu.symm (hc _)
    · rwa [Function.update_of_ne hut] at hu
  refine ⟨?_, ?_, ?_, fun h0 => absurd h0 hn, fun hu => hg.id_lt (hold (by simp) hu),
    fun hu hv => hg.id_inj (hold (by simp) hu) (hold (by simp) hv),
    fun hu => hg.woken_lt (hold (by simp) hu)⟩
  · simp only [Gate.wait]
    omega
  · simp only [Gate.wait]
    omega
  · simp only [Gate.wait]
    omega

/-- A thread that leaves before the last one keeps the invariant. -/
theorem left (hg : GateInv g) {t : τ} {id : ℕ} (ht : g.client t = .inside id)
    (hn : g.batcher.nRemaining ≠ 1) :
    GateInv ⟨{ g.batcher with nRemaining := g.batcher.nRemaining - 1 },
      Function.update g.client t .outside⟩ := by
  have ci := countOf_update Client.isInside g.client t .outside
  have cw := countOf_update Client.isWoken g.client t .outside
  have cb := countOf_update Client.isBlocked g.client t .outside
  rw [ht] at ci cw cb
  simp only [Client.isInside_outside, Client.isInside_inside, Client.isWoken_outside,
    Client.isWoken_inside, Client.isBlocked_outside, Client.isBlocked_inside,
    Bool.toNat_true, Bool.toNat_false] at ci cw cb
  have hrem := hg.remaining
  have hblk := hg.blocked
  have hin := hg.inEpoch
  have hpos := hg.remaining_pos ht
  have hold : ∀ {u c}, c ≠ .outside →
      Function.update g.client t .outside u = c → g.client u = c := by
    intro u c hc hu
    obtain rfl | hut := eq_or_ne u t
    · rw [Function.update_self] at hu
      exact absurd hu.symm hc
    · rwa [Function.update_of_ne hut] at hu
  refine ⟨?_, ?_, ?_, ?_, fun hu => hg.id_lt (hold (by simp) hu),
    fun hu hv => hg.id_inj (hold (by simp) hu) (hold (by simp) hv),
    fun hu => hg.woken_lt (hold (by simp) hu)⟩
  · simp only
    omega
  · simp only
    omega
  · simp only
    omega
  · intro h0
    simp only at h0
    omega

/-- The last leave: the blocked threads become the next epoch. -/
theorem closed (hg : GateInv g) (hb : BlockedNow g) {t : τ} {id : ℕ}
    (ht : g.client t = .inside id) (hn : g.batcher.nRemaining = 1) :
    GateInv ⟨prepareBatcherForNextEpoch g.batcher,
      fun u => (Function.update g.client t .outside u).wakeUp⟩ := by
  have ci := countOf_update Client.isInside g.client t .outside
  have cw := countOf_update Client.isWoken g.client t .outside
  have cb := countOf_update Client.isBlocked g.client t .outside
  rw [ht] at ci cw cb
  simp only [Client.isInside_outside, Client.isInside_inside, Client.isWoken_outside,
    Client.isWoken_inside, Client.isBlocked_outside, Client.isBlocked_inside,
    Bool.toNat_true, Bool.toNat_false] at ci cw cb
  obtain ⟨hin, hwk⟩ := hg.alone ht hn
  have hblk := hg.blocked
  have wi : countOf Client.isInside (fun u => (Function.update g.client t .outside u).wakeUp)
      = countOf Client.isInside (Function.update g.client t .outside) := by
    rw [countOf_comp]
    simp only [Client.isInside_wakeUp]
  have ww : countOf Client.isWoken (fun u => (Function.update g.client t .outside u).wakeUp)
      = countOf Client.isBlocked (Function.update g.client t .outside) +
        countOf Client.isWoken (Function.update g.client t .outside) := by
    rw [countOf_comp]
    exact countOf_or _ Client.isWoken_wakeUp
  have wb : countOf Client.isBlocked (fun u => (Function.update g.client t .outside u).wakeUp)
      = 0 := by
    rw [countOf_eq_zero]
    exact fun u => Client.isBlocked_wakeUp _
  -- the counts say that nobody is left inside
  have hnone : ∀ {u id}, (Function.update g.client t .outside u).wakeUp ≠ .inside id := by
    intro u id hu
    rw [Client.wakeUp_eq_inside] at hu
    have : 0 < countOf Client.isInside (Function.update g.client t .outside) :=
      countOf_pos (t := u) (by rw [hu]; rfl)
    omega
  refine ⟨?_, ?_, ?_, ?_, fun hu => absurd hu hnone, fun hu => absurd hu hnone, ?_⟩
  · simp only [prepareBatcherForNextEpoch]
    omega
  · simp only [prepareBatcherForNextEpoch]
    omega
  · simp only [prepareBatcherForNextEpoch]
    omega
  · intro h0
    exact ⟨rfl, h0⟩
  · intro u n hu
    obtain rfl | hut := eq_or_ne u t
    · simp [Client.wakeUp] at hu
    · simp only [Function.update_of_ne hut] at hu
      simp only [prepareBatcherForNextEpoch]
      rcases hc : g.client u with _ | m | m | m <;> rw [hc] at hu <;>
        simp only [Client.wakeUp, Client.woken.injEq, reduceCtorEq] at hu
      · rw [← hu, hb u m hc]
        omega
      · rw [← hu]
        exact Nat.lt_succ_of_lt (hg.woken_lt hc)

end GateInv

/-! ## Runs of the gate

The invariant holds initially and each section keeps it, so it holds along every run in which
no wait ends by itself. -/

variable [DecidableEq τ]

/-- The wait of this event returned without a broadcast. -/
def GateEvent.isSpurious : GateEvent τ → Bool
  | .spurious _ _ _ _ => true
  | _ => false

omit [Fintype τ] in
/-- Every lock-held section keeps the threads in the epoch they wait in. -/
theorem blockedNow_step {g g' : Gate τ} {a : GateAction τ} {e : GateEvent τ}
    (hb : BlockedNow g) (hs : g.step a = some (g', e)) : BlockedNow g' := by
  intro u n hu
  have hkeep : ∀ {b : Batcher} {t : τ}, b.curEpoch = g.batcher.curEpoch →
      (Gate.letIn b g.client t).client u = .blocked n →
      n = (Gate.letIn b g.client t).batcher.curEpoch := by
    intro b t hcur hu
    obtain rfl | hut := eq_or_ne u t
    · simp [Gate.letIn] at hu
    · simp only [Gate.letIn, Function.update_of_ne hut] at hu
      rw [hb u n hu]
      exact hcur.symm
  rcases Gate.step_cases hs with ⟨t, -, -, rfl, -⟩ | ⟨t, -, -, rfl, -⟩ | ⟨t, m, -, rfl, -⟩ |
    ⟨t, m, -, rfl, -⟩ | ⟨t, id, -, rfl, -⟩
  · exact hkeep rfl hu
  · obtain rfl | hut := eq_or_ne u t
    · simpa [Gate.wait, eq_comm] using hu
    · simp only [Gate.wait, Function.update_of_ne hut] at hu ⊢
      exact hb u n hu
  · exact hkeep rfl hu
  · exact hkeep rfl hu
  · by_cases hn : g.batcher.nRemaining = 1
    · -- the broadcast leaves nobody waiting
      rw [Gate.afterLeave_last hn] at hu
      rcases hc : Function.update g.client t .outside u with _ | m | m | m <;>
        simp [hc, Client.wakeUp] at hu
    · rw [Gate.afterLeave_early hn] at hu ⊢
      obtain rfl | hut := eq_or_ne u t
      · simp at hu
      · simp only [Function.update_of_ne hut] at hu ⊢
        exact hb u n hu

/-- The leave of a transaction, as `GateInv` sees it. -/
theorem GateInv.afterLeave {g : Gate τ} (hg : GateInv g) (hb : BlockedNow g) {t : τ} {id : ℕ}
    (ht : g.client t = .inside id) : GateInv (g.afterLeave t) := by
  by_cases hn : g.batcher.nRemaining = 1
  · rw [Gate.afterLeave_last hn]
    exact hg.closed hb ht hn
  · rw [Gate.afterLeave_early hn]
    exact hg.left ht hn

/-- Every lock-held section keeps the counts, unless its wait returned without
a broadcast. -/
theorem gateInv_step {g g' : Gate τ} {a : GateAction τ} {e : GateEvent τ} (hg : GateInv g)
    (hb : BlockedNow g) (hs : g.step a = some (g', e)) (he : e.isSpurious = false) :
    GateInv g' := by
  rcases Gate.step_cases hs with ⟨t, ht, hn, rfl, -⟩ | ⟨t, ht, hn, rfl, -⟩ |
    ⟨t, m, ht, rfl, -⟩ | ⟨t, m, -, -, rfl⟩ | ⟨t, id, ht, rfl, -⟩
  · exact hg.opened ht hn
  · exact hg.wait ht hn
  · exact hg.woke ht
  · cases he
  · exact hg.afterLeave hb ht

omit [DecidableEq τ] in
/-- The last one to leave is alone: the others have left, and no woken thread
still owes a leave. -/
theorem GateInv.last_alone {g : Gate τ} (hg : GateInv g) {t : τ} {id : ℕ}
    (ht : g.client t = .inside id) (hl : (leaveBatcher g.batcher).2 = true) {u : τ}
    (hut : u ≠ t) : (g.client u).isInside = false ∧ (g.client u).isWoken = false := by
  obtain ⟨hin, hwk⟩ := hg.alone ht (leaveBatcher_snd.mp hl)
  refine ⟨?_, countOf_eq_zero.mp hwk u⟩
  by_contra hc
  exact hut (countOf_le_one hin.le (by simpa using hc) (by rw [ht]; rfl))

/-- Whoever is inside after a leave was inside before, in the same epoch. -/
theorem GateInv.inside_of_afterLeave {g : Gate τ} (hg : GateInv g) {t : τ} {id : ℕ}
    (ht : g.client t = .inside id) {u : τ} {k : ℕ} (hu : (g.afterLeave t).client u = .inside k) :
    u ≠ t ∧ g.client u = .inside k ∧
      (g.afterLeave t).batcher.curEpoch = g.batcher.curEpoch := by
  have hut : u ≠ t := by
    rintro rfl
    by_cases hn : g.batcher.nRemaining = 1
    · rw [Gate.afterLeave_last hn] at hu
      simp [Client.wakeUp] at hu
    · rw [Gate.afterLeave_early hn] at hu
      simp at hu
  by_cases hn : g.batcher.nRemaining = 1
  · rw [Gate.afterLeave_last hn] at hu
    simp only [Function.update_of_ne hut, Client.wakeUp_eq_inside] at hu
    have := (hg.last_alone ht (leaveBatcher_snd.mpr hn) hut).1
    rw [hu] at this
    cases this
  · rw [Gate.afterLeave_early hn] at hu ⊢
    simp only [Function.update_of_ne hut] at hu
    exact ⟨hut, hu, rfl⟩

/-- A leave with others inside does not end the epoch. -/
theorem GateInv.afterLeave_inside {g : Gate τ} (hg : GateInv g) {t : τ} {id : ℕ}
    (ht : g.client t = .inside id) {u : τ} {k : ℕ} (hut : u ≠ t)
    (hu : g.client u = .inside k) :
    (g.afterLeave t).client u = .inside k ∧
      (g.afterLeave t).batcher.curEpoch = g.batcher.curEpoch := by
  have hn : g.batcher.nRemaining ≠ 1 := by
    intro hn
    have := (hg.last_alone ht (leaveBatcher_snd.mpr hn) hut).1
    rw [hu] at this
    cases this
  rw [Gate.afterLeave_early hn]
  exact ⟨by simp only [Function.update_of_ne hut]; exact hu, rfl⟩

/-! ## Admission between epochs

A thread is admitted between two epochs when nobody is inside. A wait that ends by itself is
what lets one in while the others run, and nothing else does. -/

/-- A thread that had to wait gets its id in a later epoch than the one it
arrived in, and a leave that commits the epoch finds nobody else inside. -/
def AdmittedBetweenEpochs : Discipline (Gate τ) (GateEvent τ) := fun _ g e =>
  match e with
  | .woke _ since now _ => since < now
  | .spurious _ since now _ => since < now
  | .left t _ true => ∀ u, u ≠ t → (g.client u).isInside = false
  | _ => True

/-- **Admissions stay between epochs exactly in the runs without a spurious
wake-up.** With `pthread_cond_wait` as POSIX specifies it, every run in which a
wait returns without a broadcast admits a thread in the middle of an epoch. -/
theorem admitted_between_epochs_iff {g₀ g : Gate τ} {h : List (GateEvent τ)}
    (hrest : g₀.AtRest) (hr : Run Gate.step anyStep g₀ h g) :
    Run Gate.step AdmittedBetweenEpochs g₀ h g ↔ ∀ e ∈ h, e.isSpurious = false := by
  constructor
  · intro hok
    have hinv : BlockedNow g ∧ ∀ e ∈ h, e.isSpurious = false := by
      clear hr
      induction hok with
      | start => exact ⟨blockedNow_of_atRest hrest, by simp⟩
      | @next h g g' a e _ hs hq ih =>
        refine ⟨blockedNow_step ih.1 hs, List.forall_mem_cons.mpr ⟨?_, ih.2⟩⟩
        rcases Gate.step_cases hs with ⟨t, -, -, -, rfl⟩ | ⟨t, -, -, -, rfl⟩ |
          ⟨t, m, -, -, rfl⟩ | ⟨t, m, ht, -, rfl⟩ | ⟨t, id, -, -, rfl⟩
        · rfl
        · rfl
        · rfl
        · -- no broadcast since the wait began, so the epoch has not moved
          have hlt : m < g.batcher.curEpoch := hq
          rw [ih.1 t m ht] at hlt
          exact absurd hlt (lt_irrefl _)
        · rfl
    exact hinv.2
  · intro hsp
    have hinv : Run Gate.step AdmittedBetweenEpochs g₀ h g ∧ GateInv g ∧ BlockedNow g := by
      induction hr with
      | start => exact ⟨.start, gateInv_of_atRest hrest, blockedNow_of_atRest hrest⟩
      | @next h g g' a e _ hs _ ih =>
        obtain ⟨he, hsp⟩ := List.forall_mem_cons.mp hsp
        obtain ⟨hok, hg, hb⟩ := ih hsp
        refine ⟨hok.next hs ?_, gateInv_step hg hb hs he, blockedNow_step hb hs⟩
        rcases Gate.step_cases hs with ⟨t, -, -, -, rfl⟩ | ⟨t, -, -, -, rfl⟩ |
          ⟨t, m, ht, -, rfl⟩ | ⟨t, m, -, -, rfl⟩ | ⟨t, id, ht, -, rfl⟩
        · trivial
        · trivial
        · exact hg.woken_lt ht
        · cases he
        · rcases hl : (leaveBatcher g.batcher).2 with _ | _
          · trivial
          · exact fun u hut => (hg.last_alone ht hl hut).1
    exact hinv.1

/-- The gate of two threads, before anybody arrived. -/
def restGate : Gate Bool := ⟨initBatcher, fun _ => .outside⟩

/-- One thread runs, the wait of the other one returns spuriously, and the leave of the first
commits the epoch under the second. -/
def spuriousRun : List (GateAction Bool) :=
  [.enter true, .enter false, .spurious false, .leave true]

/-- The condition, met by a run in which the second thread is woken by the
broadcast. -/
theorem admitted_between_epochs_woken :
    ∃ g, Run Gate.step AdmittedBetweenEpochs restGate
      [.woke false 0 1 0, .left true 0 true, .waits false, .admitted true 0] g := by
  have hr : Run Gate.step anyStep restGate [] restGate := .start
  have hrun := hr.of_exec [.enter true, .enter false, .leave true, .wake false] rfl
  exact ⟨_, (admitted_between_epochs_iff ⟨rfl, fun _ => rfl⟩ hrun).mpr (by decide)⟩

/-- **Counterexample.** A run of two threads in which a thread is admitted in
the middle of an epoch and then has its epoch committed by the other. -/
theorem admission_mid_epoch :
    ¬ ∀ (g : Gate Bool) (h : List (GateEvent Bool)), Run Gate.step anyStep restGate h g →
      Run Gate.step AdmittedBetweenEpochs restGate h g := by
  intro hall
  have hr : Run Gate.step anyStep restGate [] restGate := .start
  have hrun := hr.of_exec spuriousRun rfl
  obtain ⟨g₁, _, hok, _, _⟩ := (hall _ _ hrun).last
  obtain ⟨g₂, _, _, _, hq⟩ := hok.last
  exact absurd (show (0 : ℕ) < 0 from hq) (lt_irrefl _)

end DualStm
