import DualStm.Updates

/-!
# Strict serializability of whole runs

Epoch after epoch the committed memory is what a serial execution of the
transactions leads to, if each epoch has one: the order of the epochs is then the
order of all transactions, it agrees with real time, and every transaction, be it
live or aborted, has read from the memory that the transactions of the earlier
epochs left behind.

Write skew is the only thing that can go wrong, so transactions that write what
they read always have a serial order.
-/

namespace DualStm

variable {τ W : Type} [DecidableEq τ]

/-- `T` had left when the thread of `U` called `tm_begin`. -/
def Precedes (h : List (Event τ W)) (T U : Txn) : Prop :=
  ∃ g' g t, h = g' ++ .began t U :: g ∧ HasLeft (beforeCall t g) T

/-- **A serial order of a run.** The transactions that left through `tm_end` in the
epochs before `ep`, one after the other. -/
structure StrictlySerial (m₀ : Loc → W) (h : List (Event τ W)) (ep : ℕ) (m : Loc → W)
    (order : List Txn) : Prop where
  /-- each of them once -/
  nodup : order.Nodup
  /-- all of them, and nobody else -/
  mem : ∀ T, T ∈ order ↔ Ended h T ∧ T.epoch < ep
  /-- epoch after epoch -/
  sorted : order.Pairwise fun T U => T.epoch ≤ U.epoch
  /-- nobody comes before a transaction that had left when it was called -/
  realTime : Respects (Precedes h) order
  /-- every read finds the value it returned, and the writes lead to `m` -/
  replays : Replays m₀ (order.flatMap fun T => accesses T h) m
  /-- whoever began, whatever became of it, read from what the first of them wrote: at
  least those that had left when it was called -/
  seen : ∀ T ∈ begun h, ∃ pre post, order = pre ++ post ∧ (∀ U ∈ order, Precedes h U T → U ∈ pre) ∧
    (T ∈ order → T ∈ post) ∧
    Consistent (overlay m₀ (pre.flatMap fun T => accesses T h)) (accesses T h)

variable [Zero W] [Fintype τ] {s₀ s : State τ W} {h : List (Event τ W)}

/-- Real time is the order of the epochs. -/
theorem Precedes.epoch_lt {Q : Discipline (State τ W) (Event τ W)} (hrest : s₀.AtRest)
    (hr : Run State.step Q s₀ h s) {T U : Txn} (hp : Precedes h T U) : T.epoch < U.epoch := by
  obtain ⟨g', g, t, rfl, hl⟩ := hp
  obtain ⟨s₁, hr₁, -⟩ := hr.split
  obtain ⟨s₂, a, hr₂, hs, -⟩ := hr₁.last
  exact (step_cases hs).began_after (RealTime.run hrest hr₂) (Books.run hrest hr₂) hl

/-- The transactions that left through `tm_end` in an epoch that is over read from one
snapshot and lead to the next one. -/
theorem oneSnapshot (hrest : s₀.AtRest) (hset : s₀.region.Settled ∅)
    (hr : Run State.step freesNothing s₀ h s) {k : ℕ} (hge : s₀.epoch ≤ k) (hk : k < s.epoch) :
    OneSnapshot (fun T => accesses T h) (epochMem s₀.committed k h)
      (epochMem s₀.committed (k + 1) h) (endedIn k h).dedup := by
  have hQ : ∀ (h : List (Event τ W)) (s : State τ W) e, freesNothing h s e → e.avoids ∅ :=
    fun _ _ _ => avoids_of_freesNothing
  have hi := Isolated.run hQ hrest hset hr
  have hended : ∀ {T}, T ∈ (endedIn k h).dedup ↔ Ended h T ∧ T.epoch = k := by
    intro T
    rw [List.mem_dedup, mem_endedIn]
  have huniq : ∀ {ℓ T U v w}, Ended h T → T.epoch = k → lastWrite T ℓ h = some v → Ended h U →
      U.epoch = k → lastWrite U ℓ h = some w → T = U := fun hT hTep hTv hU hUep hUw =>
    hi.unique_writer (Set.notMem_empty _) (hTep.trans hUep.symm) (by omega) hT hTv hU hUw
  refine ⟨fun T hT => ?_, fun ℓ T hT U hU v w hv hw => ?_, fun ℓ T hT v hv => ?_, fun ℓ hn => ?_⟩
  · have hcons := consistent_accesses hrest hset hr T
    rwa [(hended.mp hT).2] at hcons
  · rw [lastIn_accesses] at hv hw
    exact huniq (hended.mp hT).1 (hended.mp hT).2 hv (hended.mp hU).1 (hended.mp hU).2 hw
  · rw [lastIn_accesses] at hv
    obtain ⟨hT, hTep⟩ := hended.mp hT
    rw [epochMem_succ hQ hrest hset hr hge hk, committedWrite_eq_some hT hTep hv, Option.getD_some]
    intro U w hU hUep hUw
    rw [huniq hU hUep hUw hT hTep hv, hv] at hUw
    exact (Option.some.inj hUw).symm
  · rw [epochMem_succ hQ hrest hset hr hge hk, committedWrite_eq_none, Option.getD_none]
    intro U hU hUep
    rw [← lastIn_accesses]
    exact hn U (hended.mpr ⟨hU, hUep⟩)

/-- The epochs of the transactions that ended before the current one. -/
theorem mem_finished (hrest : s₀.AtRest) (hr : Run State.step freesNothing s₀ h s) {T : Txn} :
    (∃ k, (s₀.epoch ≤ k ∧ k < s.epoch) ∧ T ∈ (endedIn k h).dedup) ↔
      Ended h T ∧ T.epoch < s.epoch := by
  constructor
  · rintro ⟨k, hk, hT⟩
    obtain ⟨hended, rfl⟩ := mem_endedIn.mp (List.mem_dedup.mp hT)
    exact ⟨hended, hk.2⟩
  · rintro ⟨hT, hlt⟩
    have hge := hr.begun_ge ((Books.run hrest hr).ids.begun_of_left (hasLeft_iff.mpr (.inl hT)))
    exact ⟨T.epoch, ⟨hge, hlt⟩, List.mem_dedup.mpr (mem_endedIn.mpr ⟨hT, rfl⟩)⟩

/-- A replay in epoch order has all that is asked of a serial order. -/
theorem strictlySerial_of_replays (hrest : s₀.AtRest) (hset : s₀.region.Settled ∅)
    (hr : Run State.step freesNothing s₀ h s) {order : List Txn} (hnodup : order.Nodup)
    (hmem : ∀ T, T ∈ order ↔ Ended h T ∧ T.epoch < s.epoch)
    (hs : order.Pairwise fun T U => T.epoch ≤ U.epoch)
    (hreplay : Replays s₀.committed (order.flatMap fun T => accesses T h) s.committed) :
    StrictlySerial s₀.committed h s.epoch s.committed order := by
  have hids := (Books.run hrest hr).ids
  refine ⟨hnodup, hmem, hs, hs.imp fun hle hp => ?_, hreplay, fun T hT => ?_⟩
  · exact absurd (hp.epoch_lt hrest hr) (Nat.not_lt.mpr hle)
  · refine ⟨_, _, (filter_rank_append hs T.epoch).symm, fun U hU hp => ?_, fun hin => ?_, ?_⟩
    · exact List.mem_filter.mpr ⟨hU, decide_eq_true (hp.epoch_lt hrest hr)⟩
    · exact List.mem_filter.mpr ⟨hin, decide_eq_true le_rfl⟩
    · have hge := hr.begun_ge hT
      have hle : T.epoch ≤ s.epoch := by
        rcases hids.begun_lt hT with hlt | ⟨heq, -⟩
        · exact hlt.le
        · exact heq.le
      have hlo : ∀ U ∈ order, s₀.epoch ≤ U.epoch := fun U hU =>
        hr.begun_ge (hids.begun_of_left (hasLeft_iff.mpr (.inl ((hmem U).mp hU).1)))
      have hfin : ∀ U, U ∈ order ↔ ∃ k, (s₀.epoch ≤ k ∧ k < s.epoch) ∧ U ∈ (endedIn k h).dedup :=
        fun U => (hmem U).trans (mem_finished hrest hr).symm
      have hover := overlay_ranks (fun T => accesses T h) Txn.epoch hs hlo
        (fun k hk hkn => (OneSnapshot.filter_rank (fun T => accesses T h) Txn.epoch
          (fun k U hU => (mem_endedIn.mp (List.mem_dedup.mp hU)).2)
          (fun k hk hkn => oneSnapshot hrest hset hr hk hkn) hfin hk hkn).2.overlay_eq) hge hle
      rw [epochMem_start hr] at hover
      rw [hover]
      exact consistent_accesses hrest hset hr T

/-- A run has a serial order exactly if each epoch of it that is over has one. -/
theorem exists_strictlySerial_iff (hrest : s₀.AtRest) (hset : s₀.region.Settled ∅)
    (hr : Run State.step freesNothing s₀ h s) :
    (∃ order, StrictlySerial s₀.committed h s.epoch s.committed order) ↔
      ∀ k, s₀.epoch ≤ k → k < s.epoch →
        AcyclicOn (ComesBefore (fun T => accesses T h) (epochMem s₀.committed k h))
          (endedIn k h).dedup := by
  have hi := Isolated.run (Q := freesNothing) (fun _ _ _ => avoids_of_freesNothing) hrest hset hr
  have hend : epochMem s₀.committed s.epoch h = s.committed := by
    funext ℓ
    rw [hi.words.mem, ← hi.committed (Set.notMem_empty _)]
  rw [← exists_serial_ranks_iff (fun T => accesses T h) Txn.epoch
    (b := fun k => (endedIn k h).dedup)
    (fun k T hT => (mem_endedIn.mp (List.mem_dedup.mp hT)).2) (fun k => List.nodup_dedup _)
    hr.epoch_le fun k hk hkn => oneSnapshot hrest hset hr hk hkn, epochMem_start hr, hend]
  refine exists_congr fun order => ⟨fun ho => ?_, ?_⟩
  · exact ⟨ho.nodup, fun T => (ho.mem T).trans (mem_finished hrest hr).symm, ho.sorted, ho.replays⟩
  · rintro ⟨hnodup, hmem, hs, hreplay⟩
    exact strictlySerial_of_replays hrest hset hr hnodup
      (fun T => (hmem T).trans (mem_finished hrest hr)) hs hreplay

variable {r₀ r : Raw τ W}

/-- The epoch in which two transactions write what the other one read. -/
def skewedRun : List (Event (Fin 3) ℕ) := .ended ⟨1, 1⟩ true :: (skewed ++ gathering)

/-- The transaction writes every word it reads first, if it writes at all. -/
def WritesItsReads (T : Txn) (h : List (Event τ W)) : Prop :=
  (∃ ℓ v, lastWrite T ℓ h = some v) →
    ∀ ℓ v, ReadsFirst (accesses T h) ℓ v → ∃ w, lastWrite T ℓ h = some w

end DualStm
