import DualStm.Epochs
import DualStm.Raw

/-!
# Snapshot reads

Every read that succeeds returns the reader's own last write, or the committed
value the word had when the reader's epoch began. The state the epoch began in
contains everything that was committed before the reader called `tm_begin`.

This is so as long as the loop of a `tm_read` works on the segments of the region. When a
`tm_alloc` moves the array of segments under it, it reads what is in the array that was
released, and a read-only transaction finds two values in one word.
-/

namespace DualStm

variable {τ W : Type} [DecidableEq τ] [Fintype τ] [Zero W]

/-- A read, at its place in a run, returns what its transaction wrote last, or else the value
at the start of the epoch. -/
theorem read_in_run {Q : Discipline (State τ W) (Event τ W)} {dead : Set ℕ}
    (hQ : ∀ h s e, Q h s e → e.avoids dead) {s₀ s : State τ W} {g g' : List (Event τ W)}
    (hrest : s₀.AtRest) (hset : s₀.region.Settled dead) {T : Txn} {ℓ : Loc} {v : W}
    (hr : Run State.step Q s₀ (g' ++ .read T ℓ v :: g) s) :
    v = (lastWrite T ℓ g).getD
      (epochMem s₀.committed T.epoch (g' ++ .read T ℓ v :: g) ℓ) := by
  obtain ⟨s₁, hr₁, hr'⟩ := hr.split
  obtain ⟨s₂, a, hr₂, hs, hq⟩ := hr₁.last
  have hstep := step_cases hs
  obtain ⟨hep, hv⟩ := (Isolated.run hQ hrest hset hr₂).read hstep (hQ _ _ _ hq)
  have hle : T.epoch ≤ s₁.epoch := by
    rcases hstep.epoch with ⟨-, h⟩ | ⟨-, -, h⟩ <;> omega
  rw [hr'.epochMem_append hle, epochMem_cons (not_closes_of_left_none rfl)]
  exact hv

/-- The state at the start of an epoch contains what a transaction committed: the
committed value of each word it wrote is its last write, or that of a later one. -/
def Contains (h₁ : List (Event τ W)) (s₁ : State τ W) (U : Txn) : Prop :=
  Ended h₁ U ∧ ∀ ℓ v, lastWrite U ℓ h₁ = some v →
    ∃ U', Ended h₁ U' ∧ (U' = U ∨ U.epoch < U'.epoch) ∧
      lastWrite U' ℓ h₁ = some (s₁.committed ℓ)

/-- **Snapshot reads with real-time order.** Let `r₁` be the state in which the
epoch of `T` began. Every successful read of `T` returns the last value `T` wrote
to the word, and otherwise its committed value in `r₁`; a read-only transaction
reads `r₁` throughout; and `r₁` contains every transaction whose `tm_end`
returned before `T`'s `tm_begin` was called. -/
def SnapshotReads (Q : Discipline (Raw τ W) (Event τ W)) (r₀ : Raw τ W) (h : List (Event τ W))
    (T : Txn) : Prop :=
  ∃ h₂ h₁ r₁, h = h₂ ++ h₁ ∧ Run Raw.step Q r₀ h₁ r₁ ∧ EpochStart h₁ ∧
    r₁.state.epoch = T.epoch ∧
    (∀ g g' ℓ v, h = g' ++ .read T ℓ v :: g →
      v = (lastWrite T ℓ g).getD (r₁.state.committed ℓ)) ∧
    (flagOf T h = some true → ∀ ℓ v, .read T ℓ v ∈ h → v = r₁.state.committed ℓ) ∧
    ∀ g g' t U, h = g' ++ .began t T :: g → Ended (beforeCall t g) U →
      (∀ ℓ, lastWrite U ℓ h₁ = lastWrite U ℓ h) ∧ Contains h₁ r₁.state U

section

variable {s₀ s s' : State τ W} {h : List (Event τ W)}

/-- A run that frees nothing marks no segment, and no commit of it has anything to push. -/
theorem hasRoom_of_freesNothing (hrest : s₀.AtRest) (hset : s₀.region.Settled ∅)
    (hr : Run State.step freesNothing s₀ h s) (e : Event τ W) : hasRoom h s e := by
  intro _
  have hshape := (Isolated.run (fun _ _ _ => avoids_of_freesNothing) hrest hset hr).shape
  apply Region.Unmarked.commit
  intro i hi
  by_contra hne
  exact Set.notMem_empty i (hshape.deregistered hi hne)

end

section

variable {r₀ r : Raw τ W} {h : List (Event τ W)}

/-- The run of the library behind a run that frees nothing. -/
theorem Run.toState_of_freesNothing (hcard : Fintype.card τ ≤ MAX_NUM_SEGMENTS)
    (hrest : r₀.state.AtRest) (hset : r₀.state.region.Settled ∅)
    (hr : Run Raw.step (Raw.under freesNothing) r₀ h r) :
    Run State.step freesNothing r₀.state h r.state :=
  hr.toState hcard hrest fun hr _ => hasRoom_of_freesNothing hrest hset hr _

/-- **Snapshot reads**, in every run without `tm_free` of at most `MAX_NUM_SEGMENTS` threads
in which no `tm_alloc` moves the array of segments under a loop. -/
theorem snapshot_reads (hcard : Fintype.card τ ≤ MAX_NUM_SEGMENTS) (hrest : r₀.state.AtRest)
    (hset : r₀.state.region.Settled ∅) (hr : Run Raw.step (Raw.under freesNothing) r₀ h r)
    {T : Txn} (hT : T ∈ begun h) : SnapshotReads (Raw.under freesNothing) r₀ h T := by
  have hraw := hr
  have hr := hraw.toState_of_freesNothing hcard hrest hset
  have hQ : ∀ (h : List (Event τ W)) (s : State τ W) e, freesNothing h s e → e.avoids ∅ :=
    fun _ _ _ => avoids_of_freesNothing
  have hinv := Isolated.run hQ hrest hset hr
  have hle : T.epoch ≤ r.state.epoch := by
    rcases hinv.books.ids.begun_lt hT with hlt | ⟨heq, -⟩
    · exact hlt.le
    · exact heq.le
  obtain ⟨h₂, h₁, s₁, hh, hr₁, hr₂, hst, hep, hmem⟩ :=
    hr.epochStart r₀.state.committed (hr.begun_ge hT) hle
  -- the state of the run with pointers at the start of the epoch
  obtain ⟨r₁, hraw₁, -⟩ := (hh ▸ hraw).split
  have hstate₁ := hraw₁.toState_of_freesNothing hcard hrest hset
  have hep₁ : r₁.state.epoch = T.epoch := (hr₁.epoch_eq hstate₁).trans hep
  have hinv₁ := Isolated.run hQ hrest hset hstate₁
  have hcommitted : ∀ ℓ, epochMem r₀.state.committed T.epoch h ℓ = r₁.state.committed ℓ := by
    intro ℓ
    rw [hmem, hinv₁.committed (Set.notMem_empty _)]
  have hread : ∀ g g' ℓ v, h = g' ++ .read T ℓ v :: g →
      v = (lastWrite T ℓ g).getD (r₁.state.committed ℓ) := by
    intro g g' ℓ v hg
    rw [← hcommitted ℓ]
    subst hg
    exact read_in_run hQ hrest hset hr
  refine ⟨h₂, h₁, r₁, hh, hraw₁, hst, hep₁, hread, fun hro ℓ v hv => ?_,
    fun g g' t U hg hU => ?_⟩
  · obtain ⟨g', g, hg⟩ := List.append_of_mem hv
    have hnone : lastWrite T ℓ h = none := hinv.writes.readOnly hro
    have hg' : h = (g' ++ [.read T ℓ v]) ++ g := by simpa using hg
    rw [hread g g' ℓ v hg, lastWrite_none_of_append (hg' ▸ hnone)]
    rfl
  · have hlt : U.epoch < s₁.epoch := by
      rw [hep]
      rw [hg] at hr
      obtain ⟨s₂, hr₂, -⟩ := hr.split
      obtain ⟨s₃, a, hr₃, hs, hq⟩ := hr₂.last
      exact (step_cases hs).began_after (RealTime.run hrest hr₃) (.run hrest hr₃)
        (hasLeft_iff.mpr (.inl hU))
    have hUh : Ended h U := by
      obtain ⟨b, hb⟩ := hU
      rw [hg]
      exact ⟨b, List.mem_append_right _ (List.mem_cons_of_mem _ (mem_of_beforeCall hb))⟩
    rw [hh] at hUh
    refine ⟨fun ℓ => ?_, (hr₂.ended_append hlt).mp hUh, fun ℓ v hv => ?_⟩
    · rw [hh]
      exact (hr₂.lastWrite_append hlt ℓ).symm
    · obtain ⟨U', hU', -, hor, hv'⟩ :=
        (provenance hQ hrest hset (Set.notMem_empty _) hstate₁).kept
          ((hr₂.ended_append hlt).mp hUh) (by omega) hv
      exact ⟨U', hU', hor, by rw [hv', hinv₁.committed (Set.notMem_empty _)]⟩

end

/-- What two transactions do, the second one called after the first has committed. -/
def writeThenRead : List (Event Bool ℕ) :=
  [.read ⟨1, 0⟩ (0, 0) 5, .silent, .silent, .began false ⟨1, 0⟩, .called false true,
    .ended ⟨0, 0⟩ true, .writeDone ⟨0, 0⟩ 0 0, .wrote ⟨0, 0⟩ (0, 0) 5, .silent, .silent,
    .began true ⟨0, 0⟩, .called true false]

/-- The read-only transaction reads what the other one committed before. -/
theorem snapshot_reads_after_commit :
    ∃ r₁ : Raw Bool ℕ, r₁.state.epoch = 1 ∧ r₁.state.committed (0, 0) = 5 := by
  obtain ⟨h, r, hr, rfl⟩ : ∃ h r,
      Run Raw.step (Raw.under freesNothing) restRaw h r ∧ h = writeThenRead :=
    Run.exists_of_execUnder
      (calmly [.tmBegin true false, .enter true, .setFlag true,
        .tmWrite true (fun _ => 5) 8 getVirtStartAddr, .word true, .word true, .tmEnd true,
        .tmBegin false true, .enter false, .setFlag false, .tmRead false getVirtStartAddr 8,
        .word false]) (by decide +kernel)
  obtain ⟨h₂, h₁, r₁, -, -, -, hep, -, hro, -⟩ :=
    snapshot_reads (T := ⟨1, 0⟩) (by decide) restState_atRest (tmCreate_settled ..) hr (by decide)
  exact ⟨r₁, hep, (hro rfl (0, 0) 5 (by simp [writeThenRead])).symm⟩

/-- **Counterexample.** A read-only transaction reads a word twice. Before the second time a
`tm_alloc` of another thread moves the array of segments, and what is read is in the array
that was released. -/
theorem snapshot_reads_dangling :
    ¬ ∀ (h : List (Event (Fin 3) ℕ)) (r : Raw (Fin 3) ℕ) (T : Txn),
      Run Raw.step (Raw.underMoves freesNothing) threeRaw h r → T ∈ begun h →
      SnapshotReads (Raw.underMoves freesNothing) threeRaw h T := by
  intro hall
  obtain ⟨h, r, hr, hT, hro, hold, hnew⟩ : ∃ h r,
      Run Raw.step (Raw.underMoves freesNothing) threeRaw h r ∧ ⟨1, 0⟩ ∈ begun h ∧
      flagOf ⟨1, 0⟩ h = some true ∧ .read ⟨1, 0⟩ (0, 0) 0 ∈ h ∧ .read ⟨1, 0⟩ (0, 0) 7 ∈ h :=
    Run.exists_of_execUnder
      (fillArray true [.tmRead 1 getVirtStartAddr 8, .word 1, .word 1,
        .tmRead 1 getVirtStartAddr 8] ++
        [(moved { initSegment 8 16 with wordsArrayA := fun _ => 7 }, .tmAlloc 2 8),
          (moved { initSegment 8 16 with wordsArrayA := fun _ => 7 }, .word 1)])
      (by decide +kernel)
  obtain ⟨-, -, r₁, -, -, -, -, -, hsame, -⟩ := hall h r ⟨1, 0⟩ hr hT
  exact absurd ((hsame hro _ _ hold).trans (hsame hro _ _ hnew).symm) (by decide)

end DualStm
