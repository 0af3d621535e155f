import DualStm.Snapshot

/-!
# All-or-nothing commit

The leave that ends an epoch commits the writes of the transactions that left
through `tm_end`, all of them, and nothing else: whoever it is that leaves last,
and whatever aborted transactions left behind in the writable copies.

A `tm_write` whose segment is moved by a `tm_alloc` before its loop comes to the word
writes into the array that was released: its transaction commits, and the word stays as
it was.
-/

namespace DualStm

variable {τ W : Type} [DecidableEq τ] [Fintype τ] [Zero W]

/-- What an epoch that is over makes of a word: at most one transaction of the
epoch that left through `tm_end` wrote it, its last write is the committed value,
and without one the word stays as it was. -/
structure CommitsWord (h : List (Event τ W)) (s s' : State τ W) (ℓ : Loc) : Prop where
  /-- at most one transaction of the epoch has written the word -/
  unique : ∀ {U U' v v'}, Ended h U → U.epoch = s.epoch → lastWrite U ℓ h = some v →
    Ended h U' → U'.epoch = s.epoch → lastWrite U' ℓ h = some v' → U = U'
  /-- all of its write -/
  all : ∀ {U v}, Ended h U → U.epoch = s.epoch → lastWrite U ℓ h = some v →
    s'.committed ℓ = v
  /-- if no transaction of the epoch has written the word, nothing happens to it -/
  nothing : (∀ U, Ended h U → U.epoch = s.epoch → lastWrite U ℓ h = none) →
    s'.committed ℓ = s.committed ℓ

/-- At a commit every word comes to what its transaction has written there, or stays as it was. -/
theorem commitsWord {m₀ : Loc → W} {dead : Set ℕ} {h : List (Event τ W)} {s s' : State τ W}
    {e : Event τ W} (hi : Isolated m₀ dead h s) (hi' : Isolated m₀ dead (e :: h) s')
    (hs : Step s e s') (hc : e.closes) {ℓ : Loc} (hd : ℓ.1 ∉ dead) :
    CommitsWord (e :: h) s s' ℓ := by
  rcases hs.epoch with ⟨hn, -⟩ | ⟨⟨id, hl⟩, -, hep⟩
  · exact absurd hc hn
  have hmem : committedMem m₀ (e :: h) ℓ =
      (committedWrite s.epoch ℓ (e :: h)).getD (committedMem m₀ h ℓ) := committedMem_closing hl
  have huniq : ∀ {U U' v v'}, Ended (e :: h) U → U.epoch = s.epoch →
      lastWrite U ℓ (e :: h) = some v → Ended (e :: h) U' → U'.epoch = s.epoch →
      lastWrite U' ℓ (e :: h) = some v' → U = U' := fun hU hUep hUv hU' hUep' hUv' =>
    hi'.unique_writer hd (hUep.trans hUep'.symm) (by omega) hU hUv hU' hUv'
  refine ⟨huniq, ?_, ?_⟩
  · intro U v hU hUep hUv
    rw [hi'.committed hd, hmem, committedWrite_eq_some hU hUep hUv]
    · rfl
    · intro U' w hU' hUep' hUw
      rw [huniq hU' hUep' hUw hU hUep hUv, hUv] at hUw
      exact (Option.some.inj hUw).symm
  · intro hnone
    rw [hi'.committed hd, hi.committed hd, hmem,
      committedWrite_eq_none fun hU hUep => hnone _ hU hUep]
    rfl

section

variable {r₀ r r' : Raw τ W} {h : List (Event τ W)} {c : Chance W} {a : Action τ W}
  {e : Event τ W}

/-- **All-or-nothing commit.** After any step of a run without `tm_free`, of at most
`MAX_NUM_SEGMENTS` threads, in which no `tm_alloc` moves the array of segments under a
loop: nobody both ended and aborted; committed values change only when an epoch ends, and
then as `CommitsWord` says; a committed value is the initial one or the last write of
a transaction that left through `tm_end`; and a read returns the reader's own
last write or the committed value. -/
theorem all_or_nothing (hcard : Fintype.card τ ≤ MAX_NUM_SEGMENTS) (hrest : r₀.state.AtRest)
    (hset : r₀.state.region.Settled ∅) (hr : Run Raw.step (Raw.under freesNothing) r₀ h r)
    (hs : r.step (c, a) = some (r', e)) (hq : Raw.under freesNothing h r e) :
    (∀ U, Ended (e :: h) U → ¬ Aborted (e :: h) U) ∧
      (¬ e.closes → ∀ ℓ, r'.state.committed ℓ = r.state.committed ℓ) ∧
      (e.closes → ∀ ℓ, CommitsWord (e :: h) r.state r'.state ℓ) ∧
      (∀ ℓ, r'.state.committed ℓ = r₀.state.committed ℓ ∨
        ∃ U, Ended (e :: h) U ∧ U.epoch < r'.state.epoch ∧
          lastWrite U ℓ (e :: h) = some (r'.state.committed ℓ)) ∧
      ∀ T ℓ v, e = .read T ℓ v → v = (lastWrite T ℓ h).getD (r.state.committed ℓ) := by
  have hQ : ∀ (h : List (Event τ W)) (s : State τ W) e, freesNothing h s e → e.avoids ∅ :=
    fun _ _ _ => avoids_of_freesNothing
  have hr := hr.toState_of_freesNothing hcard hrest hset
  have hs := hr.sound hcard hrest hq.1 (hasRoom_of_freesNothing hrest hset hr e) hs
  have he := hq.2
  have hi := Isolated.run hQ hrest hset hr
  have hi' := Isolated.run hQ hrest hset (hr.next hs he)
  have hstep := step_cases hs
  have hlive : ∀ ℓ : Loc, ℓ.1 ∉ (∅ : Set ℕ) := fun _ => Set.notMem_empty _
  refine ⟨fun U => hi'.writes.once, fun hc ℓ => ?_,
    fun hc ℓ => commitsWord hi hi' hstep hc (hlive ℓ), fun ℓ => ?_, fun T ℓ v hv => ?_⟩
  · rw [hi'.committed (hlive ℓ), hi.committed (hlive ℓ), committedMem_cons hc]
  · rw [hi'.committed (hlive ℓ)]
    exact (provenance hQ hrest hset (hlive ℓ) (hr.next hs he)).source
  · subst hv
    obtain ⟨hep, hv⟩ := hi.read hstep (hlive ℓ)
    rw [hv, hep, hi.words.mem, hi.committed (hlive ℓ)]

end

/-- The writes of the only transaction of an epoch are committed by its own leave. -/
theorem all_or_nothing_writer :
    ∃ (h : List (Event Bool ℕ)) (r r' : Raw Bool ℕ),
      Run Raw.step (Raw.under freesNothing) restRaw h r ∧
      r.step (calm, .tmEnd true) = some (r', .ended ⟨0, 0⟩ true) ∧
      r'.state.committed (0, 0) = 5 := by
  have hr : Run Raw.step (Raw.under freesNothing) restRaw
      [.writeDone ⟨0, 0⟩ 0 0, .wrote ⟨0, 0⟩ (0, 0) 5, .silent, .silent, .began true ⟨0, 0⟩,
        .called true false] _ :=
    Run.start.of_execUnder_eq (calmly [.tmBegin true false, .enter true, .setFlag true,
      .tmWrite true (fun _ => 5) 8 getVirtStartAddr, .word true, .word true]) rfl
  obtain ⟨-, -, hc, -, -⟩ := all_or_nothing (by decide) restState_atRest (tmCreate_settled ..) hr
    (c := calm) (a := .tmEnd true) rfl (by decide +kernel)
  exact ⟨_, _, _, hr, rfl, (hc ⟨⟨0, 0⟩, rfl⟩ (0, 0)).all (U := ⟨0, 0⟩) ⟨true, .head _⟩ rfl rfl⟩

/-- **Counterexample.** The array of segments is moved between the call of a `tm_write` and
its turn. Its transaction leaves through `tm_end`, and the epoch does not commit the write. -/
theorem all_or_nothing_dangling :
    ¬ ∀ (h : List (Event (Fin 3) ℕ)) (r r' : Raw (Fin 3) ℕ) (c : Chance ℕ) (a : Action (Fin 3) ℕ)
      (e : Event (Fin 3) ℕ), Run Raw.step (Raw.underMoves freesNothing) threeRaw h r →
      r.step (c, a) = some (r', e) → Raw.underMoves freesNothing h r e → e.closes →
      ∀ ℓ, CommitsWord (e :: h) r.state r'.state ℓ := by
  intro hall
  obtain ⟨h, r, hr, hwrote, hended, hep, hstep⟩ : ∃ h r,
      Run Raw.step (Raw.underMoves freesNothing) threeRaw h r ∧
      lastWrite ⟨1, 0⟩ (0, 0) h = some 5 ∧ .ended ⟨1, 0⟩ false ∈ h ∧ r.state.epoch = 1 ∧
      (r.step (calm, .tmEnd 2)).map (fun p => (p.2, p.1.state.committed (0, 0))) =
        some (.ended ⟨1, 1⟩ true, 0) :=
    Run.exists_of_execUnder
      (fillArray false [.tmWrite 1 (fun _ => 5) 8 getVirtStartAddr] ++
        [(moved (initSegment 8 16), .tmAlloc 2 8), (moved (initSegment 8 16), .word 1)] ++
        calmly [.word 1, .tmEnd 1])
      (by decide +kernel)
  obtain ⟨⟨r', e⟩, hs, hp⟩ := Option.map_eq_some_iff.mp hstep
  obtain ⟨rfl, hzero⟩ := Prod.mk.inj hp
  have hq : Raw.underMoves freesNothing h r (.ended ⟨1, 1⟩ true) := by
    refine ⟨⟨?_, ?_⟩, rfl⟩
    · rintro ℓ ⟨⟩
    · rintro t T ⟨⟩
  have hword := (hall h r r' calm (.tmEnd 2) _ hr hs hq ⟨_, rfl⟩ (0, 0)).all (U := ⟨1, 0⟩)
    ⟨false, List.mem_cons_of_mem _ hended⟩ hep.symm (by simpa [lastWrite] using hwrote)
  exact absurd (hzero.symm.trans hword) (by decide)

end DualStm
