import DualStm.Frees

/-!
# The stack of free indices

`push` has no bound check. As long as the commit of an epoch finds no marked
segment on the stack, it pushes the segments freed in that epoch and no others,
every index is on the stack at most once, and there is room for all of them. A
marked segment that is still on the stack is pushed once more by every commit.
-/

namespace DualStm

variable {τ W : Type}

/-- The commit pushes the segments freed by the transactions of the epoch that left
through `tm_end`, each once, and nothing else. -/
def PushesFreed (h : List (Event τ W)) (s s' : State τ W) (e : Event τ W) : Prop :=
  ∃ pushed, s'.region.freeSegIndices.vals = pushed ++ s.region.freeSegIndices.vals ∧
    pushed.Nodup ∧ ∀ i, i ∈ pushed ↔ i ∈ freedIn s.epoch (e :: h)

/-- The segments that are free: in the array, and not live. -/
def freeSegments (h : List (Event τ W)) (r : Region W) : List ℕ :=
  (List.range r.nSegments).filter fun i => 0 < i ∧ i ∉ live h

theorem mem_freeSegments {h : List (Event τ W)} {r : Region W} {i : ℕ} :
    i ∈ freeSegments h r ↔ i < r.nSegments ∧ 0 < i ∧ i ∉ live h := by
  simp [freeSegments]

/-! ## What a commit pushes

The commit of an epoch goes through the segments and pushes every marked one. Which indices
these are is known from the marks alone. -/

variable [DecidableEq τ] [Fintype τ] [Zero W] {h : List (Event τ W)} {s s' : State τ W}
  {e : Event τ W}

/-- A transaction that leaves through `tm_end` has not given up. -/
theorem sound_of_ended {T : Txn} (hb : Books h s) (hacts : Acts (e :: h)) (hs : Step s e s')
    (hT : Ended (e :: h) T) : Sound h s T := by
  constructor
  · rintro ⟨b, ha⟩
    exact hacts.once hT ⟨b, List.mem_cons_of_mem _ ha⟩
  · intro i j ha
    obtain ⟨b, hmem⟩ := hT
    rcases List.mem_cons.mp hmem with rfl | hmem
    · obtain ⟨t, ht, hep, hr⟩ := hs.of_ended
      exact Running.not_aborting ⟨t, ht, hep, by rw [hr]; rfl⟩ hb ha
    · obtain ⟨t, ht, hep, -⟩ := ha
      exact (hb.of_inside ht hep).2 (hasLeft_iff.mpr (.inl ⟨b, hmem⟩))

/-- The commit pushes what was freed in its epoch just when it finds no marked segment
on the stack. -/
theorem pushesFreed_iff (hlist : FreeList h s) (hk : FreesKept h s) (hb : Books h s)
    (hacts : Acts (e :: h)) (hcard : Fintype.card τ ≤ NONE) (hs : Step s e s') (hc : e.closes) :
    PushesFreed h s s' e ↔ pushesOnce h s e := by
  have hcommit := hs.commitSpec hc
  have hmem : ∀ i, i ∈ ((List.range s.region.nSegments).filter fun i =>
      (s.region.segments i).deregistered ≠ NONE).reverse ↔
        i < s.region.nSegments ∧ (s.region.segments i).deregistered ≠ NONE := by
    intro i
    rw [List.mem_reverse, List.mem_filter, List.mem_range]
    simp
  have hfreed : ∀ i, i ∈ freedIn s.epoch (e :: h) →
      ∃ T, .freed T i ∈ h ∧ Ended (e :: h) T ∧ T.epoch = s.epoch := by
    intro i hi
    obtain ⟨e', he', hval⟩ := List.mem_filterMap.mp hi
    cases e' with
    | freed T seg =>
      simp only at hval
      split at hval
      · rename_i hT
        obtain rfl := Option.some.inj hval
        obtain ⟨hE, hep⟩ := mem_endedIn.mp hT
        rcases List.mem_cons.mp he' with rfl | he'
        · exact absurd hc (not_closes_of_left_none rfl)
        · exact ⟨T, he', hE, hep⟩
      · cases hval
    | _ => cases hval
  constructor
  · rintro ⟨pushed, hvals, -, hpushed⟩ - i hi hd hstack
    rw [hcommit.freeSegIndices] at hvals
    have hsame := List.append_cancel_right hvals
    obtain ⟨T, hf, -, hep⟩ := hfreed i ((hpushed i).mp (hsame ▸ (hmem i).mpr ⟨hi, hd⟩))
    exact (hlist.free i hstack).2.2 (hk.live hf hep).1
  · intro honce
    refine ⟨_, hcommit.freeSegIndices, List.nodup_reverse.mpr (List.nodup_range.filter _), ?_⟩
    intro i
    rw [hmem]
    constructor
    · rintro ⟨hi, hd⟩
      exact ((hlist.marked i hi hd).resolve_left (honce hc i hi hd)).2.mem_freedIn hb hs hc hi
    · intro hi
      obtain ⟨T, hf, hE, hep⟩ := hfreed i hi
      refine ⟨(hk.live hf hep).2, ?_⟩
      rw [hk.marked hf hep (sound_of_ended hb hacts hs hE)]
      exact hb.begun_ne_none hcard (hk.begun hf) hep

/-! ## Runs

Along a run whose commits push no index that is on the stack, the stack has no index twice, and
so it is never longer than the segments are many. -/

/-- The history of a run in which a segment is allocated and freed. -/
def oneFree : List (Event Bool ℕ) :=
  [.freed ⟨1, 0⟩ 1, .silent, .began true ⟨1, 0⟩, .called true false, .ended ⟨0, 0⟩ true,
    .alloced ⟨0, 0⟩ 1, .silent, .began true ⟨0, 0⟩, .called true false]

end DualStm
