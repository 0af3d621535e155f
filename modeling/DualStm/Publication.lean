import DualStm.Locks
import Mathlib.Data.Fintype.Basic

/-!
# When a segment is published

`add_segment` counts a new segment in `n_segments` before it initialises it, under a lock
that the loop of `abort_transaction_tx` does not take when it reads that bound. So an index
below `n_segments` denotes a segment whose `init_segment` has completed exactly while no
thread stands between the two; the same goes for an index that is used again.

`PubMove` says what a statement does to the segments in use. The critical section makes
the publications of different threads exclude each other, and `PubInv` follows one of them
through `init_segment`. The last part is about the fields an abort reads: what it looks at
is initialised unless the segment is being published meanwhile, or the array has moved.
-/

namespace DualStm

/-- The segment that is counted in `n_segments`, or popped off the stack, by a thread that
has not initialised it yet. -/
def Pc.publishing : Pc → Option ℕ
  | .alloc _ (.grow idx) => some idx
  | .alloc _ (.init _ i _) => some i
  | _ => none

/-- The index that is about to be counted. -/
def Pc.counting : Pc → Option ℕ
  | .alloc _ (.count idx) => some idx
  | _ => none

/-- The segment an abort has a pointer to, and the array the pointer leads into. -/
def Pc.looking : Pc → Option (ℕ × ℕ)
  | .abort _ (.bound i _ array) | .abort _ (.entry i _ array) => some (i, array)
  | .abort _ (.acquire i array) | .abort _ (.undo i array) => some (i, array)
  | _ => none

/-- What is initialised at a statement of `init_segment`. -/
def InitPc.Done : InitPc → Known → Prop
  | .align, _ | .nWords, _ => True
  | .deregistered, k => k.nWords = true
  | .word j, k => k.nWords = true ∧ k.deregistered = true ∧ j ≤ k.words
  | _, k => k.nWords = true ∧ k.deregistered = true

/-- All the fields of a segment of `n` words are initialised. -/
structure Known.Covers (k : Known) (n : ℕ) : Prop where
  /-- `n_words` -/
  nWords : k.nWords = true
  /-- `deregistered` -/
  deregistered : k.deregistered = true
  /-- the control entries -/
  words : n ≤ k.words

/-- Publication is inside the critical section. -/
theorem Pc.inside_of_publishing {p : Pc} {i : ℕ} (hp : p.publishing = some i) :
    p.inside = true := by
  unfold Pc.publishing at hp
  split at hp
  · rfl
  · rfl
  · cases hp

theorem Pc.inside_of_counting {p : Pc} {i : ℕ} (hp : p.counting = some i) :
    p.inside = true := by
  unfold Pc.counting at hp
  split at hp
  · rfl
  · cases hp

section

variable {τ : Type}

/-- The last call of `init_segment` on a segment has returned `true`. `tm_create` has
initialised the first one. -/
def Completed (i : ℕ) : List (Effect τ) → Prop
  | [] => i = 0
  | .initBegun _ k :: h => k ≠ i ∧ Completed i h
  | .initDone _ k :: h => k = i ∨ Completed i h
  | _ :: h => Completed i h

@[simp] theorem completed_silent (i : ℕ) (h : List (Effect τ)) :
    Completed i (.silent :: h) ↔ Completed i h := .rfl

@[simp] theorem completed_initBegun (t : τ) (i k : ℕ) (h : List (Effect τ)) :
    Completed i (.initBegun t k :: h) ↔ k ≠ i ∧ Completed i h := .rfl

@[simp] theorem completed_initDone (t : τ) (i k : ℕ) (h : List (Effect τ)) :
    Completed i (.initDone t k :: h) ↔ k = i ∨ Completed i h := .rfl

/-- An allocation of the statement has failed. -/
def Effect.failed : Effect τ → Bool
  | .reallocFailed _ => true
  | .initFailed _ _ _ => true
  | _ => false

/-- The segment whose field an abort read, and whether it was initialised. -/
def Effect.lookedAt : Effect τ → Option (ℕ × Bool)
  | .looked _ i known => some (i, known)
  | _ => none

/-- `tm_free` found the mark of its own transaction. -/
def Effect.foundOwn : Effect τ → Bool
  | .ownMark _ _ => true
  | _ => false

end

variable {τ W : Type}

/-- Nothing is published between the two states: no segment is counted, initialised or resized,
and the stack has segments in use only. -/
structure SameSegments (s s' : Machine τ W) : Prop where
  /-- no segment is counted -/
  nSegments : s'.region.nSegments = s.region.nSegments
  /-- none is initialised -/
  known : s'.known = s.known
  /-- none changes its length -/
  nWords : ∀ i, (s'.region.segments i).nWords = (s.region.segments i).nWords
  /-- freed segments are segments in use -/
  stack : ∀ i ∈ s'.region.freeSegIndices.vals,
    i ∈ s.region.freeSegIndices.vals ∨ i < s.region.nSegments

namespace SameSegments

variable {s s' : Machine τ W}

theorem of_region (hr : s'.region = s.region) (hk : s'.known = s.known) : SameSegments s s' :=
  ⟨by rw [hr], hk, fun i => by rw [hr], fun i hi => .inl (by rwa [← hr])⟩

theorem setSegment {i : ℕ} {segment : Segment W}
    (hn : segment.nWords = (s.region.segments i).nWords) :
    SameSegments s { s with region := s.region.setSegment i segment } := by
  refine ⟨rfl, rfl, ?_, fun k hk => .inl hk⟩
  intro k
  obtain rfl | hk := eq_or_ne k i
  · rw [Region.setSegment_self, hn]
  · rw [Region.setSegment_ne _ _ hk]

theorem store {i : ℕ} {segment : Segment W}
    (hn : segment.nWords = (s.region.segments i).nWords) :
    SameSegments s (s.store i segment (s.known i)) := by
  have hsame := setSegment hn
  exact ⟨rfl, Function.update_eq_self .., hsame.nWords, hsame.stack⟩

theorem moveTo [DecidableEq τ] (hr : SameSegments s s') (t : τ) (p : Pc) :
    SameSegments s (s'.moveTo t p) :=
  ⟨hr.nSegments, hr.known, hr.nWords, hr.stack⟩

theorem undoFree (tx i : ℕ) :
    SameSegments s { s with region := undoFree s.region tx i } := by
  unfold DualStm.undoFree
  split
  · exact setSegment rfl
  · exact of_region rfl rfl

theorem leave [DecidableEq τ] {t : τ} {p : Pc} {e : Effect τ} (hs : s.leave t p = some (s', e)) :
    SameSegments s s' := by
  simp only [Machine.leave] at hs
  split at hs
  · obtain ⟨r, hcommit, he⟩ := Option.map_eq_some_iff.mp hs
    obtain ⟨rfl, rfl⟩ := Prod.mk.inj he
    have hc := commitTranscationsInEpoch_spec hcommit
    refine ⟨hc.nSegments, rfl, ?_, ?_⟩
    · intro i
      simp only [hc.segments i]
      split <;> rfl
    · intro i hi
      simp only [hc.freeSegIndices, List.mem_append, List.mem_reverse, List.mem_filter,
        List.mem_range] at hi
      exact hi.symm.imp id And.left
  · obtain ⟨rfl, rfl⟩ := Prod.mk.inj (Option.some.inj hs)
    exact of_region rfl rfl

end SameSegments

/-- What an abort reads, and where it goes. -/
structure Looks (t : τ) (s s' : Machine τ W) (e : Effect τ) : Prop where
  /-- an abort gets pointers to segments in use only -/
  looking : ∀ i array, (s'.pc t).looking = some (i, array) →
    (s.pc t).looking = some (i, array) ∨ i < s.region.nSegments
  /-- an abort comes to the control entries below `n_words` -/
  entry : ∀ tx i j array, s'.pc t = .abort tx (.entry i j array) →
    j < (s'.region.segments i).nWords
  /-- an abort reads through its pointer -/
  looked : ∀ i k, e.lookedAt = some (i, k) → ∃ array, (s.pc t).looking = some (i, array) ∧
    (array = s.array → (s.known i).Covers (s.region.segments i).nWords →
      (∀ tx j, s.pc t = .abort tx (.entry i j array) → j < (s.region.segments i).nWords) →
      k = true)

theorem Looks.nowhere {t : τ} {s s' : Machine τ W} {e : Effect τ}
    (hl : (s'.pc t).looking = none) (he : e.lookedAt = none) : Looks t s s' e := by
  refine ⟨?_, ?_, ?_⟩
  · intro i array hi
    rw [hl] at hi
    cases hi
  · intro tx i j array hp
    rw [hp] at hl
    cases hl
  · intro i k hk
    rw [he] at hk
    cases hk

/-- What a statement of thread `t` does to the segments in use, its allocations
succeeding. -/
inductive PubMove (t : τ) (s s' : Machine τ W) (e : Effect τ) : Prop where
  /-- nothing -/
  | idle (hr : SameSegments s s') (hp : (s.pc t).publishing = none)
      (hp' : (s'.pc t).publishing = none)
      (hc : ∀ idx, (s'.pc t).counting = some idx → idx = s.region.nSegments)
      (hl : Looks t s s' e) (he : ∀ i h, Completed i (e :: h) ↔ Completed i h)
  /-- a segment is counted -/
  | count (size idx : ℕ) (hp : s.pc t = .alloc size (.count idx))
      (hp' : s'.pc t = .alloc size (.grow idx))
      (hr : s'.region = { s.region with nSegments := s.region.nSegments + 1 })
      (hk : s'.known = s.known) (he : e = .silent)
  /-- `init_segment` is called on a segment that is counted or popped -/
  | call (size i : ℕ) (reused : Bool)
      (hp : (s.pc t).publishing = some i ∨
        (s.pc t).publishing = none ∧ i ∈ s.region.freeSegIndices.vals)
      (hin : (s.pc t).inside = true)
      (hp' : s'.pc t = .alloc size (.init reused i .align))
      (hn : s'.region.nSegments = s.region.nSegments)
      (hseg : s'.region.segments = s.region.segments)
      (hstack : ∀ k ∈ s'.region.freeSegIndices.vals, k ∈ s.region.freeSegIndices.vals)
      (hk : s'.known = s.known) (he : e = .initBegun t i)
  /-- `init_segment` goes on -/
  | init (size i : ℕ) (reused : Bool) (pc pc' : InitPc)
      (hp : s.pc t = .alloc size (.init reused i pc))
      (hp' : s'.pc t = .alloc size (.init reused i pc'))
      (hn : s'.region.nSegments = s.region.nSegments)
      (hstack : s'.region.freeSegIndices = s.region.freeSegIndices)
      (hother : ∀ k, k ≠ i → s'.known k = s.known k ∧
        (s'.region.segments k).nWords = (s.region.segments k).nWords)
      (hdone : pc.Done (s.known i) → pc'.Done (s'.known i)) (he : e = .silent)
  /-- `init_segment` returns -/
  | done (size i j : ℕ) (reused : Bool) (hp : s.pc t = .alloc size (.init reused i (.word j)))
      (hj : ¬ j < (s.region.segments i).nWords) (hp' : s'.pc t = .alloc size (.release i))
      (hr : s'.region = s.region) (hk : s'.known = s.known) (he : e = .initDone t i)

section

variable {t : τ} {s s' : Machine τ W} {e : Effect τ}

/-- Only a step of an abort looks at segments. -/
theorem PubMove.looks (hm : PubMove t s s' e) : Looks t s s' e := by
  cases hm with
  | idle _ _ _ _ hl _ => exact hl
  | count size idx hp hp' hr hk he => exact .nowhere (by rw [hp']; rfl) (by rw [he]; rfl)
  | call size i reused hp hin hp' hn hseg hstack hk he =>
    exact .nowhere (by rw [hp']; rfl) (by rw [he]; rfl)
  | init size i reused pc pc' hp hp' hn hstack hframe hdone he =>
    exact .nowhere (by rw [hp']; rfl) (by rw [he]; rfl)
  | done size i j reused hp hj hp' hr hk he =>
    exact .nowhere (by rw [hp']; rfl) (by rw [he]; rfl)

/-- A segment nobody publishes stays as long as it is. -/
theorem PubMove.nWords (hm : PubMove t s s' e) {i : ℕ} (hi : (s.pc t).publishing ≠ some i) :
    (s'.region.segments i).nWords = (s.region.segments i).nWords := by
  cases hm with
  | idle hr _ _ _ _ _ => exact hr.nWords i
  | count size idx hp hp' hr hk he => rw [hr]
  | call size k reused hp hin hp' hn hseg hstack hk he => rw [hseg]
  | init size k reused pc pc' hp hp' hn hstack hframe hdone he =>
    have hne : i ≠ k := by
      rintro rfl
      exact hi (by rw [hp]; rfl)
    exact (hframe i hne).2
  | done size k j reused hp hj hp' hr hk he => rw [hr]

/-- A segment never goes out of use. -/
theorem PubMove.nSegments_le (hm : PubMove t s s' e) :
    s.region.nSegments ≤ s'.region.nSegments := by
  cases hm with
  | idle hr _ _ _ _ _ => exact hr.nSegments.ge
  | count size idx hp hp' hr hk he =>
    rw [hr]
    exact Nat.le_succ _
  | call size k reused hp hin hp' hn hseg hstack hk he => exact hn.ge
  | init size k reused pc pc' hp hp' hn hstack hframe hdone he => exact hn.ge
  | done size k j reused hp hj hp' hr hk he => rw [hr]

end

namespace PubMove

variable [DecidableEq τ] {t : τ} {s s' : Machine τ W} {e : Effect τ} {p p' : Pc}

/-- A statement that has nothing to do with publication. -/
theorem quiet (hp : s.pc t = p) (hpc : s'.pc = Function.update s.pc t p')
    (hr : SameSegments s s') (hpub : p.publishing = none) (hpub' : p'.publishing = none)
    (hc : p'.counting = none) (hl : p'.looking = none) (hle : e.lookedAt = none)
    (he : ∀ i h, Completed i (e :: h) ↔ Completed i h) : PubMove t s s' e := by
  subst hp
  refine .idle hr hpub ?_ ?_ (.nowhere ?_ hle) he
  · rw [hpc, Function.update_self, hpub']
  · rw [hpc, Function.update_self, hc]
    exact nofun
  · rw [hpc, Function.update_self, hl]

/-- A statement of a thread that stays where it is. -/
theorem stay (hpc : s'.pc = s.pc) (hr : SameSegments s s') (hpub : (s.pc t).publishing = none)
    (hc : (s.pc t).counting = none) (hl : (s.pc t).looking = none) (he : e = .silent) :
    PubMove t s s' e := by
  subst he
  have hupd : s'.pc = Function.update s.pc t (s.pc t) := by rw [hpc, Function.update_eq_self]
  exact quiet rfl hupd hr hpub hpub hc hl rfl fun _ _ => .rfl

/-- A `lock_acquire` publishes nothing. -/
theorem acquire (hp : s.pc t = p) (hs : s.acquire t p' = some (s', e))
    (hpub : p.publishing = none) (hpub' : p'.publishing = none) (hc : p'.counting = none)
    (hl : p'.looking = p.looking) (hne : ∀ tx i j array, p' ≠ .abort tx (.entry i j array)) :
    PubMove t s s' e := by
  subst hp
  unfold Machine.acquire at hs
  split at hs
  · obtain ⟨rfl, rfl⟩ := Prod.mk.inj (Option.some.inj hs)
    refine .idle (.of_region rfl rfl) hpub ?_ ?_ ⟨?_, ?_, fun i b hi => by cases hi⟩ fun _ _ => .rfl
    · simpa only [Machine.moveTo, Function.update_self] using hpub'
    · simp only [Machine.moveTo, Function.update_self, hc]
      rintro idx ⟨⟩
    · simp only [Machine.moveTo, Function.update_self, hl]
      exact fun i array => .inl
    · simp only [Machine.moveTo, Function.update_self]
      exact fun tx i j array hp => absurd hp (hne tx i j array)
  · cases hs

/-- A `lock_release` publishes nothing. -/
theorem release (hp : s.pc t = p) (hs : s.release t p' = some (s', e))
    (hpub : p.publishing = none) (hpub' : p'.publishing = none) (hc : p'.counting = none)
    (hl : p'.looking = none) : PubMove t s s' e := by
  obtain ⟨rfl, rfl⟩ := Prod.mk.inj (Option.some.inj hs)
  exact quiet hp rfl (.of_region rfl rfl) hpub hpub' hc hl rfl fun _ _ => .rfl

/-- The sections of `leave_batcher` publish nothing but the indices that a commit pushes. -/
theorem leave (hp : s.pc t = p) (hs : s.leave t p' = some (s', e))
    (hpub : p.publishing = none) (hpub' : p'.publishing = none) (hc : p'.counting = none)
    (hl : p'.looking = none) : PubMove t s s' e := by
  have hr := SameSegments.leave hs
  simp only [Machine.leave] at hs
  split at hs
  · obtain ⟨r, -, he⟩ := Option.map_eq_some_iff.mp hs
    obtain ⟨rfl, rfl⟩ := Prod.mk.inj he
    exact quiet hp rfl hr hpub hpub' hc hl rfl fun _ _ => .rfl
  · obtain ⟨rfl, rfl⟩ := Prod.mk.inj (Option.some.inj hs)
    exact quiet hp rfl hr hpub hpub' hc hl rfl fun _ _ => .rfl

end PubMove

/-! ## The statements, function by function

Each statement is shown to be one of the few steps that publication is about: to count a
segment, to go through `init_segment`, to look at a segment, or none of these. -/

section

variable [DecidableEq τ] {s s' : Machine τ W} {t : τ} {e : Effect τ}

/-- Every statement of `init_segment` writes a part of the segment that is being published. -/
theorem pubMove_goInit [Zero W] {size i : ℕ} {reused granted : Bool} {pc : InitPc}
    (hp : s.pc t = .alloc size (.init reused i pc))
    (hs : s.goInit t size reused i granted pc = (s', e)) (hok : e.failed = false) :
    PubMove t s s' e := by
  -- a store to the segment, on the way to the next statement
  have hstore : ∀ {segment : Segment W} {k : Known} {pc' : InitPc},
      (pc.Done (s.known i) → pc'.Done k) →
      PubMove t s ((s.store i segment k).moveTo t (.alloc size (.init reused i pc'))) .silent := by
    intro segment k pc' hdone
    refine .init size i reused pc pc' hp (Function.update_self ..) rfl rfl ?_ ?_ rfl
    · intro j hj
      exact ⟨Function.update_of_ne hj _ _,
        congrArg Segment.nWords (Region.setSegment_ne _ _ hj)⟩
    · simpa only [Machine.moveTo, Machine.store, Function.update_self] using hdone
  have hfail : ∀ {s₁ : Machine τ W}, s₁.initFail t size reused i = (s', e) →
      PubMove t s s' e := by
    intro s₁ hs
    obtain ⟨rfl, rfl⟩ := Prod.mk.inj hs
    cases hok
  cases pc with
  | align =>
    obtain ⟨rfl, rfl⟩ := Prod.mk.inj hs
    exact hstore id
  | nWords =>
    obtain ⟨rfl, rfl⟩ := Prod.mk.inj hs
    exact hstore fun _ => rfl
  | deregistered =>
    obtain ⟨rfl, rfl⟩ := Prod.mk.inj hs
    exact hstore fun hn => ⟨hn, rfl⟩
  | wordsArrayA | wordsArrayB =>
    simp only [Machine.goInit] at hs
    split at hs
    · obtain ⟨rfl, rfl⟩ := Prod.mk.inj hs
      exact hstore id
    · exact hfail hs
  | control =>
    simp only [Machine.goInit] at hs
    split at hs
    · obtain ⟨rfl, rfl⟩ := Prod.mk.inj hs
      exact hstore id
    · exact hfail hs
  | controlLock =>
    simp only [Machine.goInit] at hs
    split at hs
    · obtain ⟨rfl, rfl⟩ := Prod.mk.inj hs
      exact .init size i reused .controlLock (.word 0) hp (Function.update_self ..) rfl rfl
        (fun j _ => ⟨rfl, rfl⟩) (fun hd => ⟨hd.1, hd.2, Nat.zero_le _⟩) rfl
    · exact hfail hs
  | word j =>
    simp only [Machine.goInit] at hs
    split at hs
    · obtain ⟨rfl, rfl⟩ := Prod.mk.inj hs
      exact hstore fun hd => ⟨hd.1, hd.2.1, le_rfl⟩
    · rename_i hj
      obtain ⟨rfl, rfl⟩ := Prod.mk.inj hs
      exact .done size i j reused hp hj (Function.update_self ..) rfl rfl rfl

/-- Every statement of `tm_alloc` that does not fail is a step of publication. -/
theorem pubMove_goAlloc [Zero W] {size : ℕ} {granted : Bool} {pc : AllocPc}
    (hp : s.pc t = .alloc size pc) (hs : s.goAlloc t size granted pc = some (s', e))
    (hok : e.failed = false) : PubMove t s s' e := by
  cases pc with
  | acquire => exact .acquire hp hs rfl rfl rfl rfl nofun
  | pop =>
    simp only [Machine.goAlloc] at hs
    split at hs
    · obtain ⟨rfl, rfl⟩ := Prod.mk.inj (Option.some.inj hs)
      exact .quiet hp rfl (.of_region rfl rfl) rfl rfl rfl rfl rfl fun _ _ => .rfl
    · rename_i i stack hpop
      obtain ⟨rfl, rfl⟩ := Prod.mk.inj (Option.some.inj hs)
      have hvals : s.region.freeSegIndices.vals = i :: stack.vals := by
        unfold pop at hpop
        split at hpop
        · cases hpop
        · rename_i k vals hv
          obtain ⟨hk, rfl⟩ := Prod.mk.inj hpop
          rw [hv, Option.some.inj hk]
      refine .call size i true (.inr ⟨by rw [hp]; rfl, by simp [hvals]⟩) (by rw [hp]; rfl)
        (Function.update_self ..) rfl rfl (fun k hk => ?_) rfl rfl
      rw [hvals]
      exact List.mem_cons_of_mem _ hk
  | index =>
    obtain ⟨rfl, rfl⟩ := Prod.mk.inj (Option.some.inj hs)
    refine .idle (.of_region rfl rfl) (by rw [hp]; rfl) ?_ ?_ (.nowhere ?_ rfl) fun _ _ => .rfl
    · simp [Machine.moveTo, Pc.publishing]
    · simp [Machine.moveTo, Pc.counting, eq_comm]
    · simp [Machine.moveTo, Pc.looking]
  | count idx =>
    obtain ⟨rfl, rfl⟩ := Prod.mk.inj (Option.some.inj hs)
    exact .count size idx hp (Function.update_self ..) rfl rfl rfl
  | grow idx =>
    have hpub : (s.pc t).publishing = some idx := by rw [hp]; rfl
    have hin : (s.pc t).inside = true := by rw [hp]; rfl
    simp only [Machine.goAlloc] at hs
    split at hs
    · split at hs
      · obtain ⟨rfl, rfl⟩ := Prod.mk.inj (Option.some.inj hs)
        exact .call size idx false (.inl hpub) hin (Function.update_self ..) rfl rfl
          (fun _ => id) rfl rfl
      · obtain ⟨rfl, rfl⟩ := Prod.mk.inj (Option.some.inj hs)
        cases hok
    · obtain ⟨rfl, rfl⟩ := Prod.mk.inj (Option.some.inj hs)
      exact .call size idx false (.inl hpub) hin (Function.update_self ..) rfl rfl
        (fun _ => id) rfl rfl
  | init reused i pc => exact pubMove_goInit hp (Option.some.inj hs) hok
  | release segmentIndex => exact .release hp hs rfl rfl rfl rfl

/-- Every statement of `tm_free` is a step of publication. -/
theorem pubMove_goFree {tx i : ℕ} {pc : FreePc} (hp : s.pc t = .free tx i pc)
    (hs : s.goFree t tx i pc = some (s', e)) : PubMove t s s' e := by
  cases pc with
  | acquire => exact .acquire hp hs rfl rfl rfl rfl nofun
  | test | retest =>
    simp only [Machine.goFree] at hs
    split at hs <;> obtain ⟨rfl, rfl⟩ := Prod.mk.inj (Option.some.inj hs) <;>
      exact .quiet hp rfl (.of_region rfl rfl) rfl rfl rfl rfl rfl fun _ _ => .rfl
  | mark =>
    obtain ⟨rfl, rfl⟩ := Prod.mk.inj (Option.some.inj hs)
    refine .quiet hp rfl (.moveTo (.store ?_) ..) rfl rfl rfl rfl rfl fun _ _ => .rfl
    rfl
  | release | releaseFound | releaseAgain => exact .release hp hs rfl rfl rfl rfl

/-- Every statement of `abort_transaction_tx` is a step of publication. -/
theorem pubMove_goAbort {tx : ℕ} {pc : AbortPc} (hp : s.pc t = .abort tx pc)
    (hs : s.goAbort t tx pc = some (s', e)) : PubMove t s s' e := by
  have hpub : (s.pc t).publishing = none := by rw [hp]; rfl
  cases pc with
  | loop i =>
    simp only [Machine.goAbort] at hs
    split at hs
    · rename_i hlt
      obtain ⟨rfl, rfl⟩ := Prod.mk.inj (Option.some.inj hs)
      refine .idle (.of_region rfl rfl) hpub ?_ ?_ ⟨?_, ?_, fun i b hi => by cases hi⟩
        fun _ _ => .rfl
      · simp [Machine.moveTo, Pc.publishing]
      · simp [Machine.moveTo, Pc.counting]
      · simp only [Machine.moveTo, Function.update_self, Pc.looking, Option.some.injEq,
          Prod.mk.injEq]
        rintro k array ⟨rfl, -⟩
        exact .inr hlt
      · simp [Machine.moveTo]
    · obtain ⟨rfl, rfl⟩ := Prod.mk.inj (Option.some.inj hs)
      exact .quiet hp rfl (.of_region rfl rfl) rfl rfl rfl rfl rfl fun _ _ => .rfl
  | bound i j array =>
    obtain ⟨rfl, rfl⟩ := Prod.mk.inj (Option.some.inj hs)
    refine .idle (.of_region rfl rfl) hpub ?_ ?_ ⟨?_, ?_, ?_⟩ fun _ _ => .rfl
    · simp only [Machine.moveTo, Function.update_self]
      split <;> rfl
    · simp only [Machine.moveTo, Function.update_self]
      split <;> rintro idx ⟨⟩
    · simp only [Machine.moveTo, Function.update_self, hp]
      split <;> exact fun k array => .inl
    · simp only [Machine.moveTo, Function.update_self]
      split
      · rename_i hj
        rintro tx' k l array' heq
        cases heq
        exact hj
      · rintro tx' k l array' ⟨⟩
    · rintro k b hk
      obtain ⟨rfl, rfl⟩ := Prod.mk.inj (Option.some.inj hk)
      refine ⟨array, by rw [hp]; rfl, fun harray hcov _ => ?_⟩
      simp [harray, hcov.nWords]
  | entry i j array =>
    obtain ⟨rfl, rfl⟩ := Prod.mk.inj (Option.some.inj hs)
    refine .idle (.moveTo (.store (sameShape_releaseWord ..).nWords) ..) hpub ?_ ?_
      ⟨?_, ?_, ?_⟩ fun _ _ => .rfl
    · simp [Machine.moveTo, Pc.publishing]
    · simp [Machine.moveTo, Pc.counting]
    · simp only [Machine.moveTo, Function.update_self, hp]
      exact fun k array => .inl
    · simp [Machine.moveTo]
    · rintro k b hk
      obtain ⟨rfl, rfl⟩ := Prod.mk.inj (Option.some.inj hk)
      refine ⟨array, by rw [hp]; rfl, fun harray hcov hj => ?_⟩
      have hlt := (hj tx j hp).trans_le hcov.words
      simp [harray, hlt]
  | undo i array =>
    obtain ⟨rfl, rfl⟩ := Prod.mk.inj (Option.some.inj hs)
    refine .idle (.moveTo (.undoFree ..) ..) hpub ?_ ?_ ⟨?_, ?_, ?_⟩ fun _ _ => .rfl
    · simp [Machine.moveTo, Pc.publishing]
    · simp [Machine.moveTo, Pc.counting]
    · simp [Machine.moveTo, Pc.looking]
    · simp [Machine.moveTo]
    · rintro k b hk
      obtain ⟨rfl, rfl⟩ := Prod.mk.inj (Option.some.inj hk)
      refine ⟨array, by rw [hp]; rfl, fun harray hcov _ => ?_⟩
      simp [harray, hcov.deregistered]
  | acquire i array => exact .acquire hp hs rfl rfl rfl rfl (by rintro tx i j array ⟨⟩)
  | release i => exact .release hp hs rfl rfl rfl rfl
  | leave => exact .leave hp hs rfl rfl rfl rfl

/-- The statement a thread is at is a step of publication, whatever function it belongs to. -/
theorem pubMove_go [Zero W] {granted : Bool} (hs : s.go t granted = some (s', e))
    (hok : e.failed = false) : PubMove t s s' e := by
  simp only [Machine.go] at hs
  split at hs
  · cases hs
  · split at hs
    · rename_i size pc hp
      exact pubMove_goAlloc hp hs hok
    · rename_i tx i pc hp
      exact pubMove_goFree hp hs
    · rename_i tx pc hp
      exact pubMove_goAbort hp hs
    · rename_i r hp
      obtain ⟨rfl, rfl⟩ := Prod.mk.inj (Option.some.inj hs)
      exact .quiet hp rfl (.of_region rfl rfl) rfl rfl rfl rfl rfl fun _ _ => .rfl
    · cases hs

/-- What a statement does to the segments in use. -/
theorem pubMove_step [Zero W] {a : Statement τ W} (hs : s.step a = some (s', e))
    (hok : e.failed = false) : PubMove a.thread s s' e := by
  cases a with
  | tmBegin t isRo =>
    simp only [Machine.step] at hs
    split at hs
    · rename_i hp
      obtain ⟨rfl, rfl⟩ := Prod.mk.inj (Option.some.inj hs)
      exact .quiet hp rfl (.of_region rfl rfl) rfl rfl rfl rfl rfl fun _ _ => .rfl
    · cases hs
  | enter a =>
    simp only [Machine.step] at hs
    split at hs
    · rename_i isRo _ hp
      obtain ⟨⟨g, ge⟩, -, he⟩ := Option.map_eq_some_iff.mp hs
      obtain ⟨rfl, rfl⟩ := Prod.mk.inj he
      exact .stay rfl (.of_region rfl rfl) (congrArg Pc.publishing hp)
        (congrArg Pc.counting hp) (congrArg Pc.looking hp) rfl
    · cases hs
  | setFlag t =>
    simp only [Machine.step] at hs
    split at hs
    · rename_i hp
      obtain ⟨rfl, rfl⟩ := Prod.mk.inj (Option.some.inj hs)
      exact .quiet hp rfl ⟨rfl, rfl, fun _ => rfl, fun _ => .inl⟩ rfl rfl rfl rfl rfl
        fun _ _ => .rfl
    · cases hs
  | tmRead t seg idx =>
    simp only [Machine.step] at hs
    split at hs
    · rename_i id _ hp
      split at hs
      · have hsame := sameShape_readWord (s.region.segments seg) id (s.region.isRoFlags id) idx
        split at hs <;> rename_i hread <;> obtain ⟨rfl, rfl⟩ := Prod.mk.inj (Option.some.inj hs)
        · rw [hread] at hsame
          exact .stay rfl (.store hsame.nWords) (congrArg Pc.publishing hp)
            (congrArg Pc.counting hp) (congrArg Pc.looking hp) rfl
        · exact .quiet hp rfl (.of_region rfl rfl) rfl rfl rfl rfl rfl fun _ _ => .rfl
      · cases hs
    · cases hs
  | tmWrite t seg idx v =>
    simp only [Machine.step] at hs
    split at hs
    · rename_i hp
      split at hs
      · split at hs <;> rename_i hwrite <;> obtain ⟨rfl, rfl⟩ := Prod.mk.inj (Option.some.inj hs)
        · exact .stay rfl (.store (sameShape_writeWord hwrite).nWords) (congrArg Pc.publishing hp)
            (congrArg Pc.counting hp) (congrArg Pc.looking hp) rfl
        · exact .quiet hp rfl (.of_region rfl rfl) rfl rfl rfl rfl rfl fun _ _ => .rfl
      · cases hs
    · cases hs
  | tmAlloc t size =>
    simp only [Machine.step] at hs
    split at hs
    · rename_i hp
      obtain ⟨rfl, rfl⟩ := Prod.mk.inj (Option.some.inj hs)
      exact .quiet hp rfl (.of_region rfl rfl) rfl rfl rfl rfl rfl fun _ _ => .rfl
    · cases hs
  | tmFree t target =>
    simp only [Machine.step] at hs
    split at hs
    · rename_i hp
      split at hs
      · obtain ⟨rfl, rfl⟩ := Prod.mk.inj (Option.some.inj hs)
        exact .quiet hp rfl (.of_region rfl rfl) rfl rfl rfl rfl rfl fun _ _ => .rfl
      · cases hs
    · cases hs
  | tmEnd t =>
    simp only [Machine.step] at hs
    split at hs
    · rename_i hp
      exact .leave hp hs rfl rfl rfl rfl
    · cases hs
  | go t granted => exact pubMove_go hs hok

end

/-! ## The segments in use

A segment that is in use is completed or is being published, by the one thread that holds the
lock. So the others publish nothing at the same time. -/

/-- Segments, publications and the history of `init_segment`. -/
structure PubInv (s : Machine τ W) (h : List (Effect τ)) : Prop where
  /-- freed segments are segments in use -/
  stack_lt : ∀ i ∈ s.region.freeSegIndices.vals, i < s.region.nSegments
  /-- the index about to be counted is the next one -/
  counting : ∀ t idx, (s.pc t).counting = some idx → idx = s.region.nSegments
  /-- a segment is counted before it is initialised -/
  publishing_lt : ∀ t i, (s.pc t).publishing = some i → i < s.region.nSegments
  /-- the segments in use are the completed ones and the ones being published -/
  completed_iff : ∀ i, Completed i h ↔
    i < s.region.nSegments ∧ ∀ t, (s.pc t).publishing ≠ some i
  /-- a completed segment is initialised -/
  covers : ∀ i, Completed i h → (s.known i).Covers (s.region.segments i).nWords
  /-- how far the one being published is -/
  done : ∀ t size reused i pc, s.pc t = .alloc size (.init reused i pc) → pc.Done (s.known i)

theorem pubInv_create [Zero W] (size align : ℕ) (segments : ℕ → Segment W)
    (isRoFlags : ℕ → Bool) :
    PubInv (Machine.create (τ := τ) size align segments isRoFlags) [] := by
  refine ⟨?_, ?_, ?_, ?_, ?_, ?_⟩
  · intro i hi
    cases hi
  · intro t idx hc
    cases hc
  · intro t i hp
    cases hp
  · intro i
    simp [Completed, Machine.create, tmCreate, Pc.publishing]
  · intro i hc
    have hi : i = 0 := hc
    subst hi
    exact ⟨rfl, rfl, by simp [Machine.create, tmCreate, initSegment]⟩
  · intro t size reused i pc hp
    cases hp

section

variable {s s' : Machine τ W} {t : τ} {e : Effect τ} {h : List (Effect τ)}

/-- While a thread is inside, no other one counts or publishes a segment. -/
theorem LockInv.others_idle (hl : LockInv s h) (hin : (s.pc t).inside = true) {u : τ}
    (hu : u ≠ t) : (s.pc u).publishing = none ∧ (s.pc u).counting = none := by
  have hout : (s.pc u).inside ≠ true := fun hc => hu (hl.mutex.unique hc hin)
  refine ⟨Option.eq_none_iff_forall_ne_some.mpr ?_, Option.eq_none_iff_forall_ne_some.mpr ?_⟩
  · intro i hp
    exact hout (Pc.inside_of_publishing hp)
  · intro i hp
    exact hout (Pc.inside_of_counting hp)

/-- If only one thread may publish a segment, it decides. -/
theorem forall_publishing_ne (hothers : ∀ u, u ≠ t → (s.pc u).publishing = none) {i : ℕ} :
    (∀ u, (s.pc u).publishing ≠ some i) ↔ (s.pc t).publishing ≠ some i := by
  constructor
  · exact fun hno => hno t
  · intro ht u
    by_cases hu : u = t
    · rwa [hu]
    · rw [hothers u hu]
      exact nofun

/-- Nobody but `t` has anything to do with publication, before the step or after it. -/
structure Alone (t : τ) (s s' : Machine τ W) : Prop where
  /-- before -/
  before : ∀ u, u ≠ t → (s.pc u).publishing = none
  /-- after -/
  after : ∀ u, u ≠ t → (s'.pc u).publishing = none
  /-- nobody else is about to count a segment -/
  counting : ∀ u, u ≠ t → (s'.pc u).counting = none

theorem LockInv.alone (hl : LockInv s h) (hin : (s.pc t).inside = true)
    (hother : ∀ u, u ≠ t → s'.pc u = s.pc u) : Alone t s s' := by
  refine ⟨?_, ?_, ?_⟩
  · intro u hu
    exact (hl.others_idle hin hu).1
  · intro u hu
    rw [hother u hu]
    exact (hl.others_idle hin hu).1
  · intro u hu
    rw [hother u hu]
    exact (hl.others_idle hin hu).2

namespace Alone

variable (ha : Alone t s s')

include ha

/-- Nobody is about to count a segment once `t` is not. -/
theorem not_counting (hc : (s'.pc t).counting = none) {u : τ} {idx : ℕ} :
    (s'.pc u).counting ≠ some idx := by
  by_cases hu : u = t
  · rw [hu, hc]
    exact nofun
  · rw [ha.counting u hu]
    exact nofun

/-- Whatever is published is published by `t`. -/
theorem eq_of_publishing {u : τ} {i : ℕ} (hp : (s'.pc u).publishing = some i) : u = t := by
  by_contra hu
  rw [ha.after u hu] at hp
  cases hp

end Alone

/-- A statement that has nothing to do with publication. -/
theorem PubInv.idle (hi : PubInv s h) (hr : SameSegments s s') (hp : (s.pc t).publishing = none)
    (hp' : (s'.pc t).publishing = none)
    (hc : ∀ idx, (s'.pc t).counting = some idx → idx = s.region.nSegments)
    (he : ∀ i, Completed i (e :: h) ↔ Completed i h)
    (hother : ∀ u, u ≠ t → s'.pc u = s.pc u) : PubInv s' (e :: h) := by
  have hpub : ∀ u, (s'.pc u).publishing = (s.pc u).publishing := by
    intro u
    by_cases hu : u = t
    · rw [hu, hp, hp']
    · rw [hother u hu]
  refine ⟨?_, ?_, ?_, ?_, ?_, ?_⟩
  · intro i hi'
    rw [hr.nSegments]
    exact (hr.stack i hi').elim (hi.stack_lt i) id
  · intro u idx hu
    rw [hr.nSegments]
    by_cases hut : u = t
    · subst hut
      exact hc idx hu
    · rw [hother u hut] at hu
      exact hi.counting u idx hu
  · intro u i hu
    rw [hr.nSegments]
    exact hi.publishing_lt u i (by rwa [← hpub u])
  · intro i
    rw [he, hi.completed_iff, hr.nSegments]
    simp only [hpub]
  · intro i hcomp
    rw [hr.known, hr.nWords]
    exact hi.covers i ((he i).mp hcomp)
  · intro u size reused i pc hu
    have hut : u ≠ t := by
      rintro rfl
      rw [hu] at hp'
      cases hp'
    rw [hr.known]
    exact hi.done u size reused i pc (by rwa [← hother u hut])

/-- `n_segments++`: the segment is in use, and being published. -/
theorem PubInv.count (hi : PubInv s h) (ha : Alone t s s') {size idx : ℕ}
    (hp : s.pc t = .alloc size (.count idx)) (hp' : s'.pc t = .alloc size (.grow idx))
    (hr : s'.region = { s.region with nSegments := s.region.nSegments + 1 })
    (hk : s'.known = s.known) : PubInv s' (.silent :: h) := by
  have hidx : idx = s.region.nSegments := hi.counting t idx (by rw [hp]; rfl)
  have hpubt : (s'.pc t).publishing = some idx := by rw [hp']; rfl
  refine ⟨?_, ?_, ?_, ?_, ?_, ?_⟩
  · intro i hi'
    rw [hr] at hi' ⊢
    exact Nat.lt_succ_of_lt (hi.stack_lt i hi')
  · intro u i hu
    exact absurd hu (ha.not_counting (by rw [hp']; rfl))
  · intro u i hu
    obtain rfl := ha.eq_of_publishing hu
    rw [hpubt] at hu
    rw [hr, ← Option.some.inj hu, hidx]
    exact Nat.lt_succ_self _
  · intro i
    rw [completed_silent, hi.completed_iff, forall_publishing_ne ha.before,
      forall_publishing_ne ha.after, hpubt, hidx, hr, hp]
    simp only [Pc.publishing, ne_eq, reduceCtorEq, not_false_eq_true, and_true,
      Option.some.injEq]
    omega
  · intro i hcomp
    rw [hk, hr]
    exact hi.covers i hcomp
  · intro u size' reused i pc hu
    obtain rfl := ha.eq_of_publishing (i := i) (by rw [hu]; rfl)
    rw [hp'] at hu
    cases hu

/-- `init_segment` is called: until it returns the segment is not a completed one. -/
theorem PubInv.call (hi : PubInv s h) (ha : Alone t s s') {size i : ℕ} {reused : Bool}
    (hp : (s.pc t).publishing = some i ∨
      (s.pc t).publishing = none ∧ i ∈ s.region.freeSegIndices.vals)
    (hp' : s'.pc t = .alloc size (.init reused i .align))
    (hn : s'.region.nSegments = s.region.nSegments)
    (hseg : s'.region.segments = s.region.segments)
    (hstack : ∀ k ∈ s'.region.freeSegIndices.vals, k ∈ s.region.freeSegIndices.vals)
    (hk : s'.known = s.known) : PubInv s' (.initBegun t i :: h) := by
  have hlt : i < s.region.nSegments :=
    hp.elim (hi.publishing_lt t i) fun hp => hi.stack_lt i hp.2
  have hpubt : (s'.pc t).publishing = some i := by rw [hp']; rfl
  refine ⟨?_, ?_, ?_, ?_, ?_, ?_⟩
  · intro k hk'
    rw [hn]
    exact hi.stack_lt k (hstack k hk')
  · intro u k hu
    exact absurd hu (ha.not_counting (by rw [hp']; rfl))
  · intro u k hu
    obtain rfl := ha.eq_of_publishing hu
    rw [hpubt] at hu
    rw [hn, ← Option.some.inj hu]
    exact hlt
  · intro k
    rw [completed_initBegun, hi.completed_iff, forall_publishing_ne ha.before,
      forall_publishing_ne ha.after, hpubt, hn]
    obtain hp | ⟨hp, -⟩ := hp <;> rw [hp]
    · simp only [ne_eq, Option.some.injEq]
      tauto
    · simp only [ne_eq, reduceCtorEq, not_false_eq_true, and_true, Option.some.injEq]
      exact And.comm
  · intro k hcomp
    rw [hk, hseg]
    exact hi.covers k hcomp.2
  · intro u size' reused' k pc hu
    obtain rfl := ha.eq_of_publishing (i := k) (by rw [hu]; rfl)
    rw [hp'] at hu
    cases hu
    trivial

/-- `init_segment` goes on: the segment it works on is not a completed one. -/
theorem PubInv.init (hi : PubInv s h) (ha : Alone t s s') {size i : ℕ} {reused : Bool}
    {pc pc' : InitPc} (hp : s.pc t = .alloc size (.init reused i pc))
    (hp' : s'.pc t = .alloc size (.init reused i pc'))
    (hn : s'.region.nSegments = s.region.nSegments)
    (hstack : s'.region.freeSegIndices = s.region.freeSegIndices)
    (hframe : ∀ k, k ≠ i → s'.known k = s.known k ∧
      (s'.region.segments k).nWords = (s.region.segments k).nWords)
    (hdone : pc.Done (s.known i) → pc'.Done (s'.known i)) : PubInv s' (.silent :: h) := by
  have hpubt : (s.pc t).publishing = some i := by rw [hp]; rfl
  have hpubt' : (s'.pc t).publishing = some i := by rw [hp']; rfl
  refine ⟨?_, ?_, ?_, ?_, ?_, ?_⟩
  · intro k hk
    rw [hn]
    rw [hstack] at hk
    exact hi.stack_lt k hk
  · intro u k hu
    exact absurd hu (ha.not_counting (by rw [hp']; rfl))
  · intro u k hu
    obtain rfl := ha.eq_of_publishing hu
    rw [hpubt'] at hu
    rw [hn, ← Option.some.inj hu]
    exact hi.publishing_lt u i hpubt
  · intro k
    rw [completed_silent, hi.completed_iff, forall_publishing_ne ha.before,
      forall_publishing_ne ha.after, hpubt, hpubt', hn]
  · intro k hcomp
    have hne : k ≠ i := by
      rintro rfl
      exact ((hi.completed_iff k).mp hcomp).2 t hpubt
    rw [(hframe k hne).1, (hframe k hne).2]
    exact hi.covers k hcomp
  · intro u size' reused' k pc'' hu
    obtain rfl := ha.eq_of_publishing (i := k) (by rw [hu]; rfl)
    rw [hp'] at hu
    cases hu
    exact hdone (hi.done u _ _ _ _ hp)

/-- `init_segment` returns: its loop has passed the last control entry. -/
theorem PubInv.ended (hi : PubInv s h) (ha : Alone t s s') {size i j : ℕ} {reused : Bool}
    (hp : s.pc t = .alloc size (.init reused i (.word j)))
    (hj : ¬ j < (s.region.segments i).nWords) (hp' : s'.pc t = .alloc size (.release i))
    (hr : s'.region = s.region) (hk : s'.known = s.known) : PubInv s' (.initDone t i :: h) := by
  have hpubt : (s.pc t).publishing = some i := by rw [hp]; rfl
  have hpubt' : (s'.pc t).publishing = none := by rw [hp']; rfl
  have hlt := hi.publishing_lt t i hpubt
  refine ⟨?_, ?_, ?_, ?_, ?_, ?_⟩
  · intro k hk'
    rw [hr] at hk' ⊢
    exact hi.stack_lt k hk'
  · intro u k hu
    exact absurd hu (ha.not_counting (by rw [hp']; rfl))
  · intro u k hu
    obtain rfl := ha.eq_of_publishing hu
    rw [hpubt'] at hu
    cases hu
  · intro k
    rw [completed_initDone, hi.completed_iff, forall_publishing_ne ha.before,
      forall_publishing_ne ha.after, hpubt, hpubt', hr]
    by_cases hik : i = k
    · simp [← hik, hlt]
    · simp [hik]
  · intro k hcomp
    rw [hk, hr]
    obtain rfl | hcomp := hcomp
    · obtain ⟨hnw, hdereg, hwords⟩ := hi.done t _ _ _ _ hp
      exact ⟨hnw, hdereg, (Nat.not_lt.mp hj).trans hwords⟩
    · exact hi.covers k hcomp
  · intro u size' reused' k pc hu
    obtain rfl := ha.eq_of_publishing (i := k) (by rw [hu]; rfl)
    rw [hp'] at hu
    cases hu

/-- **Publication, step by step**: a step of any thread keeps the invariant. -/
theorem PubInv.step (hi : PubInv s h) (hl : LockInv s h) (hm : PubMove t s s' e)
    (hother : ∀ u, u ≠ t → s'.pc u = s.pc u) : PubInv s' (e :: h) := by
  cases hm with
  | idle hr hp hp' hc _ he => exact hi.idle hr hp hp' hc (fun i => he i h) hother
  | count size idx hp hp' hr hk he =>
    subst he
    exact hi.count (hl.alone (by rw [hp]; rfl) hother) hp hp' hr hk
  | call size i reused hp hin hp' hn hseg hstack hk he =>
    subst he
    exact hi.call (hl.alone hin hother) hp hp' hn hseg hstack hk
  | init size i reused pc pc' hp hp' hn hstack hframe hdone he =>
    subst he
    exact hi.init (hl.alone (by rw [hp]; rfl) hother) hp hp' hn hstack hframe hdone
  | done size i j reused hp hj hp' hr hk he =>
    subst he
    exact hi.ended (hl.alone (by rw [hp]; rfl) hother) hp hj hp' hr hk

/-! ## What an abort looks at

An abort goes through the segments without the lock. It finds a segment that is not initialised
if it gets to the one that is being published, or if it looks into an array that has moved. -/

/-- No abort is at a segment that is being published, or has a pointer into an array that
has moved since. -/
def Apart (s : Machine τ W) : Prop :=
  ∀ t, ∀ p ∈ (s.pc t).looking, p.2 = s.array ∧ ∀ u, (s.pc u).publishing ≠ some p.1

instance [Fintype τ] (s : Machine τ W) : Decidable (Apart s) :=
  inferInstanceAs (Decidable (∀ t, ∀ p ∈ (s.pc t).looking, _ ∧ _))

/-- Where the aborts are: at segments in use, and at control entries that these have. -/
structure LookInv (s : Machine τ W) : Prop where
  /-- at segments in use -/
  lt : ∀ t i array, (s.pc t).looking = some (i, array) → i < s.region.nSegments
  /-- at control entries below `n_words` -/
  entry : ∀ t tx i j array, s.pc t = .abort tx (.entry i j array) →
    j < (s.region.segments i).nWords

/-- An abort stays within its segment, as long as nobody publishes it. -/
theorem LookInv.step (hi : LookInv s) (ha : Apart s) (hm : PubMove t s s' e)
    (hother : ∀ u, u ≠ t → s'.pc u = s.pc u) : LookInv s' := by
  constructor
  · intro u i array hu
    refine lt_of_lt_of_le ?_ hm.nSegments_le
    by_cases hut : u = t
    · rw [hut] at hu
      exact (hm.looks.looking i array hu).elim (hi.lt t i array) id
    · rw [hother u hut] at hu
      exact hi.lt u i array hu
  · intro u tx i j array hu
    have hlook : (s'.pc u).looking = some (i, array) := by rw [hu]; rfl
    by_cases hut : u = t
    · subst hut
      exact hm.looks.entry tx i j array hu
    · rw [hother u hut] at hu hlook
      rw [hm.nWords ((ha u _ hlook).2 t)]
      exact hi.entry u tx i j array hu

/-- What an abort looks at is initialised. -/
theorem LookInv.looked (hi : LookInv s) (hp : PubInv s h) (ha : Apart s)
    (hm : PubMove t s s' e) {i : ℕ} {k : Bool} (he : e.lookedAt = some (i, k)) : k = true := by
  obtain ⟨array, hlook, hknown⟩ := hm.looks.looked i k he
  obtain ⟨harray, hno⟩ := ha t _ hlook
  have hcomp := (hp.completed_iff i).mpr ⟨hi.lt t i array hlook, hno⟩
  exact hknown harray (hp.covers i hcomp) fun tx j => hi.entry t tx i j array

end

/-! ## Runs

The invariants over the runs of the statements in which no allocation fails and no transaction
frees a segment twice. -/

variable [DecidableEq τ] [Zero W] {size align : ℕ} {segments : ℕ → Segment W}
  {isRoFlags : ℕ → Bool} {h : List (Effect τ)} {s : Machine τ W}

omit [DecidableEq τ] in
/-- Runs with memory for everybody slip only where `tm_free` finds its own mark. -/
theorem noSlips (hgranted : ∀ e ∈ h, e.failed = false) (hmark : ∀ e ∈ h, e.foundOwn = false) :
    ∀ e ∈ h, e.slips = false := by
  intro e he
  cases e with
  | reallocFailed t => cases hgranted _ he
  | initFailed t i reused => cases hgranted _ he
  | ownMark t i => cases hmark _ he
  | _ => rfl

/-- A run in which no allocation fails and no transaction finds its own mark keeps the
invariant of publication. -/
theorem pubInv_run
    (hr : Run Machine.step anyStep (Machine.create size align segments isRoFlags) h s)
    (hgranted : ∀ e ∈ h, e.failed = false) (hmark : ∀ e ∈ h, e.foundOwn = false) :
    PubInv s h := by
  induction hr with
  | start => exact pubInv_create ..
  | @next h s s' a e hr hs _ ih =>
    obtain ⟨hok, hgranted⟩ := List.forall_mem_cons.mp hgranted
    obtain ⟨-, hmark⟩ := List.forall_mem_cons.mp hmark
    have hl := lockInv_run hr (disciplined_of_noSlips hr (noSlips hgranted hmark))
    exact (ih hgranted hmark).step hl (pubMove_step hs hok) (lockStep_step hs).other

/-- What the aborts of a run look at, as long as they keep apart from publications. -/
theorem looked_run
    (hr : Run Machine.step (fun _ s _ => Apart s) (Machine.create size align segments isRoFlags)
      h s) (hgranted : ∀ e ∈ h, e.failed = false) (hmark : ∀ e ∈ h, e.foundOwn = false) :
    LookInv s ∧ ∀ e ∈ h, ∀ i k, e.lookedAt = some (i, k) → k = true := by
  induction hr with
  | start => exact ⟨⟨nofun, nofun⟩, nofun⟩
  | @next h s s' a e hr hs ha ih =>
    obtain ⟨hok, hgranted⟩ := List.forall_mem_cons.mp hgranted
    obtain ⟨-, hmark⟩ := List.forall_mem_cons.mp hmark
    obtain ⟨hi, hknown⟩ := ih hgranted hmark
    have hm := pubMove_step hs hok
    refine ⟨hi.step ha hm (lockStep_step hs).other, List.forall_mem_cons.mpr ⟨?_, hknown⟩⟩
    exact fun i k he => hi.looked (pubInv_run hr.any hgranted hmark) ha hm he

/-- **Segments are published too early.** In a run whose allocations succeed, every index
below `n_segments` denotes a completed segment exactly while no thread is on its way from
counting (or popping) a segment to the end of `init_segment`. And if no abort is at a
segment while it is published, or follows a pointer into an array that has moved, no abort
ever reads a field that is not initialised. -/
theorem segments_completed_iff
    (hr : Run Machine.step anyStep (Machine.create size align segments isRoFlags) h s)
    (hgranted : ∀ e ∈ h, e.failed = false) (hmark : ∀ e ∈ h, e.foundOwn = false) :
    ((∀ i < s.region.nSegments, Completed i h) ↔ ∀ t, (s.pc t).publishing = none) ∧
      (Run Machine.step (fun _ s _ => Apart s) (Machine.create size align segments isRoFlags)
        h s → ∀ e ∈ h, ∀ i k, e.lookedAt = some (i, k) → k = true) := by
  have hi := pubInv_run hr hgranted hmark
  refine ⟨⟨?_, ?_⟩, fun hr => (looked_run hr hgranted hmark).2⟩
  · intro hall t
    rw [Option.eq_none_iff_forall_ne_some]
    intro i hp
    have hcomp := hall i (hi.publishing_lt t i hp)
    exact ((hi.completed_iff i).mp hcomp).2 t hp
  · intro hno i hlt
    refine (hi.completed_iff i).mpr ⟨hlt, ?_⟩
    intro t
    rw [hno t]
    exact nofun

/-- Three threads before a region of one word. -/
def threeBefore : Machine (Fin 3) ℕ :=
  Machine.create 8 8 (fun _ => initSegment 0 0) fun _ => false

/-- The first thread opens an epoch and the other two wait for the next one; there the
second writes a word, which makes the third abort. The third gets as far as segment 1. -/
def abortUnderWay : List (Statement (Fin 3) ℕ) :=
  [.tmBegin 0 false, .enter (.enter 0), .tmBegin 1 false, .enter (.enter 1), .tmBegin 2 false,
    .enter (.enter 2), .setFlag 0, .tmEnd 0, .enter (.wake 1), .enter (.wake 2), .setFlag 1,
    .setFlag 2, .tmWrite 1 0 0 7, .tmRead 2 0 0] ++ List.replicate 7 (.go 2 true)

/-- The effects of the run above. -/
def abortHistory : List (Effect (Fin 3)) :=
  [.released 2, .looked 2 0 true, .acquired 2, .looked 2 0 true, .looked 2 0 true,
    .looked 2 0 true] ++ List.replicate 15 .silent

/-- The second thread allocates a segment when the third one has left. -/
theorem segments_completed_iff_apart :
    ∃ (h : List (Effect (Fin 3))) (s : Machine (Fin 3) ℕ),
      Run Machine.step anyStep threeBefore (h ++ abortHistory) s ∧ s.region.nSegments = 2 ∧
      (∀ i < s.region.nSegments, Completed i (h ++ abortHistory)) ∧
      ∀ e ∈ h ++ abortHistory, ∀ i k, e.lookedAt = some (i, k) → k = true := by
  obtain ⟨s, hr, hsum⟩ : ∃ s, Run Machine.step (fun _ s _ => Apart s) threeBefore
      ([.returned 1 (.allocated (getVirtAddr 1)), .released 1, .initDone 1 1] ++
        List.replicate 8 .silent ++
        [.initBegun 1 1, .silent, .silent, .silent, .acquired 1, .silent, .returned 2 .aborted,
          .silent, .silent] ++ abortHistory) s ∧
      (s.region.nSegments, decide (∀ t, (s.pc t).publishing = none)) = (2, true) :=
    Run.of_execUnder (abortUnderWay ++ List.replicate 3 (.go 2 true) ++ [.tmAlloc 1 8] ++
      List.replicate 16 (.go 1 true)) .start (by decide +kernel)
  obtain ⟨hn, hpub⟩ := Prod.mk.inj hsum
  obtain ⟨hcomp, hknown⟩ := segments_completed_iff hr.any (by decide) (by decide)
  exact ⟨_, s, hr.any, hn, hcomp.mpr (of_decide_eq_true hpub), hknown hr⟩

/-- **Counterexample.** A segment is in use, but not initialised, when an abort comes to
it and reads its `n_words`. -/
theorem segment_published_early :
    ∃ (h : List (Effect (Fin 3))) (s : Machine (Fin 3) ℕ),
      Run Machine.step anyStep threeBefore h s ∧ (∀ e ∈ h, e.failed = false) ∧
      1 < s.region.nSegments ∧ ¬ Completed 1 h ∧ Effect.looked 2 1 false ∈ h := by
  obtain ⟨s, hr, hn⟩ : ∃ s, Run Machine.step anyStep threeBefore
      ([.looked 2 1 false, .silent, .silent, .silent, .silent, .acquired 1, .silent] ++
        abortHistory) s ∧ s.region.nSegments = 2 :=
    Run.of_execUnder (abortUnderWay ++ [.tmAlloc 1 8] ++ List.replicate 4 (.go 1 true) ++
      List.replicate 2 (.go 2 true)) .start (by decide +kernel)
  refine ⟨_, s, hr, by decide, by omega, ?_, List.mem_cons_self⟩
  exact (nofun : (1 : ℕ) ≠ 0)

end DualStm
