import DualStm.Allocation
import DualStm.Aliasing

/-!
# The heap blocks of a region

The library with its pointers over a region whose memory may run out, from `tm_create` to
`tm_destroy`. A `tm_alloc` goes through the allocator; every other step is one of the
library, and none of them allocates or releases: as long as no pointer dangles and no commit
writes past the end of the stack, of which the ledger would know nothing.

A freed segment keeps its four arrays until `tm_destroy`. When its index is used again
`init_segment` stores new ones over them, and nothing points to the old ones any more.
-/

namespace DualStm

variable {τ W : Type}

/-- The state of the system, and its heap blocks. -/
structure HeapState (τ W : Type) where
  /-- the region, the batcher and the threads, with their pointers -/
  raw : Raw τ W
  /-- the blocks of the region -/
  blocks : Blocks
  /-- `global_lock` is held by a call that has returned -/
  locked : Bool

/-- The region, the batcher and the threads. -/
abbrev HeapState.state (s : HeapState τ W) : State τ W := s.raw.state

/-- What a step did, the allocator considered. -/
inductive HeapEvent (τ W : Type) where
  /-- what the region did; `reused` when it initialised a freed segment again -/
  | did (e : Event τ W) (reused : Bool)
  /-- a `tm_alloc` met a failure; what it returned, and what it wrote to `*target` -/
  | refused (T : Txn) (code : ℤ) (target : Option ℕ)
  deriving DecidableEq

/-- What the region did, if the allocation was granted. -/
def HeapEvent.did? : HeapEvent τ W → Option (Event τ W)
  | .did e _ => some e
  | .refused _ _ _ => none

/-- The steps that take `global_lock`. -/
def State.locks (s : State τ W) : Action τ W → Bool
  | .tmAlloc _ _ => true
  | .tmFree _ _ => true
  | .abort t =>
    match s.call t with
    | .aborting i j => decide (i < s.region.nSegments ∧ ¬ j < (s.region.segments i).nWords)
    | _ => false
  | _ => false

variable [DecidableEq τ] [Zero W] (grant : ℕ → Bool)

/-- The transition function, when the environment grants the calls that `grant` says.
Where the source would use a `NULL` array, or wait for a lock that nobody releases, there
is no step. -/
def heapStep (s : HeapState τ W) :
    Chance W × Action τ W → Option (HeapState τ W × HeapEvent τ W)
  | (c, a) =>
    if s.blocks.segments = none ∨ s.locked = true ∧ s.state.locks a = true then none
    else
      match a with
      | .tmAlloc t size =>
        match s.state.client t, s.state.call t, (s.state.thread t).isRo with
        | .inside id, .rest, false =>
          let o := Blocks.tmAlloc grant s.state.region s.blocks size
          some (⟨s.raw.after c (.tmAlloc t size) (s.state.setRegion o.region), o.blocks, o.locked⟩,
            if HeapLedger.Refused grant s.blocks.ledger o.blocks.ledger then
              .refused (s.state.txn id) o.code o.target
            else .did (.alloced (s.state.txn id) (tmAlloc s.state.region size).1)
              (!s.state.region.freeSegIndices.vals.isEmpty))
        | _, _, _ => none
      | a => (s.raw.step (c, a)).map fun (raw', e) => ({ s with raw := raw' }, .did e false)

/-- The discipline of the runs in which no allocation fails. -/
def neverRefused : Discipline (HeapState τ W) (HeapEvent τ W) := fun _ _ e =>
  ∀ T code target, e ≠ .refused T code target

instance (h : List (HeapEvent τ W)) (s : HeapState τ W) (e : HeapEvent τ W) :
    Decidable (neverRefused h s e) :=
  match e with
  | .did _ _ => .isTrue (by rintro _ _ _ ⟨⟩)
  | .refused T code target => .isFalse fun hn => hn T code target rfl

/-- The discipline of the runs in which no allocation fails, and every other step is sound and
has room for what its commit pushes. -/
def neverAstray : Discipline (HeapState τ W) (HeapEvent τ W) := fun h s e =>
  neverRefused h s e ∧ ∀ e' ∈ e.did?, s.raw.Sound e' ∧ hasRoom [] s.state e'

instance [Fintype τ] (h : List (HeapEvent τ W)) (s : HeapState τ W) (e : HeapEvent τ W) :
    Decidable (neverAstray h s e) := inferInstanceAs (Decidable (_ ∧ _))

/-- Some index that was freed was used again. -/
def Reuses (h : List (HeapEvent τ W)) : Prop := ∃ e, .did e true ∈ h

/-! ## What a step does to the blocks

Only `tm_alloc` touches the heap while the region is there. So every other step leaves the
blocks as they are, and a granted `tm_alloc` adds those of its segment. -/

variable {grant}

/-- The blocks of a region of `n` segments: those of its segments, those that it has lost,
and its own. -/
def Blocks.held (b : Blocks) (n : ℕ) (lost : List ℕ) : List ℕ :=
  (List.range n).flatMap (fun i => (b.arrays i).blocks) ++ (lost ++ (b.segments.toList ++ [b.self]))

/-- What a step does while nothing fails. -/
inductive HeapStep (grant : ℕ → Bool) (s : HeapState τ W) :
    HeapEvent τ W → HeapState τ W → Prop where
  /-- anything but a `tm_alloc` -/
  | did {c : Chance W} {a : Action τ W} {raw' : Raw τ W} {e : Event τ W}
      (hs : s.raw.step (c, a) = some (raw', e)) (ha : ∀ t size, a ≠ .tmAlloc t size) :
    HeapStep grant s (.did e false) { s with raw := raw' }
  /-- a `tm_alloc` -/
  | alloced {c : Chance W} {t : τ} {id size : ℕ} {o : Outcome W}
      (hc : s.state.client t = .inside id) (hr : s.state.call t = .rest)
      (hro : (s.state.thread t).isRo = false)
      (ha : Blocks.Allocates grant s.state.region s.blocks size o)
      (hno : ¬ HeapLedger.Refused grant s.blocks.ledger o.blocks.ledger) :
    HeapStep grant s
      (.did (.alloced (s.state.txn id) (tmAlloc s.state.region size).1)
        (!s.state.region.freeSegIndices.vals.isEmpty))
      ⟨s.raw.after c (.tmAlloc t size) (s.state.setRegion o.region), o.blocks, o.locked⟩

section

variable {s s' : HeapState τ W} {c : Chance W} {a : Action τ W} {e : HeapEvent τ W}

/-! A thread in one of its loops, or leaving, hands out nothing. -/

omit [Zero W] in
theorem leave_not_alloced {s s' : State τ W} {t : τ} {event : Txn → Bool → Event τ W} {T : Txn}
    {seg : ℕ} (he : ∀ T' c, event T' c ≠ .alloced T seg)
    (hs : s.leave t event = some (s', .alloced T seg)) : False := by
  unfold State.leave at hs
  split at hs
  · dsimp only at hs
    split at hs
    · obtain ⟨r, -, heq⟩ := Option.map_eq_some_iff.mp hs
      exact he _ _ (Prod.mk.inj heq).2
    · exact he _ _ (Prod.mk.inj (Option.some.inj hs)).2
  · cases hs

omit [Zero W] in
theorem word_not_alloced {s s' : State τ W} {t : τ} {id : ℕ} {T : Txn} {seg : ℕ}
    (hs : s.word t id = some (s', .alloced T seg)) : False := by
  unfold State.word at hs
  split at hs
  · dsimp only at hs
    split at hs
    · split at hs <;> cases hs
    · cases hs
  · dsimp only at hs
    split at hs
    · split at hs <;> cases hs
    · cases hs
  · cases hs

omit [Zero W] in
theorem abort_not_alloced {s s' : State τ W} {t : τ} {id i j : ℕ} {T : Txn} {seg : ℕ}
    (hs : s.abort t id i j = some (s', .alloced T seg)) : False := by
  unfold State.abort at hs
  split at hs
  · dsimp only at hs
    split at hs <;> cases hs
  · exact leave_not_alloced (by rintro _ _ ⟨⟩) hs

/-- Only `tm_alloc` hands out segments. -/
theorem not_alloced_of_step {s s' : State τ W} {a : Action τ W} {e : Event τ W}
    (hs : s.step a = some (s', e)) (ha : ∀ t size, a ≠ .tmAlloc t size) (T : Txn) (seg : ℕ) :
    e ≠ .alloced T seg := by
  rintro rfl
  cases a with
  | tmAlloc t size => exact ha t size rfl
  | enter t =>
    simp only [State.step] at hs
    split at hs
    · split at hs <;> cases hs
    · cases hs
  | word t =>
    simp only [State.step] at hs
    split at hs
    · exact word_not_alloced hs
    · cases hs
  | tmFree t target =>
    simp only [State.step] at hs
    split at hs
    · split at hs
      · split at hs <;> cases hs
      · cases hs
    · cases hs
  | abort t =>
    simp only [State.step] at hs
    split at hs
    · exact abort_not_alloced hs
    · cases hs
  | tmEnd t =>
    simp only [State.step] at hs
    split at hs
    · exact leave_not_alloced (by rintro _ _ ⟨⟩) hs
    · cases hs
  | _ =>
    simp only [State.step] at hs
    split at hs <;> cases hs

theorem heapStep_cases (hs : heapStep grant s (c, a) = some (s', e))
    (hq : neverRefused [] s e) : HeapStep grant s e s' := by
  simp only [heapStep] at hs
  by_cases hblock : s.blocks.segments = none ∨ s.locked = true ∧ s.state.locks a = true
  · rw [if_pos hblock] at hs
    cases hs
  rw [if_neg hblock] at hs
  have hother : (∀ t size, a ≠ .tmAlloc t size) →
      ((s.raw.step (c, a)).map fun (raw', e) =>
        ({ s with raw := raw' }, HeapEvent.did e false)) = some (s', e) →
      HeapStep grant s e s' := by
    intro ha hs
    obtain ⟨⟨raw', e'⟩, hstep, heq⟩ := Option.map_eq_some_iff.mp hs
    obtain ⟨rfl, rfl⟩ := Prod.mk.inj heq
    exact .did hstep ha
  cases a with
  | tmAlloc t size =>
    simp only at hs
    split at hs
    · rename_i id hc hr hro
      obtain ⟨rfl, rfl⟩ := Prod.mk.inj (Option.some.inj hs)
      split
      · rename_i href
        rw [if_pos href] at hq
        exact absurd rfl (hq _ _ _)
      · rename_i hno
        exact .alloced hc hr hro (Blocks.tmAlloc_allocates ..) hno
    · cases hs
  | _ => exact hother (by rintro t size ⟨⟩) hs

theorem step_tmAlloc {s : State τ W} {t : τ} {id size : ℕ} (hc : s.client t = .inside id)
    (hr : s.call t = .rest) (hro : (s.thread t).isRo = false) :
    s.step (.tmAlloc t size) = some (s.setRegion (tmAlloc s.region size).2,
      .alloced (s.txn id) (tmAlloc s.region size).1) := by
  simp only [State.step, hc, hr, hro]

/-- While nothing fails the system steps as it does without the allocator. -/
theorem HeapStep.raw (hs : HeapStep grant s e s') :
    ∃ e' ca, e.did? = some e' ∧ s.raw.step ca = some (s'.raw, e') := by
  cases hs with
  | @did c a raw' e hs ha => exact ⟨e, (c, a), rfl, hs⟩
  | @alloced c t id size o hc hr hro ha hno =>
    refine ⟨_, (c, .tmAlloc t size), rfl, ?_⟩
    have heffect : s.raw.effect c (.tmAlloc t size) = s.state.step (.tmAlloc t size) := rfl
    rw [Raw.step, heffect, step_tmAlloc hc hr hro, ha.region_eq hno]
    rfl

end

/-! ## The blocks over a run

A run adds the arrays of each segment that is handed out. An index that is used again gets new
arrays, and nothing releases the old ones. -/

/-- The blocks of a region are accounted for, except those it has lost. -/
structure Accounted (grant : ℕ → Bool) (h : List (HeapEvent τ W)) (s : HeapState τ W) : Prop where
  /-- there is an array of segments -/
  array : s.blocks.segments ≠ none
  /-- every segment has its four arrays -/
  fresh : ∀ i < s.state.region.nSegments, ∃ k, s.blocks.arrays i = Blocks.fresh k
  /-- a free index is one of a segment -/
  free : ∀ i ∈ s.state.region.freeSegIndices.vals, i < s.state.region.nSegments
  /-- nothing is lost unless a freed segment was initialised again -/
  holds : ∃ lost, HeapLedger.Holds grant s.blocks.ledger
    (s.blocks.held s.state.region.nSegments lost) ∧ (lost = [] ↔ ¬ Reuses h)

section

variable {h : List (HeapEvent τ W)} {s s' : HeapState τ W} {e : HeapEvent τ W}

omit [DecidableEq τ] [Zero W] in
theorem reuses_cons_false {e : Event τ W} : Reuses (.did e false :: h) ↔ Reuses h := by
  constructor
  · rintro ⟨e', hmem⟩
    rcases List.mem_cons.mp hmem with heq | hmem
    · cases heq
    · exact ⟨e', hmem⟩
  · rintro ⟨e', hmem⟩
    exact ⟨e', List.mem_cons_of_mem _ hmem⟩

theorem flatMap_blocks_update (arrays : ℕ → Arrays) (i : ℕ) (a : Arrays) :
    (fun j => (Function.update arrays i a j).blocks) =
      Function.update (fun j => (arrays j).blocks) i a.blocks := by
  funext j
  obtain rfl | hj := eq_or_ne j i
  · rw [Function.update_self, Function.update_self]
  · rw [Function.update_of_ne hj, Function.update_of_ne hj]

/-- A step other than `tm_alloc` keeps the blocks, and the free indices among the segments. -/
theorem Accounted.did (hacc : Accounted grant h s) {raw' : Raw τ W} {e : Event τ W}
    (hs : Step s.state e raw'.state) (ha : ∀ T seg, e ≠ .alloced T seg) :
    Accounted grant (.did e false :: h) { s with raw := raw' } := by
  obtain ⟨lost, hl, hlost⟩ := hacc.holds
  have hkept : raw'.state.region.nSegments = s.state.region.nSegments ∧
      ∀ i ∈ raw'.state.region.freeSegIndices.vals, i < s.state.region.nSegments := by
    have hlist := hs.listStep
    generalize raw'.state.region = r at hlist
    cases hlist with
    | same _ _ hn hvals _ => exact ⟨hn, by rw [hvals]; exact hacc.free⟩
    | alloced => exact absurd rfl (ha _ _)
    | freed => exact ⟨rfl, hacc.free⟩
    | closed _ _ hcommit =>
      refine ⟨hcommit.nSegments, ?_⟩
      intro i hi
      rw [hcommit.freeSegIndices, List.mem_append, List.mem_reverse, List.mem_filter,
        List.mem_range] at hi
      exact hi.elim And.left (hacc.free i)
  refine ⟨hacc.array, ?_, ?_, lost, ?_, hlost.trans (not_congr reuses_cons_false.symm)⟩
  · rw [hkept.1]
    exact hacc.fresh
  · rw [hkept.1]
    exact hkept.2
  · rw [hkept.1]
    exact hl

theorem Accounted.step (hacc : Accounted grant h s) (hs : HeapStep grant s e s')
    (hsound : ∀ {c a raw' e'}, e.did? = some e' → s.raw.step (c, a) = some (raw', e') →
      s.state.step a = some (raw'.state, e')) : Accounted grant (e :: h) s' := by
  cases hs with
  | did hs ha =>
    have hs := hsound rfl hs
    exact hacc.did (step_cases hs) (not_alloced_of_step hs ha)
  | @alloced c t id size o hc hr hro ha hno =>
    obtain ⟨lost, hl, hlost⟩ := hacc.holds
    cases ha with
    | @reused i vals hvals _ =>
      -- the four arrays of the segment are lost
      rcases tmAlloc_cases s.state.region size with ⟨hnil, -⟩ | ⟨hvals', hn⟩
      · rw [hvals] at hnil
        cases hnil
      have hi : i < s.state.region.nSegments := hacc.free i (hvals ▸ List.mem_cons_self)
      obtain ⟨k, hk⟩ := hacc.fresh i hi
      refine ⟨hacc.array, ?_, ?_, (s.blocks.arrays i).blocks ++ lost, ?_, ?_⟩
      · intro j hj
        obtain rfl | hji := eq_or_ne j i
        · exact ⟨_, Function.update_self ..⟩
        · simp only [Function.update_of_ne hji]
          exact hacc.fresh j (hn ▸ hj)
      · intro j hj
        simp only [HeapState.state, Raw.after_state, State.setRegion_region, hn] at hj ⊢
        exact hacc.free j (hvals' ▸ List.mem_cons_of_mem _ hj)
      · apply (Blocks.holds_fresh hl hno).perm
        simp only [HeapState.state, Blocks.held, Raw.after_state, State.setRegion_region, hn,
          flatMap_blocks_update]
        have hperm := (HeapLedger.perm_flatMap_update (f := fun j => (s.blocks.arrays j).blocks)
          (g := (Blocks.fresh s.blocks.ledger.calls).blocks) List.nodup_range
          (List.mem_range.mpr hi)).append_right
          (lost ++ (s.blocks.segments.toList ++ [s.blocks.self]))
        simp only [List.append_assoc] at hperm ⊢
        exact hperm
      · rw [hk, hvals]
        refine iff_of_false (List.cons_ne_nil _ _) fun hno => hno ⟨_, List.mem_cons_self⟩
    | @added b' hvals hgrow _ =>
      have hgrown := Blocks.allocateMoreSegments_kept hgrow hacc.array
      obtain ⟨harrays, hself, harray, hle⟩ := hgrown
      rcases tmAlloc_cases s.state.region size with ⟨-, -, hn, hvals'⟩ | ⟨hcons, -⟩
      swap
      · rw [hvals] at hcons
        cases hcons
      refine ⟨harray, ?_, ?_, lost, ?_, ?_⟩
      · intro j hj
        simp only [HeapState.state, Raw.after_state, State.setRegion_region, hn] at hj
        obtain rfl | hjn := eq_or_ne j s.state.region.nSegments
        · exact ⟨_, Function.update_self ..⟩
        · simp only [Function.update_of_ne hjn, harrays]
          exact hacc.fresh j (lt_of_le_of_ne (Nat.lt_succ_iff.mp hj) hjn)
      · intro j hj
        simp only [HeapState.state, Raw.after_state, State.setRegion_region, hvals'] at hj
        exact absurd hj List.not_mem_nil
      · rw [Blocks.held, ← List.append_assoc] at hl
        have hl := Blocks.holds_fresh (Blocks.allocateMoreSegments_holds hgrow hl)
          fun href => hno (href.of_le hle)
        apply hl.perm
        simp only [HeapState.state, Blocks.held, Raw.after_state, State.setRegion_region, hn,
          flatMap_blocks_update, harrays, List.range_succ, List.flatMap_append,
          List.flatMap_singleton, Function.update_self, hself]
        rw [HeapLedger.flatMap_update_of_not_mem fun h => lt_irrefl _ (List.mem_range.mp h)]
        simp only [List.append_assoc]
        exact List.perm_append_comm_assoc ..
      · rw [hvals]
        exact hlost.trans (not_congr reuses_cons_false.symm)
    | reuseFailed _ href _ => exact absurd href hno
    | growFailed _ href => exact absurd href hno
    | addFailed _ _ href _ => exact absurd href hno

/-- The runs of the heap in which no allocation fails are runs of the library with its
pointers. -/
theorem Run.forgetHeap {s₀ : HeapState τ W} (hr : Run (heapStep grant) neverAstray s₀ h s) :
    Run Raw.step (Raw.under hasRoom) s₀.raw (h.filterMap HeapEvent.did?) s.raw := by
  induction hr with
  | start => exact .start
  | @next h s s' ca e _ hs hq ih =>
    obtain ⟨c, a⟩ := ca
    obtain ⟨e', ca, he, hraw⟩ := (heapStep_cases hs hq.1).raw
    rw [List.filterMap_cons_some he]
    exact ih.next hraw (hq.2 e' he)

theorem Accounted.run [Fintype τ] {s₀ : HeapState τ W} (h₀ : Accounted grant [] s₀)
    (hcard : Fintype.card τ ≤ MAX_NUM_SEGMENTS) (hrest : s₀.state.AtRest)
    (hr : Run (heapStep grant) neverAstray s₀ h s) : Accounted grant h s := by
  induction hr with
  | start => exact h₀
  | @next h s s' ca e hr hs hq ih =>
    obtain ⟨c, a⟩ := ca
    have hrun := hr.forgetHeap.toState hcard hrest fun _ hq => hq
    refine ih.step (heapStep_cases hs hq.1) fun he hraw => ?_
    obtain ⟨hsound, hroom⟩ := hq.2 _ he
    exact hrun.sound hcard hrest hsound hroom hraw

end

/-! ## The end and the beginning

`tm_create` makes the blocks of the first segment and `tm_destroy` releases those of the
segments there are. What is between them decides whether anything is left. -/

section

variable {l : HeapLedger}

omit [DecidableEq τ] [Zero W] in
/-- `segment_destroy` releases the four arrays of a segment. -/
theorem segmentDestroy_fresh (nWords : ℕ) {k : ℕ} {held : List ℕ}
    (hl : HeapLedger.Holds grant l ((Blocks.fresh k).blocks ++ held)) :
    ∃ l', Blocks.segmentDestroy nWords (Blocks.fresh k) l = some l' ∧
      HeapLedger.Holds grant l' held := by
  refine ⟨_, if_neg fun h => Option.some_ne_none _ h.2, ?_⟩
  have hperm : [k, k + 1, k + 2, k + 3].Perm [k + 3, k + 2, k, k + 1] :=
    (List.reverse_perm _).symm.trans (((List.Perm.swap ..).cons _).cons _)
  exact (hl.perm (hperm.append_right held)).free.free.free.free

theorem destroySegments {b : Blocks} (nWords : ℕ → ℕ) {held : List ℕ} (is : List ℕ) :
    ∀ {l : HeapLedger}, (∀ i ∈ is, ∃ k, b.arrays i = Blocks.fresh k) →
      HeapLedger.Holds grant l (is.flatMap (fun i => (b.arrays i).blocks) ++ held) →
      ∃ l', is.foldlM (fun l i => Blocks.segmentDestroy (nWords i) (b.arrays i) l) l = some l' ∧
        HeapLedger.Holds grant l' held := by
  induction is with
  | nil => exact fun _ hl => ⟨_, rfl, hl⟩
  | cons i is ih =>
    intro l hfresh hl
    obtain ⟨hi, hfresh⟩ := List.forall_mem_cons.mp hfresh
    obtain ⟨k, hk⟩ := hi
    rw [List.flatMap_cons, List.append_assoc, hk] at hl
    obtain ⟨l', hdestroy, hl'⟩ := segmentDestroy_fresh (nWords i) hl
    obtain ⟨l'', hrest, hl''⟩ := ih hfresh hl'
    refine ⟨l'', ?_, hl''⟩
    rw [List.foldlM_cons, hk, hdestroy]
    exact hrest

omit [DecidableEq τ] [Zero W] in
/-- `tm_destroy` releases what the region holds, and loses what it has lost. -/
theorem Accounted.tmDestroy {h : List (HeapEvent τ W)} {s : HeapState τ W}
    (hacc : Accounted grant h s) :
    ∃ l, Blocks.tmDestroy s.state.region s.blocks = some l ∧
      (HeapLedger.Balanced grant l ↔ ¬ Reuses h) := by
  obtain ⟨lost, hl, hlost⟩ := hacc.holds
  obtain ⟨p, hp⟩ := Option.ne_none_iff_exists'.mp hacc.array
  obtain ⟨l, hdestroy, hl⟩ := destroySegments
    (fun i => (s.state.region.segments i).nWords) (List.range s.state.region.nSegments)
    (fun i hi => hacc.fresh i (List.mem_range.mp hi)) hl
  rw [hp] at hl
  refine ⟨(l.free (some p)).free (some s.blocks.self), ?_, ?_⟩
  · simp only [Blocks.tmDestroy, hp, hdestroy, Option.map_some]
  · rw [← hlost]
    have hperm : (lost ++ [p, s.blocks.self]).Perm (p :: s.blocks.self :: lost) :=
      List.perm_append_comm
    exact (hl.perm hperm).free.free.balanced_iff

variable {globalLock batcherLock : Bool} {size align : ℕ} {segments : ℕ → Segment W}
  {arrays : ℕ → Arrays} {isRoFlags : ℕ → Bool}

variable (globalLock batcherLock isRoFlags) in
/-- Past the region and its array, `tm_create` is the two locks and the first segment. -/
theorem tmCreate_of_initSegment (h₀ : grant l.calls = true) (h₁ : grant l.called.calls = true)
    {ok : Bool} {segment : Segment W} {a : Arrays} {l' : HeapLedger}
    (heq : Blocks.initSegment grant (segments 0) (arrays 0) align size l.called.called =
      (ok, segment, a, l')) :
    Blocks.tmCreate grant globalLock batcherLock size align segments arrays isRoFlags l =
      if globalLock = false then
        (none, (l.called.called.free (some l.called.calls)).free (some l.calls))
      else if batcherLock = false ∨ ok = false then
        (none, (l'.free (some l.called.calls)).free (some l.calls))
      else
        (some (⟨1, Function.update segments 0 segment, align, size, isRoFlags, ⟨[]⟩⟩,
          ⟨l.calls, some l.called.calls, Function.update arrays 0 a, l'⟩), l') := by
  rw [Blocks.tmCreate, HeapLedger.alloc_of_grant h₀]
  simp only [HeapLedger.alloc_of_grant h₁, heq]

variable (globalLock batcherLock size align segments arrays isRoFlags) in
/-- What `tm_create` leaves: a region and its blocks; or nothing, unless it had a first
segment and could not initialise the lock of the batcher. -/
theorem tmCreate_cases (hl : HeapLedger.Holds grant l []) :
    (∃ b, Blocks.tmCreate grant globalLock batcherLock size align segments arrays isRoFlags l =
        (some (tmCreate size align segments isRoFlags, b), b.ledger) ∧ b.segments ≠ none ∧
      (∃ k, b.arrays 0 = Blocks.fresh k) ∧ HeapLedger.Holds grant b.ledger (b.held 1 [])) ∨
    ∃ l' left, Blocks.tmCreate grant globalLock batcherLock size align segments arrays isRoFlags l =
        (none, l') ∧ HeapLedger.Holds grant l' left ∧
      (left = [] ↔
        ¬ (globalLock = true ∧ batcherLock = false ∧ ∀ k < 6, grant (l.calls + k) = true)) := by
  by_cases h₀ : grant l.calls = true
  swap
  · rw [Bool.not_eq_true] at h₀
    refine .inr ⟨l.called, [], ?_, hl.refused h₀, iff_of_true rfl ?_⟩
    · rw [Blocks.tmCreate, HeapLedger.alloc_of_not_grant h₀]
    · intro h
      exact absurd (h.2.2 0 (by decide)) (by simp [h₀])
  have hl₁ := hl.granted h₀
  by_cases h₁ : grant l.called.calls = true
  swap
  · rw [Bool.not_eq_true] at h₁
    refine .inr
      ⟨l.called.called.free (some l.calls), [], ?_, (hl₁.refused h₁).free, iff_of_true rfl ?_⟩
    · rw [Blocks.tmCreate, HeapLedger.alloc_of_grant h₀]
      simp only [HeapLedger.alloc_of_not_grant h₁]
    · intro h
      have := h.2.2 1 (by decide)
      rw [HeapLedger.called_calls] at h₁
      rw [h₁] at this
      cases this
  have hl₂ := hl₁.granted h₁
  by_cases hg : globalLock = false
  · rw [tmCreate_of_initSegment globalLock batcherLock isRoFlags h₀ h₁ rfl, if_pos hg]
    exact .inr ⟨_, [], rfl, hl₂.free.free, iff_of_true rfl fun h => by simp [hg] at h⟩
  rcases Blocks.initSegment_cases grant (segments 0) (arrays 0) align size l.called.called with
    ⟨hgrant, heq⟩ | ⟨segment', a', l', heq, href, hkeep⟩
  · -- the first segment is there
    have hno : ¬ HeapLedger.Refused grant l.called.called
        l.called.called.called.called.called.called := by
      rintro ⟨k, hk, hle, hnot⟩
      have hk : k < l.called.called.calls + 4 := hk
      have := hgrant (k - l.called.called.calls) (by omega)
      rw [Nat.add_sub_cancel' hle, hnot] at this
      cases this
    have hl₆ := Blocks.holds_fresh hl₂ hno
    rw [tmCreate_of_initSegment globalLock batcherLock isRoFlags h₀ h₁ heq, if_neg hg]
    by_cases hb : batcherLock = false
    · -- its arrays are lost with the region
      simp only [hb, true_or, if_true]
      refine .inr ⟨_, (Blocks.fresh l.called.called.calls).blocks, rfl,
        (hl₆.perm List.perm_append_comm).free.free,
        iff_of_false (List.cons_ne_nil _ _) fun h => h ⟨by simpa using hg, trivial, fun k hk => ?_⟩⟩
      obtain _ | _ | k := k
      · exact h₀
      · exact h₁
      · have hcalls : l.calls + (k + 1 + 1) = l.called.called.calls + k := by
          simp only [HeapLedger.called_calls]
          omega
        rw [hcalls]
        exact hgrant k (by omega)
    · simp only [hb, false_or, reduceCtorEq, if_false]
      refine .inl ⟨_, rfl, Option.some_ne_none _,
        ⟨_, Function.update_self 0 (Blocks.fresh l.called.called.calls) arrays⟩, ?_⟩
      simp only [Blocks.held, List.range_one, List.flatMap_singleton, Function.update_self,
        List.nil_append]
      exact hl₆
  · rw [tmCreate_of_initSegment globalLock batcherLock isRoFlags h₀ h₁ heq, if_neg hg]
    simp only [or_true, if_true]
    refine .inr ⟨_, [], rfl, (hkeep _ hl₂).free.free, iff_of_true rfl ?_⟩
    intro h
    have hle := Blocks.initSegment_calls_le grant (segments 0) (arrays 0) align size l.called.called
    rw [heq] at hle
    obtain ⟨k, hk, hle', hno⟩ := href
    simp only [HeapLedger.called_calls] at hle hle'
    have := h.2.2 (k - l.calls) (by omega)
    rw [Nat.add_sub_cancel' (by omega), hno] at this
    cases this

omit [DecidableEq τ] in
/-- The system with a new region and the blocks that `tm_create` got for it. -/
theorem accounted_tmCreate {s : HeapState τ W}
    (hregion : s.state.region = tmCreate size align segments isRoFlags)
    (harray : s.blocks.segments ≠ none) (hfresh : ∃ k, s.blocks.arrays 0 = Blocks.fresh k)
    (hl : HeapLedger.Holds grant s.blocks.ledger (s.blocks.held 1 [])) : Accounted grant [] s := by
  have hno : ¬ Reuses ([] : List (HeapEvent τ W)) := fun ⟨_, hmem⟩ => List.not_mem_nil hmem
  refine ⟨harray, ?_, ?_, [], ?_, iff_of_true rfl hno⟩
  · intro i hi
    rw [hregion] at hi
    obtain rfl : i = 0 := Nat.lt_one_iff.mp hi
    exact hfresh
  · intro i hi
    rw [hregion] at hi
    exact absurd hi List.not_mem_nil
  · rw [hregion]
    exact hl

end

/-- A region with the blocks that `tm_create` got for it, and two threads at rest. -/
def restHeap : HeapState Bool ℕ where
  raw := restRaw
  blocks :=
    ⟨0, some 1, Function.update (fun _ => ⟨none, none, none, none⟩) 0 (Blocks.fresh 2), ⟨6, []⟩⟩
  locked := false

theorem tmCreate_restHeap :
    Blocks.tmCreate (fun _ => true) true true 16 8 (fun _ => initSegment 8 0)
      (fun _ => ⟨none, none, none, none⟩) (fun _ => false) ⟨0, []⟩ =
        (some (restHeap.state.region, restHeap.blocks), restHeap.blocks.ledger) := rfl

/-- A segment is allocated, and freed by another transaction. -/
def freedOnce : List (HeapEvent Bool ℕ) :=
  [.did (.ended ⟨1, 0⟩ true) false, .did (.freed ⟨1, 0⟩ 1) false, .did .silent false,
    .did (.began true ⟨1, 0⟩) false, .did (.called true false) false,
    .did (.ended ⟨0, 0⟩ true) false, .did (.alloced ⟨0, 0⟩ 1) false, .did .silent false,
    .did (.began true ⟨0, 0⟩) false, .did (.called true false) false]

end DualStm
