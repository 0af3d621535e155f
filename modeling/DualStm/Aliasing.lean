import DualStm.Raw
import DualStm.Tracking

/-!
# Which segments are live

`tm_alloc` takes an index off the stack of free indices, or a new one. `tm_free`
marks the segment, an abort takes the mark back, and the commit of an epoch
pushes every marked segment. But it leaves the mark where it is: if nobody hands
the segment out before the next commit, that one pushes it again.

As long as this does not happen, the stack holds every dead segment at most once
and no live one (`FreeList`).
-/

namespace DualStm

variable {τ W : Type}

/-! ## Live segments

A segment is live from its `tm_alloc` to the commit of the epoch in which it was freed. Both
are read off the history, since the region has nothing that says so. -/

/-- The segments freed by the transactions of an epoch that left through `tm_end`. -/
def freedIn (ep : ℕ) (h : List (Event τ W)) : List ℕ :=
  h.filterMap fun
    | .freed T seg => if T ∈ endedIn ep h then some seg else none
    | _ => none

/-- The live segments: handed out, and not freed in an epoch that is over. -/
def live : List (Event τ W) → List ℕ
  | [] => []
  | e :: h =>
    match e.left? with
    | some (T, true) => (live h).filter fun seg => seg ∉ freedIn T.epoch (e :: h)
    | _ =>
      match e with
      | .alloced _ seg => seg :: live h
      | _ => live h

section

variable {h : List (Event τ W)} {e : Event τ W} {T : Txn} {seg ep : ℕ}

theorem mem_freedIn (hf : .freed T seg ∈ h) (hT : Ended h T) (hep : T.epoch = ep) :
    seg ∈ freedIn ep h :=
  List.mem_filterMap.mpr ⟨_, hf, if_pos (mem_endedIn.mpr ⟨hT, hep⟩)⟩

theorem live_closing (hl : e.left? = some (T, true)) :
    seg ∈ live (e :: h) ↔ seg ∈ live h ∧ seg ∉ freedIn T.epoch (e :: h) := by
  simp [live, hl]

theorem live_alloced : live (.alloced T seg :: h) = seg :: live h := rfl

theorem live_cons (hc : ¬ e.closes) (ha : ∀ T seg, e ≠ .alloced T seg) :
    live (e :: h) = live h := by
  cases e with
  | alloced T seg => exact absurd rfl (ha T seg)
  | ended T last =>
    cases last with
    | true => exact absurd ⟨T, rfl⟩ hc
    | false => rfl
  | aborted T last =>
    cases last with
    | true => exact absurd ⟨T, rfl⟩ hc
    | false => rfl
  | _ => rfl

end

/-! ## What a step does to the free list

Each kind of step is looked at once: which indices it takes from the free list, which ones it
pushes, and what it does to the mark of a segment. -/

/-- The clients free only live segments. -/
def freesLive : Discipline (State τ W) (Event τ W) := fun h _ e =>
  ∀ T seg, e = .freed T seg → seg ∈ live h

/-- The commit of an epoch finds no marked segment on the stack. -/
def pushesOnce : Discipline (State τ W) (Event τ W) := fun _ s e =>
  e.closes → ∀ i < s.region.nSegments, (s.region.segments i).deregistered ≠ NONE →
    i ∉ s.region.freeSegIndices.vals

/-- The segment that a free of the history names. -/
def Event.freed? : Event τ W → Option ℕ
  | .freed _ seg => some seg
  | _ => none

instance (h : List (Event τ W)) (s : State τ W) (e : Event τ W) : Decidable (freesLive h s e) :=
  decidable_of_iff (∀ seg ∈ e.freed?, seg ∈ live h) (by
    cases e <;> simp [freesLive, Event.freed?])

instance (h : List (Event τ W)) (s : State τ W) (e : Event τ W) : Decidable (pushesOnce h s e) :=
  inferInstanceAs (Decidable (e.closes → _))

variable [DecidableEq τ] [Zero W]

/-- What a step can do to the free list: `r` is the region after it. -/
inductive ListStep (s : State τ W) : Event τ W → Region W → Prop where
  /-- nothing, or it takes back a mark -/
  | same {e : Event τ W} {r : Region W} (hc : ¬ e.closes) (ha : ∀ T seg, e ≠ .alloced T seg)
      (hn : r.nSegments = s.region.nSegments)
      (hvals : r.freeSegIndices.vals = s.region.freeSegIndices.vals)
      (hmark : ∀ k, (r.segments k).deregistered = (s.region.segments k).deregistered ∨
        (r.segments k).deregistered = NONE) : ListStep s e r
  /-- `tm_alloc` -/
  | alloced {T : Txn} {size : ℕ} :
    ListStep s (.alloced T (tmAlloc s.region size).1) (tmAlloc s.region size).2
  /-- `tm_free` -/
  | freed {t : τ} {id seg : ℕ} (hin : s.client t = .inside id) (hr : (s.call t).cursor = none)
      (hseg : seg < s.region.nSegments) :
    ListStep s (.freed (s.txn id) seg)
      (s.region.setSegment seg { s.region.segments seg with deregistered := id })
  /-- the commit of the epoch -/
  | closed {e : Event τ W} {T : Txn} {r : Region W} (hl : e.left? = some (T, true))
      (hT : T.epoch = s.epoch) (hcommit : CommitSpec s.region.nSegments s.region r) :
    ListStep s e r

variable {s s' : State τ W} {e : Event τ W}

theorem Step.listStep (hs : Step s e s') : ListStep s e s'.region := by
  have hset : ∀ {e : Event τ W} {i : ℕ} {segment : Segment W}, e.left? = none →
      (∀ T seg, e ≠ .alloced T seg) →
      (segment.deregistered = (s.region.segments i).deregistered ∨
        segment.deregistered = NONE) → ListStep s e (s.region.setSegment i segment) := by
    intro e i segment hl ha hmark
    refine .same (not_closes_of_left_none hl) ha rfl rfl ?_
    intro k
    obtain rfl | hki := eq_or_ne k i
    · rw [Region.setSegment_self]
      exact hmark
    · rw [Region.setSegment_ne _ _ hki]
      exact .inl rfl
  have hsame : ∀ {e : Event τ W} {r : Region W}, e.left? = none →
      (∀ T seg, e ≠ .alloced T seg) → r.nSegments = s.region.nSegments →
      r.freeSegIndices = s.region.freeSegIndices → r.segments = s.region.segments →
      ListStep s e r := by
    intro e r hl ha hn hvals hsegs
    exact .same (not_closes_of_left_none hl) ha hn (by rw [hvals]) fun k => .inl (by rw [hsegs])
  cases hs with
  | read => exact hset rfl (by rintro T seg ⟨⟩) (.inl (sameShape_readWord ..).deregistered)
  | readRefused => exact hset rfl (by rintro T seg ⟨⟩) (.inl (sameShape_readWord ..).deregistered)
  | wrote hc hr hidx hw =>
    exact hset rfl (by rintro T seg ⟨⟩) (.inl (sameShape_writeWord hw).deregistered)
  | released =>
    exact hset rfl (by rintro T seg ⟨⟩) (.inl (sameShape_releaseWord ..).deregistered)
  | undone =>
    rw [State.setCall_region, State.setRegion_region, undoFree]
    split
    · exact hset rfl (by rintro T seg ⟨⟩) (.inr rfl)
    · exact hsame rfl (by rintro T seg ⟨⟩) rfl rfl rfl
  | alloced => exact .alloced
  | freed hc hr hro hseg hf =>
    rw [State.setRegion_region, tmFree_eq_some hf]
    exact .freed hc (by rw [hr]; rfl) hseg
  | @left t id fin hc hr hn =>
    refine .same ?_ ?_ rfl rfl fun k => .inl rfl
    · rintro ⟨T, hT⟩
      cases fin <;> simp [Event.left?] at hT
    · rintro T seg heq
      cases fin <;> cases heq
  | @closed t id fin r hc hr hn hcommit =>
    exact .closed (T := s.txn id) (by cases fin <;> rfl) rfl
      (commitTranscationsInEpoch_spec hcommit)
  | _ => exact hsame rfl (by rintro T seg ⟨⟩) rfl rfl rfl

/-- The leave that ends an epoch commits. -/
theorem Step.commitSpec (hs : Step s e s') (hc : e.closes) :
    CommitSpec s.region.nSegments s.region s'.region := by
  have hstep := hs.listStep
  generalize s'.region = r at hstep
  cases hstep with
  | same hnc => exact absurd hc hnc
  | alloced => exact absurd hc (not_closes_of_left_none rfl)
  | freed => exact absurd hc (not_closes_of_left_none rfl)
  | closed _ _ hcommit => exact hcommit

/-! ## The free list

An index is on the stack, live, freed in this epoch or above `n_segments`, and in one of these
places only. Each kind of step moves it from one to another. -/

/-- The segment was marked in this epoch, by a transaction whose abort would take
the mark back. -/
def FreedNow (h : List (Event τ W)) (s : State τ W) (seg : ℕ) : Prop :=
  ∃ T, T.id = (s.region.segments seg).deregistered ∧ T ∈ begun h ∧ T.epoch = s.epoch ∧
    .freed T seg ∈ h ∧ ¬ Aborted h T ∧ ∀ i j, Aborting s T i j → i ≤ seg

/-- The stack of free indices against the segments that are live. -/
structure FreeList (h : List (Event τ W)) (s : State τ W) : Prop where
  /-- there is a first segment -/
  pos : 0 < s.region.nSegments
  /-- no index is on the stack twice -/
  nodup : s.region.freeSegIndices.vals.Nodup
  /-- only dead segments are -/
  free : ∀ i ∈ s.region.freeSegIndices.vals, 0 < i ∧ i < s.region.nSegments ∧ i ∉ live h
  /-- live segments are in use -/
  live : ∀ i ∈ live h, 0 < i ∧ i < s.region.nSegments
  /-- a marked segment is on the stack, or will be at the end of the epoch -/
  marked : ∀ i < s.region.nSegments, (s.region.segments i).deregistered ≠ NONE →
    i ∈ s.region.freeSegIndices.vals ∨ i ∈ DualStm.live h ∧ FreedNow h s i

variable {h : List (Event τ W)}

omit [DecidableEq τ] in
/-- What `tm_alloc` takes off the stack, and what it leaves there. -/
theorem FreeList.popped (hinv : FreeList h s) (size : ℕ) :
    (0 < (tmAlloc s.region size).1 ∧ (tmAlloc s.region size).1 ∉ DualStm.live h) ∧
      (tmAlloc s.region size).1 < (tmAlloc s.region size).2.nSegments ∧
      (tmAlloc s.region size).2.freeSegIndices.vals.Nodup ∧
      (tmAlloc s.region size).1 ∉ (tmAlloc s.region size).2.freeSegIndices.vals ∧
      ∀ i, i ∈ s.region.freeSegIndices.vals ↔ i ∈ (tmAlloc s.region size).2.freeSegIndices.vals ∨
        (s.region.freeSegIndices.vals ≠ [] ∧ i = (tmAlloc s.region size).1) := by
  rcases tmAlloc_cases s.region size with ⟨hvals, hseg, hn, hvals'⟩ | ⟨hvals, hn⟩
  · rw [hseg, hn, hvals, hvals']
    refine ⟨⟨hinv.pos, ?_⟩, Nat.lt_succ_self _, List.nodup_nil, List.not_mem_nil, fun i => by simp⟩
    intro hmem
    exact absurd (hinv.live _ hmem).2 (lt_irrefl _)
  · obtain ⟨hpos, hlt, hlive⟩ := hinv.free (tmAlloc s.region size).1 (hvals ▸ List.mem_cons_self)
    have hnodup := hinv.nodup
    rw [hvals, List.nodup_cons] at hnodup
    refine ⟨⟨hpos, hlive⟩, hn ▸ hlt, hnodup.2, hnodup.1, ?_⟩
    intro i
    rw [hvals, List.mem_cons, or_comm]
    simp

variable [Fintype τ]

/-- A mark stays that of a transaction whose abort would take it back. -/
theorem freedNow_step {seg : ℕ} (hf : FreedNow h s seg) (hb : Books h s) (hs : Step s e s')
    (hc : ¬ e.closes) (hseg : seg < s.region.nSegments)
    (hmark : (s'.region.segments seg).deregistered = (s.region.segments seg).deregistered)
    (hne : (s'.region.segments seg).deregistered ≠ NONE) : FreedNow (e :: h) s' seg := by
  obtain ⟨T, hid, hbegun, hep, hmem, hna, hpass⟩ := hf
  have hep' : s'.epoch = s.epoch := by
    rcases hs.epoch with ⟨-, hep⟩ | ⟨⟨id, hl⟩, -, -⟩
    · exact hep
    · exact absurd ⟨_, hl⟩ hc
  refine ⟨T, hid.trans hmark.symm, begun_subset_cons hbegun, hep.trans hep'.symm,
    List.mem_cons_of_mem _ hmem, ?_, ?_⟩
  · rintro ⟨b, hA⟩
    rcases List.mem_cons.mp hA with rfl | hA
    · -- the abort of the transaction ends only past the segment
      obtain ⟨i, j, ha, hi⟩ := hs.of_aborted
      exact hi ((hpass i j ha).trans_lt hseg)
    · exact hna ⟨b, hA⟩
  · intro i j ha
    rcases hs.aborting_cases hb hc ha with ha | ⟨rfl, -⟩ | ⟨m, -, ha, -⟩ |
      ⟨k, m, rfl, -, ha, -, hr⟩
    · exact hpass i j ha
    · exact Nat.zero_le _
    · exact hpass i m ha
    · rcases lt_or_eq_of_le (hpass k m ha) with hlt | rfl
      · exact hlt
      · -- the abort takes the mark back
        rw [hr, undoFree, if_pos hid.symm, Region.setSegment_self] at hne
        exact absurd rfl hne

/-- At the end of the epoch, who marked a segment has left through `tm_end`. -/
theorem FreedNow.mem_freedIn {seg : ℕ} (hf : FreedNow h s seg) (hb : Books h s) (hs : Step s e s')
    (hc : e.closes) (hseg : seg < s.region.nSegments) : seg ∈ freedIn s.epoch (e :: h) := by
  obtain ⟨U, -, hbegun, hep, hfr, hna, hpass⟩ := hf
  refine DualStm.mem_freedIn (List.mem_cons_of_mem _ hfr) ?_ hep
  have hlt : U.epoch < s'.epoch := by
    rcases hs.epoch with ⟨hn, -⟩ | ⟨-, -, hep'⟩
    · exact absurd hc hn
    · omega
  apply (hasLeft_iff.mp ((hb.step hs).ids.left_of_lt (begun_subset_cons hbegun) hlt)).resolve_right
  rintro ⟨b, hA⟩
  rcases List.mem_cons.mp hA with rfl | hA
  · obtain ⟨k, j, ha, hk⟩ := hs.of_aborted
    exact hk ((hpass k j ha).trans_lt hseg)
  · exact hna ⟨b, hA⟩

/-- A step that frees a segment has written the mark of its own transaction on it. -/
theorem freedNow_of_freed {t : τ} {id seg : ℕ} (hb : Books h s)
    (hs : Step s (.freed (s.txn id) seg) s') (hin : s.client t = .inside id)
    (hcur : (s.call t).cursor = none)
    (hr : s'.region = s.region.setSegment seg { s.region.segments seg with deregistered := id }) :
    FreedNow (.freed (s.txn id) seg :: h) s' seg := by
  have hc : ¬ (Event.freed (s.txn id) seg : Event τ W).closes := not_closes_of_left_none rfl
  -- the thread that frees it is in no abort
  have hrun : Running s (s.txn id) := ⟨t, hin, rfl, hcur⟩
  refine ⟨s.txn id, by rw [hr, Region.setSegment_self],
    begun_subset_cons (mem_begun (hb.of_inside hin rfl).1), ?_, List.mem_cons_self, ?_, ?_⟩
  · rcases hs.epoch with ⟨-, hep⟩ | ⟨⟨k, hl⟩, -, -⟩
    · exact hep.symm
    · cases hl
  · rw [aborted_cons_of_none rfl]
    exact (hrun.sound hb).1
  · intro k j ha
    rcases hs.aborting_cases hb hc ha with ha | ⟨rfl, -⟩ | ⟨m, -, ha, -⟩ |
      ⟨k, m, rfl, -, ha, -, -⟩
    · exact absurd ha (hrun.not_aborting hb)
    · exact Nat.zero_le _
    · exact absurd ha (hrun.not_aborting hb)
    · exact absurd ha (hrun.not_aborting hb)

namespace FreeList

/-- Within an epoch a mark that stays is still accounted for. -/
theorem marked_stays (hinv : FreeList h s) (hb : Books h s) (hs : Step s e s') (hc : ¬ e.closes)
    {i : ℕ} (hi : i < s.region.nSegments)
    (hmark : (s'.region.segments i).deregistered = (s.region.segments i).deregistered)
    (hne : (s'.region.segments i).deregistered ≠ NONE) :
    i ∈ s.region.freeSegIndices.vals ∨ i ∈ DualStm.live h ∧ FreedNow (e :: h) s' i := by
  rcases hinv.marked i hi (hmark ▸ hne) with hmem | ⟨hl, hf⟩
  · exact .inl hmem
  · exact .inr ⟨hl, freedNow_step hf hb hs hc hi hmark hne⟩

/-- A step that at most takes a mark back. -/
theorem same (hinv : FreeList h s) (hb : Books h s) (hs : Step s e s') (hc : ¬ e.closes)
    (ha : ∀ T seg, e ≠ .alloced T seg) (hn : s'.region.nSegments = s.region.nSegments)
    (hvals : s'.region.freeSegIndices.vals = s.region.freeSegIndices.vals)
    (hmark : ∀ k, (s'.region.segments k).deregistered = (s.region.segments k).deregistered ∨
      (s'.region.segments k).deregistered = NONE) : FreeList (e :: h) s' := by
  refine ⟨?_, ?_, ?_, ?_, ?_⟩
  · rw [hn]
    exact hinv.pos
  · rw [hvals]
    exact hinv.nodup
  · rw [hvals, hn, live_cons hc ha]
    exact hinv.free
  · rw [hn, live_cons hc ha]
    exact hinv.live
  · intro i hi hne
    rw [hvals, live_cons hc ha]
    rcases hmark i with heq | heq
    · exact hinv.marked_stays hb hs hc (hn ▸ hi) heq hne
    · exact absurd heq hne

/-- `tm_alloc` takes an index off the stack, or a new one. -/
theorem alloced {T : Txn} {size : ℕ} (hinv : FreeList h s) (hb : Books h s)
    (hs : Step s (.alloced T (tmAlloc s.region size).1) s')
    (hr : s'.region = (tmAlloc s.region size).2) :
    FreeList (.alloced T (tmAlloc s.region size).1 :: h) s' := by
  have hc : ¬ (Event.alloced T (tmAlloc s.region size).1 : Event τ W).closes :=
    not_closes_of_left_none rfl
  obtain ⟨⟨hpos, hfresh⟩, hlt, hnodup, hnew, hvals⟩ := hinv.popped size
  have hmono := tmAlloc_nSegments_le s.region size
  refine ⟨?_, ?_, ?_, ?_, ?_⟩
  · rw [hr]
    exact hinv.pos.trans_le hmono
  · rw [hr]
    exact hnodup
  · intro i hi
    rw [hr] at hi ⊢
    obtain ⟨hi₀, hin, hil⟩ := hinv.free i ((hvals i).mpr (.inl hi))
    refine ⟨hi₀, hin.trans_le hmono, ?_⟩
    rw [live_alloced, List.mem_cons, not_or]
    exact ⟨fun heq => hnew (heq ▸ hi), hil⟩
  · intro i hi
    rw [hr]
    rcases List.mem_cons.mp hi with rfl | hi
    · exact ⟨hpos, hlt⟩
    · exact ⟨(hinv.live i hi).1, (hinv.live i hi).2.trans_le hmono⟩
  · intro i hi hne
    have hself : i ≠ (tmAlloc s.region size).1 := by
      rintro rfl
      rw [hr, tmAlloc_self] at hne
      exact hne rfl
    have hin : i < s.region.nSegments := lt_of_lt_tmAlloc (hr ▸ hi) hself
    have heq : (s'.region.segments i).deregistered = (s.region.segments i).deregistered := by
      rw [hr, tmAlloc_ne hself]
    rw [hr]
    rcases hinv.marked_stays hb hs hc hin heq hne with hmem | ⟨hl, hf⟩
    · exact .inl (((hvals i).mp hmem).resolve_right fun hn => hself hn.2)
    · exact .inr ⟨List.mem_cons_of_mem _ hl, hf⟩

/-- `tm_free` marks a live segment, so the free list keeps its form. -/
theorem freed {t : τ} {id seg : ℕ} (hinv : FreeList h s) (hb : Books h s)
    (hs : Step s (.freed (s.txn id) seg) s') (hin : s.client t = .inside id)
    (hcur : (s.call t).cursor = none) (hlive : seg ∈ DualStm.live h)
    (hr : s'.region = s.region.setSegment seg { s.region.segments seg with deregistered := id }) :
    FreeList (.freed (s.txn id) seg :: h) s' := by
  have hc : ¬ (Event.freed (s.txn id) seg : Event τ W).closes := not_closes_of_left_none rfl
  have hlive' : DualStm.live (.freed (s.txn id) seg :: h) = DualStm.live h :=
    live_cons hc (by rintro T k ⟨⟩)
  have hn : s'.region.nSegments = s.region.nSegments := by rw [hr, Region.setSegment_nSegments]
  have hvals : s'.region.freeSegIndices = s.region.freeSegIndices := by
    rw [hr, Region.setSegment_freeSegIndices]
  refine ⟨?_, ?_, ?_, ?_, ?_⟩
  · rw [hn]
    exact hinv.pos
  · rw [hvals]
    exact hinv.nodup
  · rw [hn, hvals, hlive']
    exact hinv.free
  · rw [hn, hlive']
    exact hinv.live
  · intro i hi hne
    rw [hvals, hlive']
    obtain rfl | hiseg := eq_or_ne i seg
    · exact .inr ⟨hlive, freedNow_of_freed hb hs hin hcur hr⟩
    · refine hinv.marked_stays hb hs hc (hn ▸ hi) ?_ hne
      rw [hr, Region.setSegment_ne _ _ hiseg]

/-- The commit of an epoch pushes every marked segment, and takes it from the live ones. -/
theorem closed {T : Txn} (hinv : FreeList h s) (hb : Books h s) (hs : Step s e s')
    (honce : pushesOnce h s e) (hl : e.left? = some (T, true)) (hT : T.epoch = s.epoch)
    (hcommit : CommitSpec s.region.nSegments s.region s'.region) : FreeList (e :: h) s' := by
  have hc : e.closes := ⟨T, hl⟩
  have hmem : ∀ i, i ∈ s'.region.freeSegIndices.vals ↔
      (i < s.region.nSegments ∧ (s.region.segments i).deregistered ≠ NONE) ∨
        i ∈ s.region.freeSegIndices.vals := by
    intro i
    rw [hcommit.freeSegIndices, List.mem_append, List.mem_reverse, List.mem_filter]
    simp
  refine ⟨?_, ?_, ?_, ?_, ?_⟩
  · rw [hcommit.nSegments]
    exact hinv.pos
  · rw [hcommit.freeSegIndices, List.nodup_append]
    refine ⟨List.nodup_reverse.mpr (List.nodup_range.filter _), hinv.nodup, ?_⟩
    rintro i hi _ hj rfl
    rw [List.mem_reverse, List.mem_filter, List.mem_range] at hi
    exact honce hc i hi.1 (by simpa using hi.2) hj
  · intro i hi
    rw [hcommit.nSegments, live_closing hl]
    rcases (hmem i).mp hi with ⟨hin, hne⟩ | hi
    · obtain ⟨hlv, hf⟩ := (hinv.marked i hin hne).resolve_left (honce hc i hin hne)
      exact ⟨(hinv.live i hlv).1, hin, fun hlv' => hlv'.2 (hT ▸ hf.mem_freedIn hb hs hc hin)⟩
    · obtain ⟨hi₀, hin, hlv⟩ := hinv.free i hi
      exact ⟨hi₀, hin, fun hlv' => hlv hlv'.1⟩
  · intro i hi
    rw [hcommit.nSegments]
    exact hinv.live i ((live_closing hl).mp hi).1
  · intro i hi hne
    -- whatever is marked has just been pushed
    have heq : (s'.region.segments i).deregistered = (s.region.segments i).deregistered := by
      rw [hcommit.segments]
      split <;> rfl
    exact .inl ((hmem i).mpr (.inl ⟨hcommit.nSegments ▸ hi, heq ▸ hne⟩))

end FreeList

theorem freeList_step (hinv : FreeList h s) (hb : Books h s) (hs : Step s e s')
    (hlive : freesLive h s e) (honce : pushesOnce h s e) : FreeList (e :: h) s' := by
  have hlist := hs.listStep
  generalize hr : s'.region = r at hlist
  cases hlist with
  | same hc ha hn hvals hmark =>
    subst hr
    exact hinv.same hb hs hc ha hn hvals hmark
  | alloced => exact hinv.alloced hb hs hr
  | freed hin hcur hseg => exact hinv.freed hb hs hin hcur (hlive _ _ rfl) hr
  | closed hl hT hcommit =>
    subst hr
    exact hinv.closed hb hs honce hl hT hcommit

theorem FreeList.run {s₀ : State τ W} (hrest : s₀.AtRest) (h₀ : FreeList [] s₀)
    (hr : Run State.step (fun h s e => freesLive h s e ∧ pushesOnce h s e) s₀ h s) :
    FreeList h s := by
  induction hr with
  | start => exact h₀
  | next hr hs hq ih => exact freeList_step ih (.run hrest hr) (step_cases hs) hq.1 hq.2

omit [Fintype τ] [DecidableEq τ] in
/-- A region that has just been created has nothing on its stack, and so it has a free list of
the form. -/
theorem freeList_tmCreate {size align : ℕ} {segments : ℕ → Segment W} {isRoFlags : ℕ → Bool}
    (hregion : s.region = tmCreate size align segments isRoFlags) : FreeList [] s := by
  refine ⟨?_, ?_, fun i hi => ?_, fun i hi => absurd hi List.not_mem_nil, fun i hi hne => ?_⟩ <;>
    rw [hregion] at *
  · exact Nat.zero_lt_one
  · exact List.nodup_nil
  · exact absurd hi List.not_mem_nil
  · obtain rfl : i = 0 := Nat.lt_one_iff.mp hi
    simp [tmCreate, initSegment] at hne

/-! ## Room on the stack

The indices on the stack are different segments, and so are those that a commit adds to
them. `vals` has as many entries as a region may have segments. -/

section

variable {W : Type}


/-- Distinct numbers below a bound are no more than the bound. -/
theorem length_le_of_lt {l : List ℕ} {n : ℕ} (hnodup : l.Nodup) (hlt : ∀ i ∈ l, i < n) :
    l.length ≤ n := by
  have hsub : l ⊆ List.range n := fun i hi => List.mem_range.mpr (hlt i hi)
  calc l.length ≤ (List.range n).length := (List.subperm_of_subset hnodup hsub).length_le
    _ = n := List.length_range

/-- If no marked segment is on the stack, the commit has room for all of them. -/
theorem commit_fits {region : Region W} (hn : region.nSegments ≤ MAX_NUM_SEGMENTS)
    (hnodup : region.freeSegIndices.vals.Nodup)
    (hin : ∀ i ∈ region.freeSegIndices.vals, i < region.nSegments)
    (honce : ∀ i < region.nSegments, (region.segments i).deregistered ≠ NONE →
      i ∉ region.freeSegIndices.vals) :
    ∃ region', commitTranscationsInEpoch region = some region' := by
  have hupTo : ∀ k ≤ region.nSegments, ∃ r, (List.range k).foldlM commitStep region = some r := by
    intro k
    induction k with
    | zero => exact fun _ => ⟨region, rfl⟩
    | succ k ih =>
      intro hk
      obtain ⟨r, hr⟩ := ih (Nat.le_of_succ_le hk)
      have hspec := commitSpec_upTo hr
      have hsame : r.segments k = region.segments k := by
        rw [hspec.segments, if_neg fun hc => lt_irrefl _ hc.1]
      rw [List.range_succ, List.foldlM_append, hr]
      simp only [Option.bind_eq_bind, Option.bind_some, List.foldlM_cons, List.foldlM_nil]
      by_cases hd : (region.segments k).deregistered = NONE
      · exact ⟨r.setSegment k (commitSegment (r.segments k)), by simp [commitStep, hsame, hd]⟩
      · -- the index to be pushed and those on the stack are all different
        have hnew : (k :: r.freeSegIndices.vals).Nodup := by
          rw [hspec.freeSegIndices, List.nodup_cons, List.mem_append, List.mem_reverse,
            List.mem_filter, List.mem_range, List.nodup_append]
          refine ⟨?_, List.nodup_reverse.mpr (List.nodup_range.filter _), hnodup, ?_⟩
          · rintro (⟨hlt, -⟩ | hmem)
            · exact lt_irrefl _ hlt
            · exact honce k hk hd hmem
          · rintro i hi _ hj rfl
            rw [List.mem_reverse, List.mem_filter, List.mem_range] at hi
            exact honce i (hi.1.trans hk) (by simpa using hi.2) hj
        have hlt : ∀ i ∈ k :: r.freeSegIndices.vals, i < region.nSegments := by
          intro i hi
          rcases List.mem_cons.mp hi with rfl | hi
          · exact hk
          · rw [hspec.freeSegIndices, List.mem_append, List.mem_reverse, List.mem_filter,
              List.mem_range] at hi
            rcases hi with ⟨hlt, -⟩ | hi
            · exact hlt.trans hk
            · exact hin i hi
        have hroom : r.freeSegIndices.vals.length < MAX_STACK_SIZE := by
          have hle := length_le_of_lt hnew hlt
          rw [List.length_cons] at hle
          exact hle.trans hn
        exact ⟨{ r with freeSegIndices := ⟨k :: r.freeSegIndices.vals⟩ },
          by simp [commitStep, hsame, hd, push, hroom]⟩
  exact hupTo _ (Nat.le_refl _)

end

section

variable {s₀ s : State τ W} {e : Event τ W} {size align : ℕ}
  {segments : ℕ → Segment W} {isRoFlags : ℕ → Bool}

omit [DecidableEq τ] [Zero W] [Fintype τ] in
/-- What the list of free segments needs: the clients free only live segments, a commit finds
no marked segment on the stack, and there are at most `MAX_NUM_SEGMENTS` segments. -/
def keepsList : Discipline (State τ W) (Event τ W) := fun h s e =>
  (freesLive h s e ∧ pushesOnce h s e) ∧ s.region.nSegments ≤ MAX_NUM_SEGMENTS

instance (h : List (Event τ W)) (s : State τ W) (e : Event τ W) : Decidable (keepsList h s e) :=
  inferInstanceAs (Decidable (_ ∧ _))

theorem hasRoom_of_keepsList (hrest : s₀.AtRest)
    (hregion : s₀.region = tmCreate size align segments isRoFlags)
    (hr : Run State.step keepsList s₀ h s) (hq : keepsList h s e) : hasRoom h s e := by
  intro hc
  have hlist := FreeList.run hrest (freeList_tmCreate hregion) (hr.mono fun _ _ _ hq => hq.1)
  exact commit_fits hq.2 hlist.nodup (fun i hi => (hlist.free i hi).2.1) (hq.1.2 hc)

/-- The run of the library behind a run that keeps the list of free segments. -/
theorem Run.toState_of_keepsList {r₀ r : Raw τ W} (hcard : Fintype.card τ ≤ MAX_NUM_SEGMENTS)
    (hrest : r₀.state.AtRest)
    (hregion : r₀.state.region = tmCreate size align segments isRoFlags)
    (hr : Run Raw.step (Raw.under keepsList) r₀ h r) :
    Run State.step keepsList r₀.state h r.state :=
  hr.toState hcard hrest fun hr hq => hasRoom_of_keepsList hrest hregion hr hq

end

end DualStm
