import DualStm.Overflow
import DualStm.Serializability
import Mathlib.Order.Interval.Finset.Nat

/-!
# What an abort undoes

An abort releases the words of its transaction and takes back the marks of its
frees, but it does nothing about the segments the transaction was handed out:
they are lost, unless somebody else frees them in time. Only the lost segments make
the array of segments grow beyond what is in use.
-/

namespace DualStm

variable {τ W : Type}

/-! ## Segments in use

Which segments are in use can be told from the history: those that are live, and those handed
out to a transaction of the epoch that runs. Their number is what `n_segments` should be
bounded by. -/

/-- The segments handed out to the transactions of an epoch that did not leave through
`tm_end`. -/
def dropped (ep : ℕ) (h : List (Event τ W)) : List ℕ :=
  h.filterMap fun
    | .alloced T seg => if T.epoch = ep ∧ T ∉ endedIn ep h then some seg else none
    | _ => none

/-- The segments in use: live, or handed out to a transaction of the epoch that runs. -/
def inUse : List (Event τ W) → List ℕ
  | [] => []
  | e :: h =>
    match e.left? with
    | some (T, true) =>
      (inUse h).filter fun seg => seg ∉ freedIn T.epoch (e :: h) ∧ seg ∉ dropped T.epoch (e :: h)
    | _ =>
      match e with
      | .alloced _ seg => seg :: inUse h
      | _ => inUse h

/-- The largest number of segments that were in use at one time. -/
def peak : List (Event τ W) → ℕ
  | [] => 0
  | e :: h => max (peak h) (inUse (e :: h)).toFinset.card

/-- Whatever was handed out to a transaction that aborted was freed by the end of its
epoch, by another one. -/
def DropsFreed : List (Event τ W) → Prop
  | [] => True
  | e :: h => (∀ T, e.left? = some (T, true) → ∀ seg ∈ dropped T.epoch (e :: h),
      seg ∈ freedIn T.epoch (e :: h)) ∧ DropsFreed h

/-- If whatever was handed out to a transaction that aborted is freed in its epoch, the
segments in use are the live ones. -/
theorem DropsFreed.inUse_eq {h : List (Event τ W)} (hd : DropsFreed h) : inUse h = live h := by
  induction h with
  | nil => rfl
  | cons e h ih =>
    obtain ⟨he, hd⟩ := hd
    rcases hl : e.left? with _ | ⟨T, last⟩
    · cases e with
      | alloced T seg => exact congrArg (seg :: ·) (ih hd)
      | ended => cases hl
      | aborted => cases hl
      | _ => exact ih hd
    · cases last with
      | true =>
        simp only [inUse, live, hl, ih hd]
        apply List.filter_congr
        intro seg _
        by_cases hf : seg ∈ freedIn T.epoch (e :: h)
        · simp [hf]
        · have hn : seg ∉ dropped T.epoch (e :: h) := fun hm => hf (he T hl seg hm)
          simp [hf, hn]
      | false =>
        simp only [inUse, live, hl]
        cases e with
        | alloced T seg => cases hl
        | _ => exact ih hd

theorem card_le_peak {h : List (Event τ W)} : (inUse h).toFinset.card ≤ peak h := by
  cases h with
  | nil => exact Nat.le_refl _
  | cons e h => exact Nat.le_max_right _ _

variable [DecidableEq τ] [Zero W] {h : List (Event τ W)} {s s' : State τ W} {e : Event τ W}

/-! ## Words of live segments

A word of a live segment has what was committed there, or what a transaction of this epoch has
written. So an abort that takes its writes back leaves what was committed. -/

/-- Only `tm_alloc` makes a word where there was none. -/
theorem Step.valid_iff (hs : Step s e s') {ℓ : Loc} (hk : ∀ T, e ≠ .alloced T ℓ.1) :
    s'.Valid ℓ ↔ s.Valid ℓ := by
  have hwords : (s'.region.segments ℓ.1).nWords = (s.region.segments ℓ.1).nWords := by
    by_cases hf : ∃ T, e = .freed T ℓ.1
    · obtain ⟨T, rfl⟩ := hf
      rw [tmFree_eq_some hs.of_freed.2.2, Region.setSegment_self]
    · refine (hs.sameSegment ?_).nWords
      cases e with
      | alloced T k => exact fun heq => hk T (by rw [heq])
      | freed T k => exact fun heq => hf ⟨T, by rw [heq]⟩
      | _ => trivial
  have hn : ℓ.1 < s'.region.nSegments → ℓ.1 < s.region.nSegments := by
    have hstep := hs.listStep
    generalize s'.region = r at hstep
    cases hstep with
    | same _ _ hn => exact fun hlt => hn ▸ hlt
    | alloced => exact fun hlt => lt_of_lt_tmAlloc hlt fun heq => hk _ (by rw [heq])
    | freed => exact id
    | closed _ _ hcommit => exact fun hlt => hcommit.nSegments ▸ hlt
  rw [State.Valid, State.Valid, hwords]
  exact ⟨fun hv => ⟨hn hv.1, hv.2⟩, fun hv => ⟨hv.1.trans_le hs.nSegments_le, hv.2⟩⟩

/-- The committed words of live segments change at the end of an epoch only. -/
theorem Step.committed_eq (hs : Step s e s') (hc : ¬ e.closes) {ℓ : Loc}
    (hk : ∀ T, e ≠ .alloced T ℓ.1) : s'.committed ℓ = s.committed ℓ := by
  have hw := hs.wordStep hk fun hc' => absurd hc' hc
  have hv := hs.valid_iff hk
  rw [State.committed, State.committed, readReadOnlyCopy_eq, readReadOnlyCopy_eq]
  by_cases hval : s.Valid ℓ
  · rw [if_pos hval, if_pos (hv.mpr hval)]
    exact hw.readOnly hc
  · rw [if_neg hval, if_neg fun h => hval (hv.mp h)]

/-- What `tm_alloc` hands out is new, so it is not a segment that is live. -/
theorem FreeList.not_alloced (hlist : FreeList h s) (hs : Step s e s') {i : ℕ}
    (hi : i = 0 ∨ i ∈ DualStm.live h) (T : Txn) : e ≠ .alloced T i := by
  rintro rfl
  obtain ⟨size, -, rfl, -⟩ := hs.of_alloced
  obtain ⟨⟨hpos, hfresh⟩, -⟩ := hlist.popped size
  rcases hi with hi | hi
  · exact hpos.ne' hi
  · exact hfresh hi

omit [DecidableEq τ] [Zero W] in
theorem mem_live_of_cons {seg : ℕ} (hk : ∀ T, e ≠ .alloced T seg) (hl : seg ∈ live (e :: h)) :
    seg ∈ live h := by
  by_cases hc : e.closes
  · obtain ⟨T, hT⟩ := hc
    exact ((live_closing hT).mp hl).1
  · by_cases ha : ∃ U k, e = .alloced U k
    · obtain ⟨U, k, rfl⟩ := ha
      rcases List.mem_cons.mp hl with rfl | hl
      · exact absurd rfl (hk U)
      · exact hl
    · rwa [live_cons hc fun U k heq => ha ⟨U, k, heq⟩] at hl

variable [Fintype τ]

/-- What outlives the end of the epoch is not marked. -/
theorem FreeList.unmarked (hlist : FreeList h s) (hb : Books h s) (hs : Step s e s')
    (hc : e.closes) (honce : pushesOnce h s e) {i : ℕ} (hi : i < s.region.nSegments)
    (hl : i = 0 ∨ i ∈ DualStm.live (e :: h)) : (s.region.segments i).deregistered = NONE := by
  by_contra hd
  obtain ⟨hlive, hf⟩ := (hlist.marked i hi hd).resolve_left (honce hc i hi hd)
  rcases hl with rfl | hl
  · exact lt_irrefl _ (hlist.live 0 hlive).1
  · obtain ⟨T, hT⟩ := hc
    apply ((live_closing hT).mp hl).2
    rw [hs.left_epoch hT]
    exact hf.mem_freedIn hb hs ⟨T, hT⟩ hi

/-- Whatever is pending on a word of a live segment was written in this epoch. -/
def AllAuthored (h : List (Event τ W)) (s : State τ W) : Prop :=
  ∀ ℓ, s.Valid ℓ → ℓ.1 = 0 ∨ ℓ.1 ∈ live h → Authored h s ℓ

theorem allAuthored_step (hau : AllAuthored h s) (hlist : FreeList h s) (hb : Books h s)
    (hs : Step s e s') (honce : pushesOnce h s e) : AllAuthored (e :: h) s' := by
  intro ℓ hv hl
  by_cases ha : ∃ T, e = .alloced T ℓ.1
  · -- a new segment is not written
    obtain ⟨T, rfl⟩ := ha
    obtain ⟨size, -, hseg, hr⟩ := hs.of_alloced
    intro hwr
    rw [Region.word, hr, hseg, tmAlloc_self] at hwr
    cases hwr
  · have hk : ∀ T, e ≠ .alloced T ℓ.1 := fun T heq => ha ⟨T, heq⟩
    have hv' := (hs.valid_iff hk).mp hv
    exact authored_step (hau ℓ hv' (hl.imp_right (mem_live_of_cons hk))) hb hs
      (fun hc => ⟨hv'.1, hlist.unmarked hb hs hc honce hv'.1 hl⟩) hv' hk

/-- The commit changes a word only if a transaction that left through `tm_end` wrote it. -/
theorem committed_closing (hau : AllAuthored h s) (hlist : FreeList h s) (hb : Books h s)
    (hacts : Acts h) (hs : Step s e s') (hc : e.closes) (honce : pushesOnce h s e) {ℓ : Loc}
    (hl : ℓ.1 = 0 ∨ ℓ.1 ∈ live (e :: h)) :
    s'.committed ℓ = s.committed ℓ ∨
      ∃ U v, Ended (e :: h) U ∧ U.epoch = s.epoch ∧ .wrote U ℓ v ∈ h := by
  have hk : ∀ T, e ≠ .alloced T ℓ.1 := by
    rintro T rfl
    exact not_closes_of_left_none rfl hc
  by_cases hv : s.Valid ℓ
  · have hmark := hlist.unmarked hb hs hc honce hv.1 hl
    by_cases hwr : (s.region.word ℓ).control.wordHasBeenWritten = true
    · obtain ⟨⟨v, hmem⟩, hE⟩ := (hau ℓ hv (hl.imp_right (mem_live_of_cons hk))).ended hb hacts
        hs hc hv hwr
      exact .inr ⟨_, v, hE, rfl, hmem⟩
    · left
      have hw := hs.wordStep hk fun _ => ⟨⟨hv.1, hmark⟩, hv⟩
      rw [State.committed, State.committed, if_pos hv, if_pos ((hs.valid_iff hk).mpr hv)]
      apply hw.readOnly_of_clean hc
      simpa using hwr
  · left
    rw [State.committed, State.committed, if_neg hv, if_neg fun h => hv ((hs.valid_iff hk).mp h)]

/-! ## Runs

The free list, the authors and the marks along a run. The statements about an abort, a commit
and a free are read off the invariants of the run. -/

/-- What was handed out in the current epoch is live. -/
structure AllocsKept (h : List (Event τ W)) (s : State τ W) : Prop where
  /-- only transactions allocate -/
  begun : ∀ {T seg}, .alloced T seg ∈ h → T ∈ begun h
  /-- the segments of the current epoch -/
  live : ∀ {T seg}, .alloced T seg ∈ h → T.epoch = s.epoch → seg ∈ live h

theorem AllocsKept.step (hk : AllocsKept h s) (hb : Books h s) (hs : Step s e s') :
    AllocsKept (e :: h) s' := by
  have hbegun : ∀ {T seg}, .alloced T seg ∈ e :: h → T ∈ DualStm.begun h := by
    intro T seg hmem
    rcases List.mem_cons.mp hmem with rfl | hmem
    · obtain ⟨size, hrun, -⟩ := hs.of_alloced
      exact hrun.begun hb
    · exact hk.begun hmem
  refine ⟨fun {T seg} hmem => begun_subset_cons (hbegun hmem), fun {T seg} hmem hep => ?_⟩
  rcases hs.epoch with ⟨hc, hep'⟩ | ⟨-, -, hep'⟩
  · rcases List.mem_cons.mp hmem with rfl | hmem
    · exact List.mem_cons_self
    · exact mem_live_cons hc (hk.live hmem (hep.trans hep'))
  · -- nobody has begun in the new epoch
    exfalso
    rcases hb.ids.begun_lt (hbegun hmem) with hlt | ⟨heq, -⟩
    · have hlt : T.epoch < s.epoch := hlt
      omega
    · have heq : T.epoch = s.epoch := heq
      omega

/-- Every segment but the first is live or on the stack, and if nothing was lost there
have been as many in use at one time. -/
structure Covered (h : List (Event τ W)) (s : State τ W) : Prop where
  /-- no segment is lost, to the books at least -/
  cover : ∀ i < s.region.nSegments, 0 < i → i ∈ s.region.freeSegIndices.vals ∨ i ∈ live h
  /-- the array has grown for a reason -/
  peak : DropsFreed h → s.region.nSegments ≤ 1 + peak h

theorem covered_step (hcov : Covered h s) (hlist : FreeList h s) (hk : FreesKept h s)
    (hb : Books h s) (hacts : Acts (e :: h)) (hcard : Fintype.card τ ≤ NONE) (hs : Step s e s')
    (honce : pushesOnce h s e) : Covered (e :: h) s' := by
  have hle : DualStm.peak h ≤ DualStm.peak (e :: h) := Nat.le_max_left _ _
  by_cases hc : e.closes
  · obtain ⟨pushed, hvals, -, hpushed⟩ :=
      (pushesFreed_iff hlist hk hb hacts hcard hs hc).mpr honce
    have hn := (hs.commitSpec hc).nSegments
    obtain ⟨T, hT⟩ := hc
    constructor
    · intro i hi hpos
      rw [hn] at hi
      rw [hvals, List.mem_append, hpushed]
      by_cases hf : i ∈ freedIn s.epoch (e :: h)
      · exact .inl (.inl hf)
      · rcases hcov.cover i hi hpos with hmem | hl
        · exact .inl (.inr hmem)
        · refine .inr ((live_closing hT).mpr ⟨hl, ?_⟩)
          rw [hs.left_epoch hT]
          exact hf
    · intro hd
      rw [hn]
      exact (hcov.peak hd.2).trans (Nat.add_le_add_left hle 1)
  · have hlist' := hs.listStep
    generalize hr : s'.region = r at hlist'
    cases hlist' with
    | same _ ha hn hvals =>
      subst hr
      constructor
      · intro i hi hpos
        rw [hvals, live_cons hc ha]
        exact hcov.cover i (hn ▸ hi) hpos
      · intro hd
        rw [hn]
        exact (hcov.peak hd.2).trans (Nat.add_le_add_left hle 1)
    | @alloced T size =>
      obtain ⟨-, -, -, -, hvals⟩ := hlist.popped size
      have hcover : ∀ i < s'.region.nSegments, 0 < i → i ∈ s'.region.freeSegIndices.vals ∨
          i ∈ live (.alloced T (tmAlloc s.region size).1 :: h) := by
        intro i hi hpos
        rw [live_alloced, List.mem_cons]
        by_cases hself : i = (tmAlloc s.region size).1
        · exact .inr (.inl hself)
        · rw [hr] at hi ⊢
          rcases hcov.cover i (lt_of_lt_tmAlloc hi hself) hpos with hmem | hl
          · exact .inl (((hvals i).mp hmem).resolve_right fun h => hself h.2)
          · exact .inr (.inr hl)
      refine ⟨hcover, ?_⟩
      intro hd
      rcases tmAlloc_cases s.region size with ⟨-, -, hn, hvals'⟩ | ⟨-, hn⟩
      · -- the stack is empty: everything is in use
        have hsub : Finset.Ioo 0 s'.region.nSegments ⊆
            (inUse (.alloced T (tmAlloc s.region size).1 :: h)).toFinset := by
          intro i hi
          obtain ⟨hpos, hlt⟩ := Finset.mem_Ioo.mp hi
          rw [List.mem_toFinset, hd.inUse_eq]
          apply (hcover i hlt hpos).resolve_left
          rw [hr, hvals']
          exact List.not_mem_nil
        have hcard := Finset.card_le_card hsub
        rw [Nat.card_Ioo] at hcard
        have hpeak := card_le_peak (h := .alloced T (tmAlloc s.region size).1 :: h)
        omega
      · rw [hr, hn]
        exact (hcov.peak hd.2).trans (Nat.add_le_add_left hle 1)
    | freed =>
      constructor
      · intro i hi hpos
        rw [hr] at hi ⊢
        rcases hcov.cover i hi hpos with hmem | hl
        · exact .inl hmem
        · exact .inr (mem_live_cons hc hl)
      · intro hd
        rw [hr]
        exact (hcov.peak hd.2).trans (Nat.add_le_add_left hle 1)
    | closed hl => exact absurd ⟨_, hl⟩ hc

/-- What holds along a run of the transactions that abort and of the segments in use. -/
structure Rolled (h : List (Event τ W)) (s : State τ W) : Prop where
  /-- the free list -/
  list : FreeList h s
  /-- the frees -/
  frees : FreesKept h s
  /-- the allocations -/
  allocs : AllocsKept h s
  /-- the words -/
  authored : AllAuthored h s
  /-- the segments -/
  covered : Covered h s

theorem Rolled.run {s₀ : State τ W} {size align : ℕ} {segments : ℕ → Segment W}
    {isRoFlags : ℕ → Bool} (hcard : Fintype.card τ ≤ NONE) (hrest : s₀.AtRest)
    (hregion : s₀.region = tmCreate size align segments isRoFlags)
    (hr : Run State.step (fun h s e => freesLive h s e ∧ pushesOnce h s e) s₀ h s) :
    Rolled h s := by
  have h₀ := freeList_tmCreate (s := s₀) hregion
  induction hr with
  | start =>
    refine ⟨h₀, .run hcard hrest h₀ .start, ⟨fun hm => absurd hm List.not_mem_nil,
      fun hm => absurd hm List.not_mem_nil⟩, fun ℓ hv _ hwr => ?_, fun i hi hpos => ?_,
      fun _ => ?_⟩
    · have hseg : ℓ.1 = 0 := by
        have hlt := hv.1
        rw [hregion] at hlt
        exact Nat.lt_one_iff.mp hlt
      have hw : s₀.region.word ℓ = (initSegment align size : Segment W).word ℓ.2 := by
        rw [Region.word, hregion, hseg]
        simp [tmCreate]
      rw [hw] at hwr
      cases hwr
    · rw [hregion] at hi
      exact absurd hpos (not_lt.mpr (Nat.lt_one_iff.mp hi).le)
    · rw [hregion]
      exact Nat.le_refl _
  | next hr hs hq ih =>
    have hb := Books.run hrest hr
    have hlist := freeList_step ih.list hb (step_cases hs) hq.1 hq.2
    have hacts := Acts.run hrest (hr.next hs hq)
    exact ⟨hlist, freesKept_step ih.frees ih.list hb hcard (step_cases hs) hq.1,
      ih.allocs.step hb (step_cases hs),
      allAuthored_step ih.authored ih.list hb (step_cases hs) hq.2,
      covered_step ih.covered ih.list ih.frees hb hacts hcard (step_cases hs) hq.2⟩

/-- A transaction frees a segment, is handed out another one, and aborts. -/
def givingUp : List (Event (Fin 3) ℕ) :=
  [.silent, .released ⟨1, 1⟩ (2, 0), .silent, .released ⟨1, 1⟩ (1, 0), .silent,
    .released ⟨1, 1⟩ (0, 1), .released ⟨1, 1⟩ (0, 0), .refused ⟨1, 1⟩ (0, 0), .silent,
    .ended ⟨1, 0⟩ false, .writeDone ⟨1, 0⟩ 0 0, .wrote ⟨1, 0⟩ (0, 0) 1, .silent,
    .alloced ⟨1, 1⟩ 2, .freed ⟨1, 1⟩ 1, .silent, .silent, .began 2 ⟨1, 1⟩, .began 1 ⟨1, 0⟩,
    .ended ⟨0, 0⟩ true, .alloced ⟨0, 0⟩ 1, .silent, .waiting 2, .called 2 false, .waiting 1,
    .called 1 false, .began 0 ⟨0, 0⟩, .called 0 false]

/-- The actions of the threads in the run above. -/
def givingUpActs : List (Action (Fin 3) ℕ) :=
  [.tmBegin 0 false, .enter 0, .tmBegin 1 false, .enter 1, .tmBegin 2 false,
    .enter 2, .setFlag 0, .tmAlloc 0 8, .tmEnd 0, .wake 1, .wake 2, .setFlag 1, .setFlag 2,
    .tmFree 2 (getVirtAddr 1), .tmAlloc 2 8, .tmWrite 1 (fun _ => 1) 8 getVirtStartAddr, .word 1,
    .word 1, .tmEnd 1, .tmRead 2 getVirtStartAddr 8, .word 2, .abort 2, .abort 2, .abort 2,
    .abort 2, .abort 2, .abort 2, .abort 2]

end DualStm
