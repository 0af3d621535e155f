import DualStm.Aliasing

/-!
# Frees and the marks they leave

From a `tm_free` on, the mark of a live segment is that of the transaction that
freed it, until this transaction gives up: nobody else takes the mark away, and
`tm_alloc` hands out dead segments only.
-/

namespace DualStm

variable {τ W : Type} [DecidableEq τ] [Zero W]

variable {h : List (Event τ W)} {s s' : State τ W} {e : Event τ W}

/-- What a step can do to the mark of a segment. -/
theorem Step.mark_cases (hs : Step s e s') (i : ℕ) :
    (s'.region.segments i).deregistered = (s.region.segments i).deregistered ∨
      (∃ T j, Aborting s T i j ∧ T.id = (s.region.segments i).deregistered) ∨
      (∃ id, e = .freed (s.txn id) i ∧ (s'.region.segments i).deregistered = id) ∨
      ∃ T, e = .alloced T i := by
  have hset : ∀ {k : ℕ} {segment : Segment W},
      segment.deregistered = (s.region.segments k).deregistered →
      ((s.region.setSegment k segment).segments i).deregistered =
        (s.region.segments i).deregistered := by
    intro k segment hsame
    obtain rfl | hik := eq_or_ne i k
    · rw [Region.setSegment_self, hsame]
    · rw [Region.setSegment_ne _ _ hik]
  cases hs with
  | read => exact .inl (hset (sameShape_readWord ..).deregistered)
  | readRefused => exact .inl (hset (sameShape_readWord ..).deregistered)
  | wrote hc hr hidx hw => exact .inl (hset (sameShape_writeWord hw).deregistered)
  | released => exact .inl (hset (sameShape_releaseWord ..).deregistered)
  | @undone t id k j hc hr hk hj =>
    rw [State.setCall_region, State.setRegion_region, undoFree]
    split
    · rename_i hmark
      obtain rfl | hik := eq_or_ne i k
      · exact .inr (.inl ⟨s.txn id, j, ⟨t, hc, rfl, by rw [hr]; rfl⟩, hmark.symm⟩)
      · exact .inl (by rw [Region.setSegment_ne _ _ hik])
    · exact .inl rfl
  | @alloced t id size hc hr hro =>
    by_cases hi : i = (tmAlloc s.region size).1
    · exact .inr (.inr (.inr ⟨_, by rw [hi]⟩))
    · exact .inl (by rw [State.setRegion_region, tmAlloc_ne hi])
  | @freed t id seg r hc hr hro hseg hf =>
    rw [State.setRegion_region, tmFree_eq_some hf]
    obtain rfl | hi := eq_or_ne i seg
    · exact .inr (.inr (.inl ⟨id, rfl, by rw [Region.setSegment_self]⟩))
    · exact .inl (by rw [Region.setSegment_ne _ _ hi])
  | closed hc hr hn hcommit =>
    left
    rw [State.setRegion_region, (commitTranscationsInEpoch_spec hcommit).segments]
    split <;> rfl
  | _ => exact .inl rfl

/-- A segment is freed by a transaction under way. -/
theorem Step.of_freed {T : Txn} {seg : ℕ} (hs : Step s (.freed T seg) s') :
    Running s T ∧ seg < s.region.nSegments ∧ tmFree s.region T.id seg = some s'.region := by
  generalize he : Event.freed T seg = e at hs
  cases hs with
  | @freed t id seg r hc hr hro hseg hf =>
    obtain ⟨rfl, rfl⟩ := Event.freed.inj he
    exact ⟨⟨t, hc, rfl, by rw [hr]; rfl⟩, hseg, hf⟩
  | @left t id fin => cases fin <;> cases he
  | @closed t id fin => cases fin <;> cases he
  | _ => cases he

/-- What was handed out is what `tm_alloc` takes. -/
theorem Step.of_alloced {T : Txn} {seg : ℕ} (hs : Step s (.alloced T seg) s') :
    ∃ size, Running s T ∧ seg = (tmAlloc s.region size).1 ∧
      s'.region = (tmAlloc s.region size).2 := by
  generalize he : Event.alloced T seg = e at hs
  cases hs with
  | @alloced t id size hc hr hro =>
    obtain ⟨rfl, rfl⟩ := Event.alloced.inj he
    exact ⟨size, ⟨t, hc, rfl, by rw [hr]; rfl⟩, rfl, rfl⟩
  | @left t id fin => cases fin <;> cases he
  | @closed t id fin => cases fin <;> cases he
  | _ => cases he

/-- Segments are added, and never taken away. -/
theorem Step.nSegments_le (hs : Step s e s') : s.region.nSegments ≤ s'.region.nSegments := by
  have hstep := hs.listStep
  generalize s'.region = r at hstep
  cases hstep with
  | same _ _ hn => exact hn.ge
  | alloced => exact tmAlloc_nSegments_le _ _
  | freed => exact Nat.le_refl _
  | closed _ _ hcommit => exact hcommit.nSegments.ge

omit [DecidableEq τ] [Zero W] in
/-- A segment that is live stays so within the epoch. -/
theorem mem_live_cons {seg : ℕ} (hc : ¬ e.closes) (hl : seg ∈ live h) : seg ∈ live (e :: h) := by
  by_cases ha : ∃ U k, e = .alloced U k
  · obtain ⟨U, k, rfl⟩ := ha
    exact List.mem_cons_of_mem _ hl
  · rw [live_cons hc fun U k heq => ha ⟨U, k, heq⟩]
    exact hl

/-- The frees of a history, and the marks that they have left in the region. -/
structure FreesKept (h : List (Event τ W)) (s : State τ W) : Prop where
  /-- only transactions free -/
  begun : ∀ {T seg}, .freed T seg ∈ h → T ∈ begun h
  /-- what was freed in the current epoch is live -/
  live : ∀ {T seg}, .freed T seg ∈ h → T.epoch = s.epoch →
    seg ∈ live h ∧ seg < s.region.nSegments
  /-- what was freed bears the mark of its transaction, if that has not given up -/
  marked : ∀ {T seg}, .freed T seg ∈ h → T.epoch = s.epoch → Sound h s T →
    (s.region.segments seg).deregistered = T.id

variable [Fintype τ]

omit [Zero W] in
theorem Running.begun {T : Txn} (hT : Running s T) (hb : Books h s) : T ∈ begun h := by
  obtain ⟨t, ht, hep, -⟩ := hT
  exact mem_begun (hb.of_inside ht hep).1

theorem freesKept_step (hk : FreesKept h s) (hlist : FreeList h s) (hb : Books h s)
    (hcard : Fintype.card τ ≤ NONE) (hs : Step s e s') (hlive : freesLive h s e) :
    FreesKept (e :: h) s' := by
  have hbegun : ∀ {T seg}, .freed T seg ∈ e :: h → T ∈ DualStm.begun h := by
    intro T seg hmem
    rcases List.mem_cons.mp hmem with rfl | hmem
    · exact hs.of_freed.1.begun hb
    · exact hk.begun hmem
  -- in a new epoch nobody has freed anything
  have hsame : ∀ {T seg}, .freed T seg ∈ e :: h → T.epoch = s'.epoch →
      ¬ e.closes ∧ T.epoch = s.epoch := by
    intro T seg hmem hep
    rcases hs.epoch with ⟨hc, hep'⟩ | ⟨-, -, hep'⟩
    · exact ⟨hc, hep.trans hep'⟩
    · exfalso
      rcases hb.ids.begun_lt (hbegun hmem) with hlt | ⟨heq, -⟩
      · have hlt : T.epoch < s.epoch := hlt
        omega
      · have heq : T.epoch = s.epoch := heq
        omega
  refine ⟨fun {T seg} hmem => begun_subset_cons (hbegun hmem), fun {T seg} hmem hep => ?_,
    fun {T seg} hmem hep hsound => ?_⟩
  · obtain ⟨hc, hep⟩ := hsame hmem hep
    rcases List.mem_cons.mp hmem with rfl | hmem
    · exact ⟨mem_live_cons hc (hlive _ _ rfl), hs.of_freed.2.1.trans_le hs.nSegments_le⟩
    · obtain ⟨hl, hlt⟩ := hk.live hmem hep
      exact ⟨mem_live_cons hc hl, hlt.trans_le hs.nSegments_le⟩
  · obtain ⟨hc, hep⟩ := hsame hmem hep
    rcases List.mem_cons.mp hmem with rfl | hold
    · rw [tmFree_eq_some hs.of_freed.2.2, Region.setSegment_self]
    · have hsound := (hs.sound hb hsound).1
      have hid := hk.marked hold hep hsound
      rcases hs.mark_cases seg with heq | ⟨U, j, ha, hU⟩ | ⟨id, rfl, heq⟩ | ⟨U, rfl⟩
      · exact heq.trans hid
      · -- only its own transaction takes the mark back
        have hUT : U = T := by
          obtain ⟨t, -, hUep, -⟩ := id ha
          obtain ⟨ep, k⟩ := U
          obtain ⟨ep', k'⟩ := T
          rw [show k = k' from hU.trans hid, show ep = ep' from hUep.trans hep.symm]
        exact absurd (hUT ▸ ha) (hsound.2 _ _)
      · -- a marked segment can be freed again by the same transaction only
        have hf := hs.of_freed.2.2
        rw [heq]
        by_contra hne
        have hnone : (s.region.segments seg).deregistered ≠ NONE := by
          rw [hid]
          exact hb.begun_ne_none hcard (hk.begun hold) hep
        rw [tmFree, if_neg hnone, if_pos (by rw [hid]; exact fun h => hne h.symm)] at hf
        cases hf
      · -- live segments are not handed out
        obtain ⟨size, -, rfl, -⟩ := hs.of_alloced
        exact absurd (hk.live hold hep).1 (hlist.popped size).1.2

theorem FreesKept.run {s₀ : State τ W} (hcard : Fintype.card τ ≤ NONE) (hrest : s₀.AtRest)
    (h₀ : FreeList [] s₀)
    (hr : Run State.step (fun h s e => freesLive h s e ∧ pushesOnce h s e) s₀ h s) :
    FreesKept h s := by
  induction hr with
  | start =>
    exact ⟨fun hm => absurd hm List.not_mem_nil, fun hm => absurd hm List.not_mem_nil,
      fun hm => absurd hm List.not_mem_nil⟩
  | next hr hs hq ih =>
    exact freesKept_step ih (.run hrest h₀ hr) (.run hrest hr) hcard (step_cases hs) hq.1

end DualStm
