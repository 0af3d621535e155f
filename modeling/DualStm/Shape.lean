import DualStm.Conservation

/-!
# The shape of the region in runs that free nothing

In a run without `tm_free` segments are only added, and what a loop of `tm_read`
or `tm_write` walks over stays inside its segment. Segments that were freed
before the run (`dead`) may still be marked or wait to be reused; the run stays
away from them, and nothing is claimed of them.
-/

namespace DualStm

variable {τ W : Type}

/-- A step that frees nothing and stays away from the segments `dead`. -/
def Event.avoids (dead : Set ℕ) : Event τ W → Prop
  | .read _ ℓ _ => ℓ.1 ∉ dead
  | .wrote _ ℓ _ => ℓ.1 ∉ dead
  | .alloced _ seg => seg ∉ dead
  | .freed _ _ => False
  | .freeRefused _ _ => False
  | _ => True

/-! ## The shape of the region

Segments are added, and keep their number of words as long as they are in use. So an index that
a loop has computed stays within its segment. -/

/-- Segments are added, and none is taken away. -/
structure Region.Grows (r r' : Region W) : Prop where
  /-- no segment goes -/
  nSegments : r.nSegments ≤ r'.nSegments
  /-- no segment changes its length -/
  nWords : ∀ {i}, i < r.nSegments → (r'.segments i).nWords = (r.segments i).nWords

namespace Region.Grows

theorem refl (r : Region W) : r.Grows r := ⟨le_rfl, fun _ => rfl⟩

theorem setSegment {r : Region W} {i : ℕ} {seg : Segment W}
    (hs : seg.nWords = (r.segments i).nWords) : r.Grows (r.setSegment i seg) := by
  refine ⟨le_rfl, ?_⟩
  intro k _
  obtain rfl | hk := eq_or_ne k i
  · rw [Region.setSegment_self, hs]
  · rw [Region.setSegment_ne _ _ hk]

theorem addSegment [Zero W] (r : Region W) (size : ℕ) : r.Grows (addSegment r size).2 := by
  refine ⟨Nat.le_succ _, ?_⟩
  intro k hk
  simp only [DualStm.addSegment, Region.setSegment_ne _ _ hk.ne]

theorem undoFree (r : Region W) (tx i : ℕ) : r.Grows (undoFree r tx i) := by
  unfold DualStm.undoFree
  split
  · exact setSegment rfl
  · exact refl r

theorem commit {r r' : Region W} (hc : CommitSpec r.nSegments r r') : r.Grows r' := by
  refine ⟨hc.nSegments.ge, ?_⟩
  intro i _
  rw [hc.segments i]
  split <;> rfl

end Region.Grows

/-- The part of a region that says which segments are freed. -/
structure Shape (dead : Set ℕ) (r : Region W) : Prop where
  /-- a segment marked as freed is dead -/
  deregistered : ∀ {i}, i < r.nSegments → (r.segments i).deregistered ≠ NONE → i ∈ dead
  /-- an index to be reused is dead -/
  stack : ∀ {i}, i ∈ r.freeSegIndices.vals → i ∈ dead

namespace Shape

variable {dead : Set ℕ} {r : Region W}

theorem setSegment (hsh : Shape dead r) {i : ℕ} {seg : Segment W}
    (hs : seg.deregistered = (r.segments i).deregistered ∨ seg.deregistered = NONE) :
    Shape dead (r.setSegment i seg) := by
  refine ⟨?_, hsh.stack⟩
  intro k hk hd
  obtain rfl | hki := eq_or_ne k i
  · rw [Region.setSegment_self] at hd
    rcases hs with hs | hs
    · exact hsh.deregistered hk (hs ▸ hd)
    · exact absurd hs hd
  · rw [Region.setSegment_ne _ _ hki] at hd
    exact hsh.deregistered hk hd

theorem undoFree (hsh : Shape dead r) (tx i : ℕ) : Shape dead (undoFree r tx i) := by
  unfold DualStm.undoFree
  split
  · exact hsh.setSegment (.inr rfl)
  · exact hsh

/-- Without dead segments on offer, `tm_alloc` adds a segment. -/
theorem tmAlloc_eq [Zero W] (hsh : Shape dead r) {size : ℕ}
    (ha : (tmAlloc r size).1 ∉ dead) : tmAlloc r size = DualStm.addSegment r size := by
  unfold tmAlloc at ha ⊢
  unfold pop at ha ⊢
  rcases hv : r.freeSegIndices.vals with _ | ⟨i, vals⟩
  · rfl
  · simp only [hv] at ha
    exact absurd (hsh.stack (by rw [hv]; exact List.mem_cons_self)) ha

theorem addSegment [Zero W] (hsh : Shape dead r) (size : ℕ) :
    Shape dead (addSegment r size).2 := by
  refine ⟨?_, hsh.stack⟩
  intro k hk hd
  obtain rfl | hki := eq_or_ne k r.nSegments
  · simp [DualStm.addSegment, initSegment] at hd
  · simp only [DualStm.addSegment, Region.setSegment_ne _ _ hki] at hd
    refine hsh.deregistered ?_ hd
    have : k < r.nSegments + 1 := hk
    omega

theorem commit (hsh : Shape dead r) {r' : Region W} (hc : CommitSpec r.nSegments r r') :
    Shape dead r' := by
  constructor
  · intro i hi hd
    rw [hc.nSegments] at hi
    rw [hc.segments i] at hd
    apply hsh.deregistered hi
    split at hd <;> exact hd
  · intro i hi
    rw [hc.freeSegIndices, List.mem_append, List.mem_reverse, List.mem_filter] at hi
    rcases hi with ⟨hlt, hd⟩ | hi
    · exact hsh.deregistered (List.mem_range.mp hlt) (by simpa using hd)
    · exact hsh.stack hi

end Shape

variable [DecidableEq τ]

/-- Every step keeps the shape, and only adds segments. -/
theorem shape_step [Zero W] {dead : Set ℕ} {s s' : State τ W} {e : Event τ W}
    (hsh : Shape dead s.region) (hs : Step s e s') (he : e.avoids dead) :
    Shape dead s'.region ∧ s.region.Grows s'.region := by
  cases hs with
  | @read t id seg start idx stop off target v hc hr hidx hv =>
    have hsame := sameShape_readWord (s.region.segments seg) id (s.region.isRoFlags id) idx
    exact ⟨hsh.setSegment (.inl hsame.deregistered), .setSegment hsame.nWords⟩
  | @readRefused t id seg start idx stop off target hc hr hidx hv =>
    have hsame := sameShape_readWord (s.region.segments seg) id (s.region.isRoFlags id) idx
    exact ⟨hsh.setSegment (.inl hsame.deregistered), .setSegment hsame.nWords⟩
  | wrote hc hr hidx hw =>
    have hsame := sameShape_writeWord hw
    exact ⟨hsh.setSegment (.inl hsame.deregistered), .setSegment hsame.nWords⟩
  | @alloced t id size hc hr hro =>
    rw [State.setRegion_region, hsh.tmAlloc_eq he]
    exact ⟨hsh.addSegment size, .addSegment s.region size⟩
  | flagged hc hr => exact ⟨⟨hsh.deregistered, hsh.stack⟩, ⟨le_rfl, fun _ => rfl⟩⟩
  | freed => exact absurd he id
  | freeRefused => exact absurd he id
  | @released t id i j hc hr hi hj =>
    have hsame := sameShape_releaseWord (s.region.segments i) id j
    exact ⟨hsh.setSegment (.inl hsame.deregistered), .setSegment hsame.nWords⟩
  | undone hc hr hi hj => exact ⟨hsh.undoFree _ _, .undoFree _ _ _⟩
  | closed hc hr hn hcommit =>
    have hspec := commitTranscationsInEpoch_spec hcommit
    exact ⟨hsh.commit hspec, .commit hspec⟩
  | _ => exact ⟨hsh, .refl _⟩

/-! ## Calls under way

A loop of a call is at a word of a segment in use. This depends on the shape only, so the steps
of others leave it true. -/

/-- The segment a loop of `tm_read` or `tm_write` works on, and its bound. -/
def Call.window : Call W → Option (ℕ × ℤ)
  | .reading seg _ _ stop _ _ => some (seg, stop)
  | .writing seg _ _ stop _ _ => some (seg, stop)
  | _ => none

/-- The word the loop of `abort_transaction_tx` is at. -/
def Call.cursor : Call W → Option (ℕ × ℕ)
  | .aborting i j => some (i, j)
  | _ => none

/-- The loop does not leave the segment. -/
def Region.InRange (r : Region W) (seg : ℕ) (stop : ℤ) : Prop :=
  seg < r.nSegments ∧ stop ≤ (r.segments seg).nWords

/-- Every loop of `tm_read` and `tm_write` stays inside its segment. -/
def InRange (s : State τ W) : Prop :=
  ∀ {t seg stop}, (s.call t).window = some (seg, stop) → s.region.InRange seg stop

theorem Region.InRange.grows {r r' : Region W} {seg : ℕ} {stop : ℤ} (hg : r.Grows r')
    (hr : r.InRange seg stop) : r'.InRange seg stop := by
  refine ⟨hr.1.trans_le hg.nSegments, ?_⟩
  rw [hg.nWords hr.1]
  exact hr.2

omit [DecidableEq τ] in
theorem State.Valid.grows {s s' : State τ W} (hg : s.region.Grows s'.region) {ℓ : Loc}
    (hv : s.Valid ℓ) : s'.Valid ℓ := by
  refine ⟨hv.1.trans_le hg.nSegments, ?_⟩
  rw [hg.nWords hv.1]
  exact hv.2

omit [DecidableEq τ] in
theorem Region.InRange.valid {s : State τ W} {seg idx : ℕ} {stop : ℤ}
    (hr : s.region.InRange seg stop) (hidx : (idx : ℤ) < stop) : s.Valid (seg, idx) := by
  refine ⟨hr.1, ?_⟩
  have := hr.2
  simp only
  omega

/-- An `int` is at most what it was made of, down to its smallest value. -/
theorem toInt32_le {n : ℤ} (hn : -2 ^ 31 ≤ n) : toInt32 n ≤ n := by
  rw [toInt32, Int.bmod_def]
  split <;> omega

theorem neg_le_toInt32 (n : ℤ) : -2 ^ 31 ≤ toInt32 n := by
  rw [toInt32, Int.bmod_def]
  split <;> omega

omit [DecidableEq τ] in
theorem range_inRange {s : State τ W} {addr size seg start : ℕ} {stop : ℤ}
    (hr : s.range addr size = some (seg, start, stop)) : s.region.InRange seg stop := by
  unfold State.range at hr
  simp only at hr
  split at hr
  · rename_i hg
    obtain ⟨rfl, hstop⟩ := Prod.mk.inj (Option.some.inj hr)
    obtain ⟨rfl, rfl⟩ := Prod.mk.inj hstop
    refine ⟨hg.2.1, ?_⟩
    have hin := hg.2.2
    generalize size / s.region.align = n at hin ⊢
    have hlow := neg_le_toInt32 n
    have hle := toInt32_le (n := n) (by omega)
    apply le_trans (toInt32_le (by omega))
    omega
  · cases hr

/-- A loop that is under way after a step was so before, or just started. -/
theorem window_step [Zero W] {s s' : State τ W} {e : Event τ W} (hs : Step s e s') {t : τ}
    {seg : ℕ} {stop : ℤ} (hw : (s'.call t).window = some (seg, stop)) :
    (s.call t).window = some (seg, stop) ∨ s.region.InRange seg stop := by
  have hmove : ∀ {u : τ} {c : Call W} {s₁ : State τ W}, s₁.thread = s.thread →
      (c.window = some (seg, stop) →
        (s.call u).window = some (seg, stop) ∨ s.region.InRange seg stop) →
      ((s₁.setCall u c).call t).window = some (seg, stop) →
      (s.call t).window = some (seg, stop) ∨ s.region.InRange seg stop := by
    intro u c s₁ hth hc hw
    rw [State.setCall_call] at hw
    split at hw
    · rename_i htu
      rw [htu]
      exact hc hw
    · rw [State.call, hth] at hw
      exact .inl hw
  cases hs with
  | @called u isRo hc hr =>
    obtain rfl | htu := eq_or_ne t u
    · simp [State.call, Call.window] at hw
    · simp only [State.call, Function.update_of_ne htu] at hw
      exact .inl hw
  | opened => exact .inl hw
  | waiting => exact .inl hw
  | woke => exact .inl hw
  | alloced => exact .inl hw
  | freed => exact .inl hw
  | flagged hc hr => exact hmove rfl (by simp [Call.window]) hw
  | reading hc hr hrange =>
    refine hmove rfl (fun h => .inr ?_) hw
    obtain ⟨rfl, rfl⟩ := Prod.mk.inj (Option.some.inj h)
    exact range_inRange hrange
  | writing hc hr hrange hro =>
    refine hmove rfl (fun h => .inr ?_) hw
    obtain ⟨rfl, rfl⟩ := Prod.mk.inj (Option.some.inj h)
    exact range_inRange hrange
  | read hc hr hidx hv => exact hmove rfl (fun h => .inl (by rw [hr]; exact h)) hw
  | wrote hc hr hidx hv => exact hmove rfl (fun h => .inl (by rw [hr]; exact h)) hw
  | readRefused => exact hmove rfl (by simp [Call.window]) hw
  | readDone => exact hmove rfl (by simp [Call.window]) hw
  | writeRefused => exact hmove rfl (by simp [Call.window]) hw
  | writeDone => exact hmove rfl (by simp [Call.window]) hw
  | freeRefused => exact hmove rfl (by simp [Call.window]) hw
  | released => exact hmove rfl (by simp [Call.window]) hw
  | undone => exact hmove rfl (by simp [Call.window]) hw
  | left => exact hmove rfl (by simp [Call.window]) hw
  | closed => exact hmove rfl (by simp [Call.window]) hw

theorem inRange_step [Zero W] {s s' : State τ W} {e : Event τ W} (hi : InRange s)
    (hs : Step s e s') (hg : s.region.Grows s'.region) : InRange s' := by
  intro t seg stop hw
  rcases window_step hs hw with h | h
  · exact (hi h).grows hg
  · exact h.grows hg

end DualStm
