import DualStm.Epochs

/-!
# One word along a run

`Isolation.lean` looks at all words at once, in runs that free nothing. Here is
the other view: one word of a segment in use, in any run that neither frees the
segment nor hands it out again, whatever happens to the others.

`WordStep` says what a step can do to the word. Three facts about it are then
carried along a run: who has written it (`Authored`), that a transaction keeps
what it has written (`Step.owns`), and that what a transaction reads there does
not change while it does not write it (`Step.shows`).
-/

namespace DualStm

variable {τ W : Type}

/-- The event neither frees the segment nor hands it out. -/
def Event.keeps (seg : ℕ) : Event τ W → Prop
  | .alloced _ k => seg ≠ k
  | .freed _ k => seg ≠ k
  | _ => True

theorem Event.keeps.not_alloced {e : Event τ W} {seg : ℕ} (hk : e.keeps seg) (T : Txn) :
    e ≠ .alloced T seg := by
  rintro rfl
  exact hk rfl

/-- The discipline of the runs that neither hand out nor free the segment. -/
def keepsSegment (seg : ℕ) : Discipline (State τ W) (Event τ W) := fun _ _ e => e.keeps seg

/-- The segment is in use, and nobody has freed it. -/
def Region.Live (r : Region W) (seg : ℕ) : Prop :=
  seg < r.nSegments ∧ (r.segments seg).deregistered = NONE

/-- The segment stays what it was, its words apart. -/
structure Region.SameSegment (seg : ℕ) (r r' : Region W) : Prop where
  /-- no segment goes -/
  nSegments : r.nSegments ≤ r'.nSegments
  /-- the segment stays unmarked -/
  deregistered : (r.segments seg).deregistered = NONE → (r'.segments seg).deregistered = NONE
  /-- its length stays -/
  nWords : (r'.segments seg).nWords = (r.segments seg).nWords
  /-- the size of its words stays -/
  segmentAlign : (r'.segments seg).align = (r.segments seg).align
  /-- the alignment of the region stays -/
  align : r'.align = r.align

namespace Region.SameSegment

variable {seg : ℕ} {r r' r'' : Region W}

theorem refl (r : Region W) : r.SameSegment seg r := ⟨le_rfl, id, rfl, rfl, rfl⟩

theorem trans (h : r.SameSegment seg r') (h' : r'.SameSegment seg r'') :
    r.SameSegment seg r'' :=
  ⟨h.nSegments.trans h'.nSegments, h'.deregistered ∘ h.deregistered, h'.nWords.trans h.nWords,
    h'.segmentAlign.trans h.segmentAlign, h'.align.trans h.align⟩

theorem live (h : r.SameSegment seg r') (hl : r.Live seg) : r'.Live seg :=
  ⟨hl.1.trans_le h.nSegments, h.deregistered hl.2⟩

theorem of_eq (hn : r.nSegments ≤ r'.nSegments) (hseg : r'.segments seg = r.segments seg)
    (ha : r'.align = r.align) : r.SameSegment seg r' :=
  ⟨hn, fun h => by rw [hseg, h], by rw [hseg], by rw [hseg], ha⟩

theorem setSegment {i : ℕ} {segment : Segment W} (hs : SameShape (r.segments i) segment) :
    r.SameSegment seg (r.setSegment i segment) := by
  obtain rfl | hne := eq_or_ne seg i
  · refine ⟨le_rfl, fun h => ?_, ?_, ?_, rfl⟩ <;> rw [Region.setSegment_self]
    · rw [hs.deregistered, h]
    · rw [hs.nWords]
    · rw [hs.align]
  · exact of_eq le_rfl (Region.setSegment_ne _ _ hne) rfl

theorem undoFree {tx i : ℕ} : r.SameSegment seg (undoFree r tx i) := by
  rw [DualStm.undoFree]
  split
  · obtain rfl | hne := eq_or_ne seg i
    · refine ⟨le_rfl, fun _ => ?_, ?_, ?_, rfl⟩ <;> rw [Region.setSegment_self]
    · exact of_eq le_rfl (Region.setSegment_ne _ _ hne) rfl
  · exact refl r

theorem commit (hc : CommitSpec r.nSegments r r') : r.SameSegment seg r' := by
  have hseg := hc.segments seg
  refine ⟨hc.nSegments.ge, fun h => ?_, ?_, ?_, hc.align⟩ <;> rw [hseg] <;> split
  · exact h
  · exact h
  all_goals rfl

end Region.SameSegment

variable [DecidableEq τ]

/-- A step keeps the segment as it is, unless it frees it or hands it out. -/
theorem Step.sameSegment [Zero W] {s s' : State τ W} {e : Event τ W} (hs : Step s e s') {seg : ℕ}
    (hk : e.keeps seg) : s.region.SameSegment seg s'.region := by
  cases hs with
  | read => exact .setSegment (sameShape_readWord ..)
  | readRefused => exact .setSegment (sameShape_readWord ..)
  | wrote hc hr hidx hw => exact .setSegment (sameShape_writeWord hw)
  | released => exact .setSegment (sameShape_releaseWord ..)
  | undone => exact .undoFree
  | alloced hc hr hro =>
    exact .of_eq (tmAlloc_nSegments_le ..) (tmAlloc_ne hk) (tmAlloc_align ..)
  | freed hc hr hro hseg hf =>
    rw [State.setRegion_region, tmFree_eq_some hf]
    exact .of_eq le_rfl (Region.setSegment_ne _ _ hk) rfl
  | flagged => exact .of_eq le_rfl rfl rfl
  | closed hc hr hn hcommit => exact .commit (commitTranscationsInEpoch_spec hcommit)
  | _ => exact .refl _

omit [DecidableEq τ] in
theorem State.Valid.sameSegment {s s' : State τ W} {ℓ : Loc}
    (hsame : s.region.SameSegment ℓ.1 s'.region) (hv : s.Valid ℓ) : s'.Valid ℓ := by
  refine ⟨hv.1.trans_le hsame.nSegments, ?_⟩
  rw [hsame.nWords]
  exact hv.2

/-! ## What a step does to a word

A step changes a word in one of few ways: a reader takes it, a writer writes it, an abort
releases it, a commit passes it on. Everything that is known of a word over a run is known from
these. -/

/-- What a step can do to the word at `ℓ`, which is `w`. -/
inductive WordStep (s : State τ W) (ℓ : Loc) (w : Word W) : Event τ W → Word W → Prop where
  /-- nothing; and if it is the abort loop that passes the word, it had no reason to -/
  | same {e : Event τ W} (hc : ¬ e.closes) (hw : ∀ T v, e ≠ .wrote T ℓ v)
      (hr : ∀ id, e = .released (s.txn id) ℓ →
        ¬ (w.control.accessSet = id ∧ w.control.wordHasBeenWritten = true)) : WordStep s ℓ w e w
  /-- a reader becomes its owner -/
  | taken {e : Event τ W} {id : ℕ} (hc : ¬ e.closes) (hp : e.isPlain = true)
      (hwr : w.control.wordHasBeenWritten = false) :
    WordStep s ℓ w e { w with control := { w.control with accessSet := id } }
  /-- its owner writes the word -/
  | wrote {t : τ} {id : ℕ} {v : W} (hc : s.client t = .inside id)
      (hr : (s.call t).cursor = none) (hown : w.control.accessSet = id ∨
      w.control.wordHasBeenWritten = false ∧ w.control.accessSet = NONE) :
    WordStep s ℓ w (.wrote (s.txn id) ℓ v)
      (Word.store { w with control :=
        { w.control with accessSet := id, wordHasBeenWritten := true } } v)
  /-- an abort clears it -/
  | released {id : ℕ} (hown : w.control.accessSet = id)
      (hwr : w.control.wordHasBeenWritten = true) :
    WordStep s ℓ w (.released (s.txn id) ℓ)
      { w with control := { w.control with accessSet := NONE, wordHasBeenWritten := false } }
  /-- the epoch ends -/
  | committed {e : Event τ W} (hc : e.closes) :
    WordStep s ℓ w e { w with control := commitWord w.control }

section

variable {s : State τ W} {e : Event τ W}

omit [DecidableEq τ] in
theorem Region.word_setSegment_self {r : Region W} {segment : Segment W} {k m : ℕ} :
    (r.setSegment k segment).word (k, m) = segment.word m := by
  rw [Region.word, Region.setSegment_self]

omit [DecidableEq τ] in
/-- A segment that differs at other words only. -/
theorem Region.word_setSegment {r : Region W} {segment : Segment W} {i k m : ℕ}
    (hword : ∀ n, (i, n) = (k, m) → segment.word n = (r.segments i).word n) :
    (r.setSegment i segment).word (k, m) = r.word (k, m) := by
  obtain rfl | hki := eq_or_ne k i
  · rw [Region.word_setSegment_self, hword m rfl]
    rfl
  · rw [Region.word, Region.setSegment_ne _ _ hki]
    rfl

namespace WordStep

omit [DecidableEq τ] in
/-- A plain step that leaves the word as it is. -/
theorem plain {ℓ : Loc} {w : Word W} (hp : e.isPlain = true) (hl : e.left? = none)
    (hw : w = s.region.word ℓ) : WordStep s ℓ (s.region.word ℓ) e w := by
  subst hw
  refine .same (not_closes_of_left_none hl) ?_ ?_
  · rintro T v rfl
    cases hp
  · rintro id rfl
    cases hp

omit [DecidableEq τ] in
/-- A step on another word of the region does nothing to a word. -/
theorem other {i j k m : ℕ} {segment : Segment W} (hne : (i, j) ≠ (k, m)) (hc : ¬ e.closes)
    (hw : ∀ T v, e ≠ .wrote T (k, m) v) (hr : ∀ T, e ≠ .released T (k, m))
    (hword : ∀ n, n ≠ j → segment.word n = (s.region.segments i).word n) :
    WordStep s (k, m) (s.region.word (k, m)) e
      ((s.region.setSegment i segment).word (k, m)) := by
  rw [Region.word_setSegment fun n hn => hword n fun hnj => hne (hnj ▸ hn)]
  exact .same hc hw fun id he => absurd he (hr _)

omit [DecidableEq τ] in
/-- The read of a word, this one or another. -/
theorem read {i j k m id : ℕ} {ro : Bool} (hp : e.isPlain = true) (hl : e.left? = none) :
    WordStep s (k, m) (s.region.word (k, m)) e ((s.region.setSegment i
      (readWord (s.region.segments i) id ro j).2).word (k, m)) := by
  have hc := not_closes_of_left_none hl
  by_cases hij : (i, j) = (k, m)
  · obtain ⟨rfl, rfl⟩ := Prod.mk.inj hij
    rw [Region.word_setSegment_self]
    rcases (word_readWord (s.region.segments i) id ro j).1 with h | ⟨hwr, -, h⟩
    · exact .plain hp hl h
    · rw [h]
      exact .taken hc hp hwr
  · refine .other hij hc ?_ ?_ fun n hn => word_readWord_ne _ _ _ hn
    · rintro T v rfl
      cases hp
    · rintro T rfl
      cases hp

end WordStep

end

/-- A step does one of these, a commit if the segment is live. -/
theorem Step.wordStep [Zero W] {s s' : State τ W} {e : Event τ W} (hs : Step s e s') {ℓ : Loc}
    (hk : ∀ T, e ≠ .alloced T ℓ.1) (hl : e.closes → s.region.Live ℓ.1 ∧ s.Valid ℓ) :
    WordStep s ℓ (s.region.word ℓ) e (s'.region.word ℓ) := by
  obtain ⟨k, m⟩ := ℓ
  cases hs with
  | read => exact .read rfl rfl
  | readRefused => exact .read rfl rfl
  | @wrote t id seg start idx stop source off segment' hc hr hidx hw =>
    by_cases hij : (seg, idx) = (k, m)
    · obtain ⟨rfl, rfl⟩ := Prod.mk.inj hij
      rw [State.setCall_region, State.setRegion_region, Region.word_setSegment_self,
        (word_writeWord hw).2]
      exact .wrote hc (by rw [hr]; rfl) (word_writeWord hw).1
    · refine .other hij (not_closes_of_left_none rfl) ?_ (by rintro T ⟨⟩)
        fun n hn => word_writeWord_ne hw hn
      rintro T v heq
      injection heq with _ heq
      exact hij heq
  | @released t id i j hc hr hi hj =>
    by_cases hij : (i, j) = (k, m)
    · obtain ⟨rfl, rfl⟩ := Prod.mk.inj hij
      rw [State.setCall_region, State.setRegion_region, Region.word_setSegment_self,
        word_releaseWord]
      split
      · rename_i hown
        exact .released hown.1 hown.2
      · rename_i hown
        refine .same (not_closes_of_left_none rfl) (by rintro T v ⟨⟩) ?_
        intro id' heq
        injection heq with heq _
        injection heq with _ heq
        rw [← heq]
        exact hown
    · refine .other hij (not_closes_of_left_none rfl) (by rintro T v ⟨⟩) ?_
        fun n hn => word_releaseWord_ne _ _ hn
      rintro T heq
      injection heq with _ heq
      exact hij heq
  | alloced hc hr hro =>
    refine .plain rfl rfl ?_
    rw [State.setRegion_region, Region.word, tmAlloc_ne fun heq => hk _ (by rw [heq])]
    rfl
  | @freed t id seg r hc hr hro hseg hf =>
    refine .plain rfl rfl ?_
    rw [State.setRegion_region, tmFree_eq_some hf]
    exact Region.word_setSegment fun _ _ => rfl
  | @undone t id i j hc hr hi hj =>
    refine .plain rfl rfl ?_
    rw [State.setCall_region, State.setRegion_region, undoFree]
    split
    · exact Region.word_setSegment fun _ _ => rfl
    · rfl
  | @left t id fin hc hr hn =>
    refine .same ?_ ?_ ?_
    · rintro ⟨T, hT⟩
      cases fin <;> simp [Event.left?] at hT
    · rintro T v heq
      cases fin <;> cases heq
    · rintro id heq
      cases fin <;> cases heq
  | @closed t id fin r hc hr hn hcommit =>
    have hcl : (if fin = true then .ended (s.txn id) true else .aborted (s.txn id) true :
        Event τ W).closes := ⟨s.txn id, by cases fin <;> rfl⟩
    obtain ⟨hl, hv⟩ := hl hcl
    have hseg : r.segments k = commitSegment (s.region.segments k) := by
      rw [(commitTranscationsInEpoch_spec hcommit).segments]
      exact if_pos hl
    have hword : r.word (k, m) = { s.region.word (k, m) with
        control := commitWord (s.region.word (k, m)).control } := by
      rw [Region.word, hseg, word_commitSegment, if_pos hv.2]
      rfl
    rw [State.setRegion_region, hword]
    exact .committed hcl
  | _ => exact .plain rfl rfl rfl

/-! ## What a transaction has on a word

A transaction that has written a word owns it, and the copy to write has its value. No other
transaction changes either before the owner leaves. -/

/-- The transaction has written the word, last `v`. -/
structure Word.OwnedBy (w : Word W) (id : ℕ) (v : W) : Prop where
  /-- it is written -/
  written : w.control.wordHasBeenWritten = true
  /-- the transaction is the owner of the word -/
  owner : w.control.accessSet = id
  /-- the copy to write is what the transaction wrote -/
  writable : w.writable = v

/-- What a read-write transaction that reads the word gets, if it gets anything. -/
def Word.shown (w : Word W) (id : ℕ) : W :=
  if w.control.wordHasBeenWritten = true ∧ w.control.accessSet = id then w.writable
  else w.readOnly

/-- The owner reads its own write back. -/
theorem readWord_of_ownedBy {segment : Segment W} {id j : ℕ} {v : W}
    (hw : (segment.word j).OwnedBy id v) : (readWord segment id false j).1 = some v := by
  have hwr : (segment.control j).wordHasBeenWritten = true := hw.written
  have hown : (segment.control j).accessSet = id := hw.owner
  simp only [readWord, hwr, hown, readWritableCopy_eq, hw.writable]
  simp

/-- What `read_word` returns, if it returns something. -/
theorem readWord_eq_shown {segment : Segment W} {id j : ℕ} {v : W}
    (hv : (readWord segment id false j).1 = some v) : v = (segment.word j).shown id := by
  have h := (word_readWord segment id false j).2 hv
  rw [Word.shown]
  by_cases hwr : (segment.word j).control.wordHasBeenWritten = false
  · rw [if_pos (.inr hwr)] at h
    rw [if_neg (by simp [hwr])]
    exact h
  · rw [if_neg (by simp [hwr])] at h
    rw [if_pos ⟨Bool.not_eq_false _ ▸ hwr, h.1⟩]
    exact h.2

section

omit [DecidableEq τ]

variable {s : State τ W} {ℓ : Loc} {w w' : Word W} {e : Event τ W} {id : ℕ} {v : W}

/-- Within an epoch the committed copy does not change. -/
theorem WordStep.readOnly (hw : WordStep s ℓ w e w') (hc : ¬ e.closes) :
    w'.readOnly = w.readOnly := by
  cases hw with
  | same => rfl
  | taken => rfl
  | wrote => exact Word.readOnly_store ..
  | released => rfl
  | committed hc' => exact absurd hc' hc

/-- A word that is not written is committed as it is. -/
theorem WordStep.readOnly_of_clean (hw : WordStep s ℓ w e w') (hc : e.closes)
    (hn : w.control.wordHasBeenWritten = false) : w'.readOnly = w.readOnly := by
  cases hw with
  | same hn => exact absurd hc hn
  | taken hn => exact absurd hc hn
  | wrote => exact absurd hc (not_closes_of_left_none rfl)
  | released => exact absurd hc (not_closes_of_left_none rfl)
  | committed => simp [Word.readOnly, commitWord, hn]

/-- A transaction keeps what it has written, until it writes it again or gives up;
at the end of the epoch that is committed. -/
theorem WordStep.owned (hw : WordStep s ℓ w e w') (ho : w.OwnedBy id v)
    (hwr : ∀ u, e ≠ .wrote (s.txn id) ℓ u) (hrel : e ≠ .released (s.txn id) ℓ) :
    (¬ e.closes → w'.OwnedBy id v) ∧ (e.closes → w'.readOnly = v) := by
  cases hw with
  | same hc => exact ⟨fun _ => ho, fun hc' => absurd hc' hc⟩
  | taken _ _ hn =>
    rw [ho.written] at hn
    cases hn
  | wrote _ _ hown =>
    rcases hown with hown | ⟨hn, -⟩
    · rw [← hown, ho.owner] at hwr
      exact absurd rfl (hwr _)
    · rw [ho.written] at hn
      cases hn
  | released hown _ =>
    rw [← hown, ho.owner] at hrel
    exact absurd rfl hrel
  | committed hc =>
    refine ⟨fun hn => absurd hc hn, fun _ => ?_⟩
    rw [← ho.writable]
    rcases hro : w.control.wordIsRo with _ | _ <;>
      simp [Word.readOnly, commitWord, Word.writable, ho.written, hro]

/-- The transaction that writes a word owns it. -/
theorem WordStep.of_wrote (hw : WordStep s ℓ w (.wrote (s.txn id) ℓ v) w') : w'.OwnedBy id v := by
  generalize he : Event.wrote (s.txn id) ℓ v = e at hw
  cases hw with
  | same _ hn _ => exact absurd he.symm (hn _ _)
  | taken _ hp _ =>
    rw [← he] at hp
    cases hp
  | wrote _ _ _ =>
    injection he with hT _ hv
    injection hT with _ hid
    subst hid hv
    exact ⟨by simp, by simp, by simp⟩
  | released => cases he
  | committed hc =>
    rw [← he] at hc
    exact absurd hc (not_closes_of_left_none rfl)

/-- What a transaction would read stays the same, until it writes the word itself
or gives up. -/
theorem WordStep.shown_eq (hw : WordStep s ℓ w e w') (hc : ¬ e.closes)
    (hwr : ∀ u, e ≠ .wrote (s.txn id) ℓ u) (hrel : e ≠ .released (s.txn id) ℓ) :
    w'.shown id = w.shown id := by
  cases hw with
  | same => rfl
  | taken _ _ hn => simp [Word.shown, hn, Word.readOnly]
  | @wrote t k u _ _ hown =>
    have hne : k ≠ id := by
      rintro rfl
      exact hwr _ rfl
    have hbefore : ¬ (w.control.wordHasBeenWritten = true ∧ w.control.accessSet = id) := by
      rintro ⟨hn, ha⟩
      rcases hown with hown | ⟨hn', -⟩
      · exact hne (hown.symm.trans ha)
      · rw [hn] at hn'
        cases hn'
    rw [Word.shown, if_neg (by simp [hne]), Word.shown, if_neg hbefore, Word.readOnly_store]
    rfl
  | @released k hown _ =>
    have hne : k ≠ id := by
      rintro rfl
      exact hrel rfl
    rw [Word.shown, if_neg (by simp), Word.shown, if_neg fun h => hne (hown.symm.trans h.2)]
    rfl
  | committed hc' => exact absurd hc' hc

end

/-! ## Who leaves, and how

Who leaves and what it did in its last step can be told from the event. So a statement about
the events of a transaction is one about where its thread was. -/

section

variable [Zero W] {s s' : State τ W} {e : Event τ W} {U : Txn} {ℓ : Loc}

/-- The last step of an abort has passed every segment. -/
theorem Step.of_aborted {b : Bool} (hs : Step s (.aborted U b) s') :
    ∃ i j, Aborting s U i j ∧ ¬ i < s.region.nSegments := by
  generalize he : Event.aborted U b = e at hs
  cases hs with
  | @left t id fin hc hr hn =>
    cases fin
    · obtain ⟨rfl, -⟩ := Event.aborted.inj he
      obtain ⟨i, j, hr, hi⟩ := hr
      exact ⟨i, j, ⟨t, hc, rfl, by rw [hr]; rfl⟩, hi⟩
    · cases he
  | @closed t id fin r hc hr hn hcommit =>
    cases fin
    · obtain ⟨rfl, -⟩ := Event.aborted.inj he
      obtain ⟨i, j, hr, hi⟩ := hr
      exact ⟨i, j, ⟨t, hc, rfl, by rw [hr]; rfl⟩, hi⟩
    · cases he
  | _ => cases he

/-- The step of a `tm_end` is of a thread between two calls. -/
theorem Step.of_ended {b : Bool} (hs : Step s (.ended U b) s') :
    ∃ t, s.client t = .inside U.id ∧ U.epoch = s.epoch ∧ s.call t = .rest := by
  generalize he : Event.ended U b = e at hs
  cases hs with
  | @left t id fin hc hr hn =>
    cases fin
    · cases he
    · obtain ⟨rfl, -⟩ := Event.ended.inj he
      exact ⟨t, hc, rfl, hr⟩
  | @closed t id fin r hc hr hn hcommit =>
    cases fin
    · cases he
    · obtain ⟨rfl, -⟩ := Event.ended.inj he
      exact ⟨t, hc, rfl, hr⟩
  | _ => cases he

/-- Only an abort releases words. -/
theorem Step.of_released (hs : Step s (.released U ℓ) s') : Aborting s U ℓ.1 ℓ.2 := by
  generalize he : Event.released U ℓ = e at hs
  cases hs with
  | @released t id i j hc hr hi hj =>
    obtain ⟨rfl, rfl⟩ := Event.released.inj he
    exact ⟨t, hc, rfl, by rw [hr]; rfl⟩
  | @left t id fin => cases fin <;> cases he
  | @closed t id fin => cases fin <;> cases he
  | _ => cases he

/-- A read, as `read_word` answers it. -/
theorem Step.of_read {v : W} (hs : Step s (.read U ℓ v) s') :
    ∃ t, s.client t = .inside U.id ∧ U.epoch = s.epoch ∧ (s.call t).cursor = none ∧
      s.call t ≠ .beginning ∧
      (readWord (s.region.segments ℓ.1) U.id (s.region.isRoFlags U.id) ℓ.2).1 = some v := by
  generalize he : Event.read U ℓ v = e at hs
  cases hs with
  | @read t id seg start idx stop off target w hc hr hidx hv =>
    obtain ⟨rfl, rfl, rfl⟩ := Event.read.inj he
    exact ⟨t, hc, rfl, by rw [hr]; rfl, by rw [hr]; simp, hv⟩
  | @left t id fin => cases fin <;> cases he
  | @closed t id fin => cases fin <;> cases he
  | _ => cases he

/-- Only a transaction that runs writes. -/
theorem Step.of_wrote {v : W} (hs : Step s (.wrote U ℓ v) s') :
    ∃ t, s.client t = .inside U.id ∧ U.epoch = s.epoch ∧ (s.call t).isWriting = true := by
  generalize he : Event.wrote U ℓ v = e at hs
  cases hs with
  | @wrote t id seg start idx stop source off segment' hc hr hidx hw =>
    obtain ⟨rfl, rfl, rfl⟩ := Event.wrote.inj he
    exact ⟨t, hc, rfl, by rw [hr]; rfl⟩
  | @left t id fin => cases fin <;> cases he
  | @closed t id fin => cases fin <;> cases he
  | _ => cases he

end

section

variable [Zero W] [Fintype τ] {h : List (Event τ W)} {s s' : State τ W} {e : Event τ W}
  {T : Txn} {ℓ : Loc} {i j : ℕ}

/-- Where an abort is after a step: where it was, at its start, or one word or one
segment further on. -/
theorem Step.aborting_cases (hs : Step s e s') (hb : Books h s) (hc : ¬ e.closes)
    (ha : Aborting s' T i j) :
    Aborting s T i j ∨ (i = 0 ∧ j = 0) ∨
      (∃ j', j = j' + 1 ∧ Aborting s T i j' ∧ e = .released T (i, j')) ∨
      ∃ i' j', i = i' + 1 ∧ j = 0 ∧ Aborting s T i' j' ∧
        ¬ j' < (s.region.segments i').nWords ∧ s'.region = undoFree s.region T.id i' := by
  -- a thread moves on inside the library, and `c` is where it gets to
  have hset : ∀ {r : Region W} {t : τ} {c : Call W} {P : Prop},
      Aborting ((s.setRegion r).setCall t c) T i j →
      (c.cursor = some (i, j) → s.client t = .inside T.id → T.epoch = s.epoch → P) →
      Aborting s T i j ∨ P := by
    intro r t c P ha hself
    rcases ha.of_setCall with ⟨u, -, hu, hep, hcur⟩ | ⟨hu, hep, hcur⟩
    · exact .inl ⟨u, hu, hep, hcur⟩
    · exact .inr (hself hcur hu hep)
  have hstart : ∀ {P : Prop}, (Call.aborting 0 0 : Call W).cursor = some (i, j) →
      (i = 0 ∧ j = 0) ∨ P := by
    intro P hcur
    obtain ⟨rfl, rfl⟩ := Prod.mk.inj (Option.some.inj hcur)
    exact .inl ⟨rfl, rfl⟩
  have hnone : ∀ {c : Call W} {P : Prop}, c.cursor = none → c.cursor = some (i, j) → P := by
    intro c P hc hcur
    rw [hc] at hcur
    cases hcur
  cases hs with
  | @called t isRo hct hr =>
    refine .inl (ha.others (t := t) rfl (.inl ?_) fun u hut => ⟨rfl, ?_⟩)
    · rw [show State.client _ t = .outside from hct]
      rintro ⟨⟩
    · simp only [State.call, Function.update_of_ne hut]
  | @opened t hct hr hn =>
    exact .inl (ha.of_setGate (t := t) (.inr (by rw [hr]; rfl)) rfl
      fun u hut => Function.update_of_ne hut _ _)
  | @woke t since hct =>
    exact .inl (ha.of_setGate (t := t) (.inr (by rw [hb.threads.woken hct]; rfl)) rfl
      fun u hut => Function.update_of_ne hut _ _)
  | @waiting t hct hr hn =>
    exact .inl (ha.of_setGate (t := t) (.inl (by simp [Gate.wait])) rfl
      fun u hut => Function.update_of_ne hut _ _)
  | alloced => exact .inl ha
  | freed => exact .inl ha
  | flagged => exact hset ha fun hcur _ _ => hnone rfl hcur
  | reading => exact hset (r := s.region) ha fun hcur _ _ => hnone rfl hcur
  | writing => exact hset (r := s.region) ha fun hcur _ _ => hnone rfl hcur
  | read => exact hset ha fun hcur _ _ => hnone rfl hcur
  | readDone => exact hset (r := s.region) ha fun hcur _ _ => hnone rfl hcur
  | wrote => exact hset ha fun hcur _ _ => hnone rfl hcur
  | writeDone => exact hset (r := s.region) ha fun hcur _ _ => hnone rfl hcur
  | readRefused => exact hset ha fun hcur _ _ => hstart hcur
  | writeRefused => exact hset (r := s.region) ha fun hcur _ _ => hstart hcur
  | freeRefused => exact hset (r := s.region) ha fun hcur _ _ => hstart hcur
  | @released t id k m hct hr hk hm =>
    apply hset ha
    intro hcur hu hep
    obtain ⟨rfl, rfl⟩ := Prod.mk.inj (Option.some.inj hcur)
    exact .inr (.inl ⟨m, rfl, ⟨t, hu, hep, by rw [hr]; rfl⟩, by rw [State.txn_eq hct hu hep]⟩)
  | @undone t id k m hct hr hk hm =>
    apply hset ha
    intro hcur hu hep
    obtain ⟨rfl, rfl⟩ := Prod.mk.inj (Option.some.inj hcur)
    refine .inr (.inr ⟨k, m, rfl, rfl, ⟨t, hu, hep, by rw [hr]; rfl⟩, hm, ?_⟩)
    rw [← State.txn_eq hct hu hep]
    rfl
  | left hct hr hn => exact .inl (ha.of_leave hb.gate hct rfl rfl)
  | @closed t id fin r hct hr hn hcommit =>
    exact absurd ⟨s.txn id, by cases fin <;> rfl⟩ hc

/-- An abort passes a word by releasing it. -/
theorem Step.passed (hs : Step s e s') (hb : Books h s) (hc : ¬ e.closes) (hv : s.Valid ℓ)
    (ha : Aborting s' T i j) (hp : Passed i j ℓ) :
    (∃ i' j', Aborting s T i' j' ∧ Passed i' j' ℓ) ∨ e = .released T ℓ := by
  rcases hs.aborting_cases hb hc ha with ha | ⟨rfl, rfl⟩ | ⟨m, rfl, ha, he⟩ |
    ⟨k, m, rfl, rfl, ha, hm, -⟩
  · exact .inl ⟨i, j, ha, hp⟩
  · simp [Passed] at hp
  · by_cases hℓ : (i, m) = ℓ
    · exact .inr (by rw [he, hℓ])
    · refine .inl ⟨i, m, ha, ?_⟩
      rcases hp with hlt | ⟨heq, hlt⟩
      · exact .inl hlt
      · refine .inr ⟨heq, lt_of_le_of_ne (Nat.lt_succ_iff.mp hlt) ?_⟩
        rintro rfl
        exact hℓ (by rw [← heq])
  · -- the word loop ended at the length of the segment
    refine .inl ⟨k, m, ha, ?_⟩
    rcases hp with hp | ⟨-, hp⟩
    · rcases Nat.lt_succ_iff_lt_or_eq.mp hp with hlt | rfl
      · exact .inl hlt
      · exact .inr ⟨rfl, hv.2.trans_le (not_lt.mp hm)⟩
    · exact absurd hp (Nat.not_lt_zero _)

namespace Aborting

omit [Zero W] in
/-- A thread leaves: the abort is over when it is its own. -/
theorem leave {t : τ} {id : ℕ} {fin last : Bool} (ha : Aborting s T i j) (hb : Books h s)
    (hct : s.client t = .inside id)
    (hr : if fin = true then s.call t = .rest else
      ∃ i j, s.call t = .aborting i j ∧ ¬ i < s.region.nSegments)
    (hth : s'.thread = (s.setCall t .rest).thread) (hg : s'.gate = s.gate.afterLeave t) :
    (∃ i' j', Aborting s' T i' j') ∨
      Aborted ((if fin = true then .ended (s.txn id) last else .aborted (s.txn id) last) :: h)
        T := by
  obtain ⟨u, hu, hep, hcur⟩ := ha
  obtain rfl | hut := eq_or_ne u t
  · right
    rw [hct] at hu
    injection hu with hu
    cases fin
    · refine ⟨last, List.mem_cons.mpr (.inl ?_)⟩
      rw [if_neg (by simp), State.txn, hu, ← hep]
    · rw [show s.call u = .rest from hr] at hcur
      cases hcur
  · left
    obtain ⟨hu', hep'⟩ := hb.gate.afterLeave_inside hct hut hu
    refine ⟨i, j, u, by rw [State.client, hg]; exact hu', ?_, ?_⟩
    · rw [State.epoch, hg]
      exact hep.trans hep'.symm
    · rw [State.call, hth, State.setCall_thread_ne _ _ _ _ hut]
      exact hcur

end Aborting

/-- An abort goes on until its leave. -/
theorem Step.aborting_stays (hs : Step s e s') (hb : Books h s) (ha : Aborting s T i j) :
    (∃ i' j', Aborting s' T i' j') ∨ Aborted (e :: h) T := by
  cases hs with
  | @called t isRo hct hr =>
    refine .inl ⟨i, j, ha.others (t := t) rfl (.inl (by rw [hct]; rintro ⟨⟩)) fun u hut =>
      ⟨rfl, ?_⟩⟩
    simp only [State.call, Function.update_of_ne hut]
  | @opened t hct hr hn =>
    exact .inl ⟨i, j, ha.others (t := t) rfl (.inl (by rw [hct]; rintro ⟨⟩)) fun u hut =>
      ⟨Function.update_of_ne hut _ _, rfl⟩⟩
  | @woke t since hct =>
    exact .inl ⟨i, j, ha.others (t := t) rfl (.inl (by rw [hct]; rintro ⟨⟩)) fun u hut =>
      ⟨Function.update_of_ne hut _ _, rfl⟩⟩
  | @waiting t hct hr hn =>
    exact .inl ⟨i, j, ha.others (t := t) rfl (.inl (by rw [hct]; rintro ⟨⟩)) fun u hut =>
      ⟨Function.update_of_ne hut _ _, rfl⟩⟩
  | alloced => exact .inl ⟨i, j, ha⟩
  | freed => exact .inl ⟨i, j, ha⟩
  | flagged hct hr => exact .inl (ha.setCall (.inl (by rw [hr]; rfl)))
  | reading hct hr => exact .inl (ha.setCall (r := s.region) (.inl (by rw [hr]; rfl)))
  | writing hct hr => exact .inl (ha.setCall (r := s.region) (.inl (by rw [hr]; rfl)))
  | read hct hr => exact .inl (ha.setCall (.inl (by rw [hr]; rfl)))
  | readDone hct hr => exact .inl (ha.setCall (r := s.region) (.inl (by rw [hr]; rfl)))
  | wrote hct hr => exact .inl (ha.setCall (.inl (by rw [hr]; rfl)))
  | writeDone hct hr => exact .inl (ha.setCall (r := s.region) (.inl (by rw [hr]; rfl)))
  | readRefused hct hr => exact .inl (ha.setCall (.inl (by rw [hr]; rfl)))
  | writeRefused hct hr => exact .inl (ha.setCall (r := s.region) (.inl (by rw [hr]; rfl)))
  | freeRefused hct hr => exact .inl (ha.setCall (r := s.region) (.inl (by rw [hr]; rfl)))
  | released hct hr => exact .inl (ha.setCall (.inr (by simp [Call.cursor])))
  | undone hct hr => exact .inl (ha.setCall (.inr (by simp [Call.cursor])))
  | left hct hr hn => exact ha.leave hb hct hr rfl rfl
  | closed hct hr hn hcommit => exact ha.leave hb hct hr rfl rfl

omit [Zero W] in
/-- What the history says of a transaction under way. -/
theorem Books.of_inside (hb : Books h s) {t : τ} (ht : s.client t = .inside T.id)
    (hep : T.epoch = s.epoch) : .began t T ∈ h ∧ ¬ HasLeft h T := by
  obtain ⟨ep, id⟩ := T
  obtain rfl : ep = s.epoch := hep
  exact hb.ids.holds.mp ht

/-- A transaction that is inside the library without giving up. -/
def Running (s : State τ W) (T : Txn) : Prop :=
  ∃ t, s.client t = .inside T.id ∧ T.epoch = s.epoch ∧ (s.call t).cursor = none

omit [Zero W] in
theorem Running.not_aborting (hT : Running s T) (hb : Books h s) : ¬ Aborting s T i j := by
  rintro ⟨u, hu, -, hcur⟩
  obtain ⟨t, ht, -, hnone⟩ := hT
  rw [hb.gate.id_inj hu ht, hnone] at hcur
  cases hcur

omit [Zero W] in
theorem Running.not_left (hT : Running s T) (hb : Books h s) : ¬ HasLeft h T := by
  obtain ⟨t, ht, hep, -⟩ := hT
  exact (hb.of_inside ht hep).2

/-- The transaction has not given up: it is in no abort and has left through none. -/
def Sound (h : List (Event τ W)) (s : State τ W) (T : Txn) : Prop :=
  ¬ Aborted h T ∧ ∀ i j, ¬ Aborting s T i j

omit [Zero W] in
theorem Running.sound (hT : Running s T) (hb : Books h s) : Sound h s T :=
  ⟨fun ha => hT.not_left hb (hasLeft_iff.mpr (.inr ha)), fun _ _ => hT.not_aborting hb⟩

/-- Who has not given up had not done so before. -/
theorem Step.sound (hs : Step s e s') (hb : Books h s) (hT : Sound (e :: h) s' T) :
    Sound h s T ∧ ∀ ℓ, e ≠ .released T ℓ := by
  have hna : ∀ i j, ¬ Aborting s T i j := by
    intro i j ha
    rcases hs.aborting_stays hb ha with ⟨i', j', ha'⟩ | ha'
    · exact hT.2 i' j' ha'
    · exact hT.1 ha'
  refine ⟨⟨?_, hna⟩, ?_⟩
  · rintro ⟨b, ha⟩
    exact hT.1 ⟨b, List.mem_cons_of_mem _ ha⟩
  · rintro ℓ rfl
    exact hna _ _ hs.of_released

/-- What the history says of a transaction agrees with itself. -/
structure Acts (h : List (Event τ W)) : Prop where
  /-- a transaction leaves once -/
  once : ∀ {T}, Ended h T → ¬ Aborted h T
  /-- only transactions write -/
  wrote : ∀ {T ℓ v}, .wrote T ℓ v ∈ h → T ∈ begun h

theorem Acts.run {Q : Discipline (State τ W) (Event τ W)} {s₀ : State τ W} (hrest : s₀.AtRest)
    (hr : Run State.step Q s₀ h s) : Acts h := by
  induction hr with
  | start =>
    refine ⟨?_, fun hw => (by cases hw)⟩
    intro T hT
    obtain ⟨b, hT⟩ := hT
    cases hT
  | @next h s s' a e hr hs _ ih =>
    have hb := Books.run hrest hr
    have hstep := step_cases hs
    -- whoever leaves now had not left before
    have hnew : ∀ {T b}, e = .ended T b ∨ e = .aborted T b → ¬ HasLeft h T := by
      intro T b he
      have hin : ∃ t, s.client t = .inside T.id ∧ T.epoch = s.epoch := by
        rcases he with rfl | rfl
        · obtain ⟨t, ht, hep, -⟩ := hstep.of_ended
          exact ⟨t, ht, hep⟩
        · obtain ⟨i, j, ⟨t, ht, hep, -⟩, -⟩ := hstep.of_aborted
          exact ⟨t, ht, hep⟩
      obtain ⟨t, ht, hep⟩ := hin
      exact (hb.of_inside ht hep).2
    refine ⟨fun {T} hE hA => ?_, fun {T ℓ v} hw => ?_⟩
    · obtain ⟨b, hE⟩ := hE
      obtain ⟨b', hA⟩ := hA
      rcases List.mem_cons.mp hE with rfl | hE <;> rcases List.mem_cons.mp hA with hA | hA
      · cases hA
      · exact hnew (.inl rfl) (hasLeft_iff.mpr (.inr ⟨b', hA⟩))
      · exact hnew (.inr hA.symm) (hasLeft_iff.mpr (.inl ⟨b, hE⟩))
      · exact ih.once ⟨b, hE⟩ ⟨b', hA⟩
    · rcases List.mem_cons.mp hw with rfl | hw
      · obtain ⟨t, ht, hep, -⟩ := hstep.of_wrote
        exact begun_subset_cons (mem_begun (hb.of_inside ht hep).1)
      · exact begun_subset_cons (ih.wrote hw)

/-! ## The word of a transaction

A word that is written has an author, and the author has not given up or its abort has not come
to the word yet. The steps of all transactions keep this. -/

/-- Somebody who has not given up has written the word, if it is written. -/
def Authored (h : List (Event τ W)) (s : State τ W) (ℓ : Loc) : Prop :=
  (s.region.word ℓ).control.wordHasBeenWritten = true →
    (∃ v, .wrote (s.txn (s.region.word ℓ).control.accessSet) ℓ v ∈ h) ∧
      ¬ Aborted h (s.txn (s.region.word ℓ).control.accessSet) ∧
      ∀ i j, Aborting s (s.txn (s.region.word ℓ).control.accessSet) i j → ¬ Passed i j ℓ

theorem authored_step (hau : Authored h s ℓ) (hb : Books h s) (hs : Step s e s')
    (hl : e.closes → s.region.Live ℓ.1) (hv : s.Valid ℓ) (hk : ∀ T, e ≠ .alloced T ℓ.1) :
    Authored (e :: h) s' ℓ := by
  have hw := hs.wordStep hk fun hc => ⟨hl hc, hv⟩
  intro hwr
  have htxn : ¬ e.closes → ∀ k, s'.txn k = s.txn k := by
    intro hc k
    rcases hs.epoch with ⟨-, hep⟩ | ⟨⟨id, hl⟩, -, -⟩
    · rw [State.txn, hep]
    · exact absurd ⟨_, hl⟩ hc
  generalize s'.region.word ℓ = w' at hw hwr ⊢
  cases hw with
  | same hc _ hrel =>
    obtain ⟨⟨v, hmem⟩, hna, hpass⟩ := hau hwr
    rw [htxn hc]
    refine ⟨⟨v, List.mem_cons_of_mem _ hmem⟩, ?_, ?_⟩
    · rintro ⟨b, hA⟩
      rcases List.mem_cons.mp hA with rfl | hA
      · -- the abort of the author would have passed the word
        obtain ⟨i, j, ha, hi⟩ := hs.of_aborted
        exact hpass i j ha (.inl (hv.1.trans_le (not_lt.mp hi)))
      · exact hna ⟨b, hA⟩
    · intro i j ha hp
      rcases hs.passed hb hc hv ha hp with ⟨i', j', ha', hp'⟩ | rfl
      · exact hpass i' j' ha' hp'
      · exact hrel _ rfl ⟨rfl, hwr⟩
  | taken _ _ hn =>
    rw [show (s.region.word ℓ).control.wordHasBeenWritten = true from hwr] at hn
    cases hn
  | @wrote t id v hct hcur _ =>
    have hc : ¬ (Event.wrote (s.txn id) ℓ v : Event τ W).closes := not_closes_of_left_none rfl
    have hrun : Running s (s.txn id) := ⟨t, hct, rfl, hcur⟩
    have hid : ∀ x, (Word.store { s.region.word ℓ with control :=
        { (s.region.word ℓ).control with accessSet := id, wordHasBeenWritten := true } }
          x).control.accessSet = id := fun x => by rw [Word.store_control]
    rw [hid, htxn hc]
    refine ⟨⟨v, List.mem_cons_self⟩, ?_, ?_⟩
    · rw [aborted_cons_of_none rfl]
      exact (hrun.sound hb).1
    · intro i j ha hp
      rcases hs.passed hb hc hv ha hp with ⟨i', j', ha', -⟩ | hrel
      · exact hrun.not_aborting hb ha'
      · cases hrel
  | released => cases hwr
  | committed => cases hwr

/-- At the end of the epoch, who has written the word has left through `tm_end`. -/
theorem Authored.ended (hau : Authored h s ℓ) (hb : Books h s) (hacts : Acts h) (hs : Step s e s')
    (hc : e.closes) (hv : s.Valid ℓ) (hwr : (s.region.word ℓ).control.wordHasBeenWritten = true) :
    (∃ v, .wrote (s.txn (s.region.word ℓ).control.accessSet) ℓ v ∈ h) ∧
      Ended (e :: h) (s.txn (s.region.word ℓ).control.accessSet) := by
  obtain ⟨⟨v, hmem⟩, hna, hpass⟩ := hau hwr
  have hlt : s.epoch < s'.epoch := by
    rcases hs.epoch with ⟨hn, -⟩ | ⟨-, -, hep⟩
    · exact absurd hc hn
    · exact hep ▸ Nat.lt_succ_self _
  have hleft := (hb.step hs).ids.left_of_lt (begun_subset_cons (hacts.wrote hmem)) hlt
  refine ⟨⟨v, hmem⟩, (hasLeft_iff.mp hleft).resolve_right ?_⟩
  rintro ⟨b, hA⟩
  rcases List.mem_cons.mp hA with rfl | hA
  · -- its abort would have passed the word
    obtain ⟨i, j, ha, hi⟩ := hs.of_aborted
    exact hpass i j ha (.inl (hv.1.trans_le (not_lt.mp hi)))
  · exact hna ⟨b, hA⟩

/-- What a transaction wrote to a word, on its way: private while the epoch lasts,
and after that the committed value, until somebody commits another one. -/
structure Carried (T : Txn) (v : W) (ℓ : Loc) (h : List (Event τ W)) (s : State τ W) : Prop where
  /-- its epoch is the current one or past -/
  le : T.epoch ≤ s.epoch
  /-- the word is written by somebody -/
  authored : Authored h s ℓ
  /-- while the epoch lasts, the transaction owns the word -/
  owned : s.epoch = T.epoch → Sound h s T → (s.region.word ℓ).OwnedBy T.id v
  /-- after the epoch `v` is committed -/
  kept : T.epoch < s.epoch → Ended h T →
    (∀ U w, T.epoch < U.epoch → U.epoch < s.epoch → Ended h U → .wrote U ℓ w ∉ h) →
    (s.region.word ℓ).readOnly = v

theorem carried_step {v : W} (hca : Carried T v ℓ h s) (hb : Books h s) (hacts : Acts h)
    (hacts' : Acts (e :: h)) (hs : Step s e s') (hl : s.region.Live ℓ.1) (hv : s.Valid ℓ)
    (hk : e.keeps ℓ.1) (hwr : ∀ w, e ≠ .wrote T ℓ w) : Carried T v ℓ (e :: h) s' := by
  have hw := hs.wordStep hk.not_alloced fun _ => ⟨hl, hv⟩
  have hauth := authored_step hca.authored hb hs (fun _ => hl) hv hk.not_alloced
  rcases hs.epoch with ⟨hc, hep⟩ | ⟨⟨id, hle⟩, -, hep⟩
  · refine ⟨hep ▸ hca.le, hauth, ?_, ?_⟩
    · intro hcur hsound
      obtain ⟨hsound, hrel⟩ := hs.sound hb hsound
      have hT : s.txn T.id = T := by rw [State.txn, ← hep, hcur]
      refine (hw.owned (hca.owned (hep ▸ hcur) hsound) ?_ ?_).1 hc
      · rw [hT]
        exact hwr
      · rw [hT]
        exact hrel ℓ
    · intro hlt hE hU
      rw [hep] at hlt hU
      have hE' : Ended h T := by
        obtain ⟨b, hb'⟩ := hE
        rcases List.mem_cons.mp hb' with rfl | hb'
        · have := hs.left_epoch (T := T) (b := b) rfl
          omega
        · exact ⟨b, hb'⟩
      rw [hw.readOnly hc]
      apply hca.kept hlt hE'
      intro U w h₁ h₂ hUE hmem
      obtain ⟨b, hUE⟩ := hUE
      exact hU U w h₁ h₂ ⟨b, List.mem_cons_of_mem _ hUE⟩ (List.mem_cons_of_mem _ hmem)
  · have hc : e.closes := ⟨_, hle⟩
    refine ⟨?_, hauth, ?_, ?_⟩
    · have := hca.le
      omega
    · intro hcur
      have := hca.le
      omega
    · intro hlt hE hU
      rcases lt_or_eq_of_le hca.le with hlt' | heq
      · -- a later epoch ends, in which nobody committed a write
        have hE' : Ended h T := by
          obtain ⟨b, hb'⟩ := hE
          rcases List.mem_cons.mp hb' with rfl | hb'
          · have := hs.left_epoch (T := T) (b := b) rfl
            omega
          · exact ⟨b, hb'⟩
        have hro : (s.region.word ℓ).readOnly = v := by
          apply hca.kept hlt' hE'
          intro U w h₁ h₂ hUE hmem
          obtain ⟨b, hUE⟩ := hUE
          exact hU U w h₁ (by omega) ⟨b, List.mem_cons_of_mem _ hUE⟩
            (List.mem_cons_of_mem _ hmem)
        have hclean : (s.region.word ℓ).control.wordHasBeenWritten = false := by
          by_contra hn
          obtain ⟨⟨w, hmem⟩, hUE⟩ := hca.authored.ended hb hacts hs hc hv (by simpa using hn)
          exact hU _ w hlt' (hep ▸ Nat.lt_succ_self _) hUE (List.mem_cons_of_mem _ hmem)
        rw [← hro]
        exact hw.readOnly_of_clean hc hclean
      · -- the epoch of the transaction ends
        have hT : s.txn T.id = T := by rw [State.txn, ← heq]
        have hsound : Sound h s T ∧ ∀ m, e ≠ .released T m := by
          obtain ⟨b, hE⟩ := hE
          rcases List.mem_cons.mp hE with rfl | hE
          · obtain ⟨t, ht, htep, hrest⟩ := hs.of_ended
            refine ⟨Running.sound ⟨t, ht, htep, by rw [hrest]; rfl⟩ hb, ?_⟩
            rintro m ⟨⟩
          · have hna : ∀ i j, ¬ Aborting s T i j := by
              rintro i j ⟨t, ht, -, -⟩
              exact (hb.of_inside ht heq).2 (hasLeft_iff.mpr (.inl ⟨b, hE⟩))
            refine ⟨⟨hacts.once ⟨b, hE⟩, hna⟩, ?_⟩
            rintro m rfl
            exact hna _ _ hs.of_released
        refine (hw.owned (hca.owned heq.symm hsound.1) ?_ ?_).2 hc
        · rw [hT]
          exact hwr
        · rw [hT]
          exact hsound.2 ℓ

end

end DualStm
